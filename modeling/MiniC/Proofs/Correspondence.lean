/-
# Two runs of the parser side by side

The parser asks a token for its kind and its text. The place of a token it only hands
on, to a node that it builds or a report that it makes; the one exception is a directive,
which ends with its line. So two runs over tokens that correspond, one by one, take the
same turns, and what they build and report corresponds again.

What it is to correspond is left open. A `Correspondence` relates tokens, places, logs,
expressions and statements. Tokens that correspond have one kind, one text and places
that correspond, and each way to build a node or make a report leads from parts that
correspond to wholes that do. `Tracks S p q` says that `p` and `q`, run from cursors that
correspond, give results in the relation `S` and leave cursors that correspond. It is kept
by all the ways in which parsers are put together, so each parser has one lemma.

A property of single trees is a correspondence, too, between a tree and itself. The words
that may occur in a tree are therefore part of it (`Correspondence.word`).

Key definitions: `Correspondence`, `Correspondence.Cursors`, `Parse.Tracks`.
Key theorems: `Parse.Tracks.bind`, `Parse.Tracks.collectUntil`, `Parse.expression_tracks`,
`Parse.statement_tracks`, `Parse.program_tracks`, `Parse.ofTokens_tracks`.
-/
import Mathlib.Data.List.Forall2
import MiniC.Proofs.Watch

namespace MiniC

/-- Relations between two runs of the parser that all its steps keep. -/
structure Correspondence where
  token : Token → Token → Prop
  place : Location → Location → Prop
  /-- The words of tokens. -/
  word : Token.Kind → String → Prop
  log : List Diagnostic → List Diagnostic → Prop
  expr : Node → Node → Prop
  stmt : Node → Node → Prop
  kind {t u : Token} : token t u → t.kind = u.kind
  text {t u : Token} : token t u → t.text = u.text
  spelled {t u : Token} : token t u → word t.kind t.spelling
  located {t u : Token} : token t u → place t.location u.location
  /-- A directive reads on to the end of its line. -/
  line {t u hash hash' : Token} : token hash hash' → hash.is .delimiter "#" → token t u →
    t.location.line = u.location.line
  report {ls ms : List Diagnostic} {l m : Location} (message : String) : log ls ms → place l m →
    log (⟨.parser, message, l⟩ :: ls) (⟨.parser, message, m⟩ :: ms)
  number {x : String} {l m : Location} : word .number x → place l m →
    expr (.literal x (Parse.numberKind x) l) (.literal x (Parse.numberKind x) m)
  string {x : String} {l m : Location} : word .string x → place l m →
    expr (.literal x .string l) (.literal x .string m)
  name {x : String} {l m : Location} : word .identifier x → place l m →
    expr (.identifier x l) (.identifier x m)
  call {x : String} {as bs : List Node} {l m : Location} : word .identifier x → List.Forall₂ expr as bs →
    place l m → expr (.call x as l) (.call x bs m)
  binary {a a' b b' : Node} {l m : Location} (o : BinOp) : expr a b → expr a' b' → place l m →
    expr (.binary o a a' l) (.binary o b b' m)
  unary {a b : Node} {l m : Location} (o : UnaryOp) : expr a b → place l m →
    expr (.unary o a l) (.unary o b m)
  inclusion {l m : Location} (library : String) : place l m →
    stmt (.inclusion library l) (.inclusion library m)
  function {h : Header} {as bs : List Node} {l m : Location} : word .identifier h.name →
    (∀ p ∈ h.params, word .identifier p.name) → List.Forall₂ stmt as bs → place l m →
    stmt (.function h as l) (.function h bs m)
  declare {x : String} {a b : Option Node} {l m : Location} (type : String) : word .identifier x →
    Option.Rel expr a b → place l m → stmt (.declare x type a l) (.declare x type b m)
  assign {x : String} {a b : Option Node} {l m : Location} (o : AssignOp) : word .identifier x →
    Option.Rel expr a b → place l m → stmt (.assign x o a l) (.assign x o b m)
  branch {a a' b b' : Node} {c d : Option Node} {l m : Location} : expr a b → stmt a' b' →
    Option.Rel stmt c d → place l m → stmt (.branch a a' c l) (.branch b b' d m)
  whileLoop {a a' b b' : Node} {l m : Location} : expr a b → stmt a' b' → place l m →
    stmt (.whileLoop a a' l) (.whileLoop b b' m)
  forLoop {a b a' b' a'' b'' : Option Node} {c d : Node} {l m : Location} : Option.Rel stmt a b →
    Option.Rel expr a' b' → Option.Rel stmt a'' b'' → stmt c d → place l m →
    stmt (.forLoop a a' a'' c l) (.forLoop b b' b'' d m)
  ret {a b : Option Node} {l m : Location} : Option.Rel expr a b → place l m → stmt (.ret a l) (.ret b m)
  printf {as bs : List Node} {l m : Location} : List.Forall₂ expr as bs → place l m →
    stmt (.printf as l) (.printf bs m)
  scanf {as bs : List Node} {l m : Location} : List.Forall₂ expr as bs → place l m →
    stmt (.scanf as l) (.scanf bs m)
  block {as bs : List Node} {l m : Location} : List.Forall₂ stmt as bs → place l m →
    stmt (.block as l) (.block bs m)
  expression {a b : Node} : expr a b → stmt a b

namespace Correspondence

/-! ### Tokens and cursors -/

section

variable (R : Correspondence) {t u : Token}

theorem spelling (h : R.token t u) : t.spelling = u.spelling := by
  rw [Token.spelling, Token.spelling, R.text h]

theorem is (h : R.token t u) (kind : Token.Kind) (text : String) : t.is kind text = u.is kind text := by
  rw [Token.is, Token.is, R.kind h, R.text h]

theorem isType (h : R.token t u) : t.isType = u.isType := by
  rw [Token.isType, Token.isType, R.kind h, R.spelling h]

theorem describe (h : R.token t u) : t.describe = u.describe := by
  rw [Token.describe, Token.describe, R.kind h, R.text h]

/-- A message on a token quotes its description. -/
theorem message (h : R.token t u) (problem : Token → SyntaxProblem)
    (quotes : problem ∈ [.tooDeep, .skipped, .skippedInGroup, .skippedParameter]) :
    (problem t).message = (problem u).message := by
  simp only [List.mem_cons, List.not_mem_nil, or_false] at quotes
  rcases quotes with rfl | rfl | rfl | rfl
  all_goals
    unfold SyntaxProblem.message
    dsimp only
    rw [R.describe h]

end

/-- The cursors stand before tokens that correspond, and so does all that they hold. -/
structure Cursors (R : Correspondence) (c d : Cursor) : Prop where
  rest : List.Forall₂ R.token c.rest d.rest
  last : Option.Rel R.token c.last d.last
  finish : R.place c.finish d.finish
  log : R.log c.log d.log

namespace Cursors

variable {R : Correspondence} {c d : Cursor}

theorem length (h : R.Cursors c d) : c.rest.length = d.rest.length := h.rest.length_eq

/-- Either both cursors stand at the end, or before two tokens that correspond. -/
theorem ahead (h : R.Cursors c d) : c.rest = [] ∧ d.rest = [] ∨
    ∃ t ts u us, c.rest = t :: ts ∧ d.rest = u :: us ∧ R.token t u ∧ List.Forall₂ R.token ts us := by
  have rest := h.rest
  cases hc : c.rest with
  | nil => exact .inl ⟨rfl, List.forall₂_nil_left_iff.mp (hc ▸ rest)⟩
  | cons t ts =>
    obtain ⟨u, us, first, more, hd⟩ := List.forall₂_cons_left_iff.mp (hc ▸ rest)
    exact .inr ⟨t, ts, u, us, rfl, hd, first, more⟩

theorem here (h : R.Cursors c d) : R.place c.here d.here := by
  unfold Cursor.here
  rcases h.ahead with ⟨hc, hd⟩ | ⟨t, ts, u, us, hc, hd, first, -⟩
  · rw [hc, hd]
    exact h.finish
  · rw [hc, hd]
    exact R.located first

theorem looksAt (h : R.Cursors c d) (kind : Token.Kind) (text : String) :
    c.looksAt kind text = d.looksAt kind text := by
  unfold Cursor.looksAt
  rcases h.ahead with ⟨hc, hd⟩ | ⟨t, ts, u, us, hc, hd, first, -⟩
  · rw [hc, hd]
  · rw [hc, hd]
    exact R.is first kind text

theorem advance (h : R.Cursors c d) : R.Cursors c.advance d.advance := by
  rcases h.ahead with ⟨hc, hd⟩ | ⟨t, ts, u, us, hc, hd, first, more⟩
  · unfold Cursor.advance
    rw [hc, hd]
    exact h
  · rw [Cursor.advance_rest hc, Cursor.advance_rest hd]
    exact ⟨more, .some first, h.finish, h.log⟩

theorem report (h : R.Cursors c d) {problem problem' : SyntaxProblem} {l m : Location}
    (same : problem.message = problem'.message) (at_ : R.place l m) :
    R.Cursors (c.report problem l) (d.report problem' m) := by
  refine ⟨h.rest, h.last, h.finish, ?_⟩
  rw [Cursor.report, Cursor.report, same]
  exact R.report _ h.log at_

/-- A run of tokens is taken on both sides if the one test says what the other does. -/
theorem skipWhile (h : R.Cursors c d) {p q : Token → Bool} (same : ∀ t u, R.token t u → p t = q u) :
    List.Forall₂ R.token (c.rest.takeWhile p) (d.rest.takeWhile q) ∧
      R.Cursors (c.skipWhile p) (d.skipWhile q) := by
  induction hrest : c.rest generalizing c d with
  | nil =>
    have hd : d.rest = [] := List.forall₂_nil_left_iff.mp (hrest ▸ h.rest)
    rw [hd, Parse.skipWhile_stay (by rw [hrest]; rfl), Parse.skipWhile_stay (by rw [hd]; rfl)]
    exact ⟨.nil, h⟩
  | cons t ts ih =>
    obtain ⟨u, us, first, -, hd⟩ := List.forall₂_cons_left_iff.mp (hrest ▸ h.rest)
    rw [hd]
    by_cases ht : p t
    · have hu : q u := same t u first ▸ ht
      obtain ⟨taken, left⟩ := ih h.advance (by rw [Cursor.advance_rest hrest])
      rw [Cursor.advance_rest hd] at taken
      rw [Parse.skipWhile_step hrest ht, Parse.skipWhile_step hd hu, List.takeWhile_cons_of_pos ht,
        List.takeWhile_cons_of_pos hu]
      exact ⟨.cons first taken, left⟩
    · have hu : ¬q u := same t u first ▸ ht
      rw [Parse.skipWhile_stay (by rw [hrest, List.takeWhile_cons_of_neg ht]),
        Parse.skipWhile_stay (by rw [hd, List.takeWhile_cons_of_neg hu]), List.takeWhile_cons_of_neg ht,
        List.takeWhile_cons_of_neg hu]
      exact ⟨.nil, h⟩

theorem leftovers {ts us : List Token} (h : List.Forall₂ R.token ts us) (depth : Nat) :
    List.Forall₂ R.token (Cursor.leftovers depth ts) (Cursor.leftovers depth us) := by
  induction h generalizing depth with
  | nil => exact .nil
  | cons first _ ih =>
    simp only [Cursor.leftovers, R.is first]
    split
    · cases depth with
      | zero => exact .nil
      | succ depth => exact .cons first (ih depth)
    split
    · exact .cons first (ih (depth + 1))
    split
    · exact .nil
    · exact .cons first (ih depth)

theorem skipLeftovers (h : R.Cursors c d) : R.Cursors c.skipLeftovers d.skipLeftovers := by
  unfold Cursor.skipLeftovers
  have skipped := leftovers h.rest 0
  revert skipped
  generalize Cursor.leftovers 0 c.rest = ts
  generalize Cursor.leftovers 0 d.rest = us
  intro skipped
  induction skipped generalizing c d with
  | nil => exact h
  | @cons t u _ _ first _ ih =>
    exact ih (h.advance.report (R.message first .skippedInGroup (by simp)) (R.located first))

theorem closeGroup (h : R.Cursors c d) : R.Cursors c.closeGroup d.closeGroup := by
  unfold Cursor.closeGroup
  dsimp only
  rw [h.skipLeftovers.looksAt]
  split
  · exact h.skipLeftovers.advance
  · exact h.skipLeftovers

end Cursors
end Correspondence

namespace Parse

variable {α β : Type} {R : Correspondence}

theorem forall₂_toList {S : α → α → Prop} {a b : Option α} (h : Option.Rel S a b) :
    List.Forall₂ S a.toList b.toList := by
  cases h with
  | some related => exact .cons related .nil
  | none => exact .nil

/-- Run from cursors that correspond, the parsers give results in the relation `S` and
leave cursors that correspond. -/
def Tracks (R : Correspondence) (S : α → α → Prop) (p q : Parse α) : Prop :=
  ∀ c d, R.Cursors c d → S (p c).1 (q d).1 ∧ R.Cursors (p c).2 (q d).2

namespace Tracks

variable {S : α → α → Prop} {T : β → β → Prop} {p q : Parse α}

theorem pure {a b : α} (h : S a b) : Tracks R S (Pure.pure a) (Pure.pure b) :=
  fun _ _ cursors => ⟨h, cursors⟩

theorem bind {f g : α → Parse β} (h : Tracks R S p q) (next : ∀ a b, S a b → Tracks R T (f a) (g b)) :
    Tracks R T (p >>= f) (q >>= g) := by
  intro c d cursors
  obtain ⟨related, after⟩ := h c d cursors
  exact next _ _ related _ _ after

theorem map {f g : α → β} (h : Tracks R S p q) (imp : ∀ a b, S a b → T (f a) (g b)) :
    Tracks R T (f <$> p) (g <$> q) := by
  intro c d cursors
  obtain ⟨related, after⟩ := h c d cursors
  exact ⟨imp _ _ related, after⟩

/-- Both sides take the same turn. -/
theorem ite {P Q : Prop} [Decidable P] [Decidable Q] (same : P ↔ Q) {p' q' : Parse α} (h : Tracks R S p q)
    (h' : Tracks R S p' q') : Tracks R S (if P then p else p') (if Q then q else q') := by
  by_cases hP : P
  · rw [if_pos hP, if_pos (same.mp hP)]
    exact h
  · rw [if_neg hP, if_neg fun hQ => hP (same.mpr hQ)]
    exact h'

theorem get : Tracks R R.Cursors get get :=
  fun _ _ cursors => ⟨cursors, cursors⟩

theorem peek : Tracks R (Option.Rel R.token) Parse.peek Parse.peek := by
  intro c d cursors
  refine ⟨?_, cursors⟩
  show Option.Rel R.token c.rest.head? d.rest.head?
  rcases cursors.ahead with ⟨hc, hd⟩ | ⟨t, ts, u, us, hc, hd, first, -⟩
  · rw [hc, hd]
    exact .none
  · rw [hc, hd]
    exact .some first

theorem here : Tracks R R.place Parse.here Parse.here :=
  fun _ _ cursors => ⟨cursors.here, cursors⟩

theorem advance : Tracks R Eq Parse.advance Parse.advance :=
  fun _ _ cursors => ⟨rfl, cursors.advance⟩

theorem report {problem problem' : SyntaxProblem} {l m : Location}
    (same : problem.message = problem'.message) (at_ : R.place l m) :
    Tracks R Eq (Parse.report problem l) (Parse.report problem' m) :=
  fun _ _ cursors => ⟨rfl, cursors.report same at_⟩

theorem looksAt (kind : Token.Kind) (text : String) :
    Tracks R Eq (Parse.looksAt kind text) (Parse.looksAt kind text) :=
  fun _ _ cursors => ⟨cursors.looksAt kind text, cursors⟩

theorem accept (kind : Token.Kind) (text : String) :
    Tracks R Eq (Parse.accept kind text) (Parse.accept kind text) := by
  intro c d cursors
  unfold Parse.accept
  rw [← cursors.looksAt]
  split
  · exact ⟨rfl, cursors.advance⟩
  · exact ⟨rfl, cursors⟩

theorem acceptKind (kind : Token.Kind) :
    Tracks R (Option.Rel fun t u => R.token t u ∧ t.kind = kind) (Parse.acceptKind kind) (Parse.acceptKind kind) := by
  intro c d cursors
  unfold Parse.acceptKind
  rcases cursors.ahead with ⟨hc, hd⟩ | ⟨t, ts, u, us, hc, hd, first, -⟩
  · rw [hc, hd]
    exact ⟨.none, cursors⟩
  · rw [hc, hd]
    dsimp only
    rw [← R.kind first]
    split
    · next hk => exact ⟨.some ⟨first, hk⟩, cursors.advance⟩
    · exact ⟨.none, cursors⟩

theorem takeWhile {p q : Token → Bool} (same : ∀ t u, R.token t u → p t = q u) :
    Tracks R (List.Forall₂ R.token) (Parse.takeWhile p) (Parse.takeWhile q) :=
  fun _ _ cursors => cursors.skipWhile same

theorem closeGroup : Tracks R Eq Parse.closeGroup Parse.closeGroup :=
  fun _ _ cursors => ⟨rfl, cursors.closeGroup⟩

theorem nested (h : Tracks R S p q) : Tracks R S (Parse.nested p) (Parse.nested q) := by
  intro c d ⟨rest, last, finish, log⟩
  obtain ⟨related, rest', last', finish', log'⟩ :=
    h { c with depth := c.depth + 1 } { d with depth := d.depth + 1 } ⟨rest, last, finish, log⟩
  exact ⟨related, rest', last', finish', log'⟩

/-- A loop, round by round: the tokens ahead are as many on both sides, so both stop together. -/
theorem collectUntil {stop : Token → Bool} (same : ∀ t u, R.token t u → stop t = stop u)
    {item : Parse (Option α)} (h : Tracks R (Option.Rel S) item item) :
    Tracks R (List.Forall₂ S) (Parse.collectUntil stop item) (Parse.collectUntil stop item) := by
  intro c d cursors
  show List.Forall₂ S (collectUntil.go stop item c).1 (collectUntil.go stop item d).1 ∧
    R.Cursors (collectUntil.go stop item c).2 (collectUntil.go stop item d).2
  induction hn : c.rest.length using Nat.strongRecOn generalizing c d with
  | ind n ih =>
    obtain ⟨found, after⟩ := h c d cursors
    have first := forall₂_toList found
    have shrinks : (item c).2.rest.length < c.rest.length ↔ (item d).2.rest.length < d.rest.length := by
      rw [cursors.length, after.length]
    rw [collectUntil.go.eq_def stop item c, collectUntil.go.eq_def stop item d]
    rcases cursors.ahead with ⟨hc, hd⟩ | ⟨t, ts, u, us, hc, hd, token, -⟩
    · rw [hc, hd]
      exact ⟨.nil, cursors⟩
    · rw [hc, hd] at shrinks ⊢
      dsimp only
      rw [← same t u token]
      split
      · exact ⟨.nil, cursors⟩
      by_cases shorter : (item c).2.rest.length < (t :: ts).length
      · rw [if_pos shorter, if_pos (shrinks.mp shorter)]
        obtain ⟨more, finally_⟩ := ih _ (by rw [← hn, hc]; exact shorter) _ _ after rfl
        exact ⟨List.rel_append first more, finally_⟩
      · rw [if_neg shorter, if_neg fun h => shorter (shrinks.mpr h)]
        exact ⟨first, after⟩

end Tracks

/-- The same where the first cursor stands before `t`. -/
def TracksAt (R : Correspondence) (t : Token) (S : α → α → Prop) (p q : Parse α) : Prop :=
  ∀ c d, R.Cursors c d → c.rest.head? = some t → S (p c).1 (q d).1 ∧ R.Cursors (p c).2 (q d).2

namespace TracksAt

variable {S : α → α → Prop} {T : β → β → Prop} {p q : Parse α} {t : Token}

theorem of (h : Tracks R S p q) : TracksAt R t S p q :=
  fun c d cursors _ => h c d cursors

theorem bind {f g : α → Parse β} (h : TracksAt R t S p q) (next : ∀ a b, S a b → Tracks R T (f a) (g b)) :
    TracksAt R t T (p >>= f) (q >>= g) := by
  intro c d cursors stands
  obtain ⟨related, after⟩ := h c d cursors stands
  exact next _ _ related _ _ after

theorem ite {P : Prop} [Decidable P] {p' q' : Parse α} (h : P → TracksAt R t S p q)
    (h' : TracksAt R t S p' q') : TracksAt R t S (if P then p else p') (if P then q else q') := by
  by_cases hP : P
  · rw [if_pos hP, if_pos hP]
    exact h hP
  · rw [if_neg hP, if_neg hP]
    exact h'

theorem nested (h : TracksAt R t S p q) : TracksAt R t S (Parse.nested p) (Parse.nested q) := by
  intro c d ⟨rest, last, finish, log⟩ stands
  obtain ⟨related, rest', last', finish', log'⟩ :=
    h { c with depth := c.depth + 1 } { d with depth := d.depth + 1 } ⟨rest, last, finish, log⟩ stands
  exact ⟨related, rest', last', finish', log'⟩

/-- What is read after a look ahead may count on the token that was seen. -/
theorem peek {f g : Option Token → Parse α} (none : Tracks R S (f none) (g none))
    (some : ∀ t u, R.token t u → TracksAt R t S (f (some t)) (g (some u))) :
    Tracks R S (Parse.peek >>= f) (Parse.peek >>= g) := by
  intro c d cursors
  show S (f c.rest.head? c).1 (g d.rest.head? d).1 ∧ R.Cursors (f c.rest.head? c).2 (g d.rest.head? d).2
  rcases cursors.ahead with ⟨hc, hd⟩ | ⟨t, ts, u, us, hc, hd, first, -⟩
  · rw [hc, hd]
    exact none c d cursors
  · have stands : c.rest.head? = Option.some t := by rw [hc]; rfl
    rw [stands, hd]
    exact some t u first c d cursors stands

end TracksAt

/-! ### Expressions -/

section

variable {p e : Parse (Option Node)}

theorem tooDeep_tracks {S : Node → Node → Prop} : Tracks R (Option.Rel S) tooDeep tooDeep := by
  refine .bind .peek fun t u first => ?_
  cases first with
  | none => exact .pure .none
  | some first =>
    refine .bind .advance fun _ _ _ => .bind (.report ?_ (R.located first)) fun _ _ _ => .pure .none
    exact R.message first .tooDeep (by simp)

theorem operatorOf_tracks {t u : Token} (h : R.token t u) (level : Nat) :
    operatorOf level t = operatorOf level u := by
  rw [operatorOf, operatorOf, R.kind h, R.spelling h]

theorem chain_tracks (level : Nat) (h : Tracks R (Option.Rel R.expr) p p) {a b : Node}
    (left : R.expr a b) : Tracks R R.expr (chain level p a) (chain level p b) := by
  intro c d cursors
  show R.expr (chain.go level p a c).1 (chain.go level p b d).1 ∧
    R.Cursors (chain.go level p a c).2 (chain.go level p b d).2
  induction hn : c.rest.length using Nat.strongRecOn generalizing c d a b with
  | ind n ih =>
    obtain ⟨found, after⟩ := h c.advance d.advance cursors.advance
    have shrinks : (p c.advance).2.rest.length < c.rest.length ↔
        (p d.advance).2.rest.length < d.rest.length := by
      rw [cursors.length, after.length]
    rw [chain.go.eq_def level p a c, chain.go.eq_def level p b d]
    rcases cursors.ahead with ⟨hc, hd⟩ | ⟨t, ts, u, us, hc, hd, token, -⟩
    · rw [hc, hd]
      exact ⟨left, cursors⟩
    rw [hc, hd] at shrinks ⊢
    dsimp only
    rw [← operatorOf_tracks token]
    cases operatorOf level t with
    | none => exact ⟨left, cursors⟩
    | some o =>
      dsimp only
      revert found
      generalize (p c.advance).1 = right, (p d.advance).1 = right'
      rintro (related | _)
      · next x y =>
        have whole := R.binary o left related (R.located token)
        dsimp only
        by_cases shorter : (p c.advance).2.rest.length < (t :: ts).length
        · rw [if_pos shorter, if_pos (shrinks.mp shorter)]
          exact ih _ (by rw [← hn, hc]; exact shorter) whole _ _ after rfl
        · rw [if_neg shorter, if_neg fun h => shorter (shrinks.mpr h)]
          exact ⟨whole, after⟩
      · exact ⟨left, after.report rfl (R.located token)⟩

theorem tier_tracks (h : Tracks R (Option.Rel R.expr) p p) :
    ∀ k, Tracks R (Option.Rel R.expr) (tier p k) (tier p k)
  | 0 => h
  | k + 1 => by
    refine .bind (tier_tracks h k) fun a b left => ?_
    cases left with
    | none => exact .pure .none
    | some left => exact .bind (chain_tracks (6 - k) (tier_tracks h k) left) fun _ _ whole => .pure (.some whole)

section

variable (he : Tracks R (Option.Rel R.expr) e e)

include he

theorem argumentsOver_tracks :
    Tracks R (List.Forall₂ R.expr) (argumentsOver e) (argumentsOver e) := by
  intro c d cursors
  show List.Forall₂ R.expr (argumentsOver.go e c).1 (argumentsOver.go e d).1 ∧
    R.Cursors (argumentsOver.go e c).2 (argumentsOver.go e d).2
  induction hn : c.rest.length using Nat.strongRecOn generalizing c d with
  | ind n ih =>
    obtain ⟨found, after⟩ := he c d cursors
    have shrinks : (e c).2.advance.rest.length < c.rest.length ↔
        (e d).2.advance.rest.length < d.rest.length := by
      rw [cursors.length, after.advance.length]
    rw [argumentsOver.go.eq_def e c, argumentsOver.go.eq_def e d]
    dsimp only
    rw [← after.looksAt]
    revert found
    generalize (e c).1 = arg, (e d).1 = arg'
    rintro (related | _)
    · dsimp only
      by_cases comma : (e c).2.looksAt .delimiter ","
      · rw [if_pos comma, if_pos comma]
        by_cases shorter : (e c).2.advance.rest.length < c.rest.length
        · rw [if_pos shorter, if_pos (shrinks.mp shorter)]
          obtain ⟨more, finally_⟩ := ih _ (hn ▸ shorter) _ _ after.advance rfl
          exact ⟨.cons related more, finally_⟩
        · rw [if_neg shorter, if_neg fun h => shorter (shrinks.mpr h)]
          exact ⟨.cons related .nil, after.advance⟩
      · rw [if_neg comma, if_neg comma]
        exact ⟨.cons related .nil, after⟩
    · exact ⟨.nil, after⟩

theorem argumentList_tracks :
    Tracks R (List.Forall₂ R.expr) (argumentList e) (argumentList e) := by
  refine .bind (.accept _ _) fun _ _ _ => .bind (.looksAt _ _) fun closes _ same => ?_
  subst same
  refine .ite .rfl ?_ ?_
  · exact .bind (.pure .nil) fun _ _ args => .bind .closeGroup fun _ _ _ => .pure args
  · exact .bind (argumentsOver_tracks he) fun _ _ args => .bind .closeGroup fun _ _ _ => .pure args

theorem primary_tracks : Tracks R (Option.Rel R.expr) (primary e) (primary e) := by
  refine .bind .peek fun t u first => ?_
  cases first with
  | none => exact .pure .none
  | @some t u first =>
    have place := R.located first
    have word := R.spelled first
    have group : Tracks R (Option.Rel R.expr)
        (do advance; let inner ← e; closeGroup; return inner)
        (do advance; let inner ← e; closeGroup; return inner) :=
      .bind .advance fun _ _ _ => .bind he fun _ _ inner => .bind .closeGroup fun _ _ _ => .pure inner
    dsimp only
    rw [← R.spelling first, ← R.kind first, ← R.is first]
    cases hk : t.kind with
    | number =>
      rw [hk] at word
      exact .bind .advance fun _ _ _ => .pure (.some (R.number word place))
    | string =>
      rw [hk] at word
      exact .bind .advance fun _ _ _ => .pure (.some (R.string word place))
    | identifier =>
      rw [hk] at word
      refine .bind .advance fun _ _ _ => .bind (.looksAt _ _) fun opens _ same => ?_
      subst same
      refine .ite .rfl ?_ (.pure (.some (R.name word place)))
      exact .bind (argumentList_tracks he) fun _ _ args => .pure (.some (R.call word args place))
    | delimiter => exact .ite .rfl group (.pure .none)
    | keyword | operator | newline | endOfInput => exact .pure .none

end

theorem prefixed_tracks (h : Tracks R (Option.Rel R.expr) p p) :
    Tracks R (Option.Rel R.expr) (prefixed p) (prefixed p) := by
  refine .bind .peek fun t u first => ?_
  cases first with
  | none => exact .pure .none
  | @some t u first =>
    have primary := primary_tracks (tier_tracks h 6)
    dsimp only
    rw [← R.spelling first, ← R.kind first]
    refine .ite .rfl ?_ primary
    cases UnaryOp.ofSymbol? t.spelling with
    | none => exact .pure .none
    | some o =>
      refine .bind .advance fun _ _ _ => .ite .rfl (.bind primary fun _ _ inner => ?_) (.bind h fun _ _ inner => ?_)
      all_goals
        cases inner with
        | none => exact .bind (.report rfl (R.located first)) fun _ _ _ => .pure .none
        | some inner => exact .pure (.some (R.unary o inner (R.located first)))

end

theorem operand_tracks : ∀ levels, Tracks R (Option.Rel R.expr) (operand levels) (operand levels)
  | 0 => tooDeep_tracks
  | levels + 1 => .nested (prefixed_tracks (operand_tracks levels))

theorem expression_tracks (levels : Nat) :
    Tracks R (Option.Rel R.expr) (expression levels) (expression levels) :=
  tier_tracks (operand_tracks levels) 6

/-! ### Declarations -/

theorem spellings {ts us : List Token} (h : List.Forall₂ R.token ts us) :
    ts.map Token.spelling = us.map Token.spelling := by
  induction h with
  | nil => rfl
  | cons first _ ih => rw [List.map_cons, List.map_cons, R.spelling first, ih]

section

variable {hash hash' : Token} (first : R.token hash hash') (directive : hash.is .delimiter "#")

include first directive

theorem skipLine_tracks : Tracks R Eq (skipLine hash.location.line) (skipLine hash'.location.line) := by
  refine .bind (.takeWhile fun t u token => ?_) fun _ _ _ => .pure rfl
  rw [R.line first directive token, R.line first directive first]

theorem library_tracks : Tracks R Eq (library hash.location.line) (library hash'.location.line) := by
  refine .bind (.acceptKind _) fun _ _ quoted => ?_
  cases quoted with
  | some quoted => exact .pure (R.spelling quoted.1)
  | none =>
    refine .bind (.accept _ _) fun opens _ same => ?_
    subst same
    refine .ite .rfl ?_ ?_
    · refine .bind (.takeWhile fun t u token => ?_) fun _ _ taken => .bind (.accept _ _) fun _ _ _ => .pure ?_
      · rw [R.line first directive token, R.line first directive first, R.is token]
      · rw [spellings taken]
    · refine .bind .here fun _ _ here => .bind (.report rfl here) fun _ _ _ => ?_
      exact .bind (skipLine_tracks first directive) fun _ _ _ => .pure rfl

theorem directive_tracks : Tracks R (Option.Rel R.stmt) (Parse.directive hash) (Parse.directive hash') := by
  refine .bind .advance fun _ _ _ => .bind (.accept _ _) fun includes _ same => ?_
  subst same
  refine .ite .rfl ?_ ?_
  · refine .bind (library_tracks first directive) fun name _ same => .pure ?_
    subst same
    exact .some (R.inclusion name (R.located first))
  · refine .bind (.report rfl (R.located first)) fun _ _ _ => ?_
    exact .bind (skipLine_tracks first directive) fun _ _ _ => .pure .none

end

theorem typeName_tracks : Tracks R Eq typeName typeName := by
  refine .bind (.takeWhile fun _ _ token => R.isType token) fun _ _ words => .pure ?_
  rw [spellings words]

/-- A parameter is the same on both sides, and its name is that of a token. -/
def SameParam (R : Correspondence) (a b : Param) : Prop := a = b ∧ R.word .identifier a.name

theorem parameter_tracks : Tracks R (Option.Rel (SameParam R)) parameter parameter := by
  refine .bind .peek fun t u first => ?_
  cases first with
  | none => exact .pure .none
  | @some t u first =>
    dsimp only
    rw [← R.is first, ← R.isType first]
    refine .ite .rfl (.bind .advance fun _ _ _ => .pure .none) (.ite .rfl ?_ ?_)
    · refine .bind typeName_tracks fun type _ same => ?_
      subst same
      refine .bind (.acceptKind _) fun _ _ name => ?_
      cases name with
      | some name =>
        obtain ⟨token, identifier⟩ := name
        have word := R.spelled token
        rw [identifier] at word
        exact .pure (.some ⟨by rw [R.spelling token], word⟩)
      | none =>
        refine .bind (.looksAt _ _) fun closes _ same => ?_
        subst same
        exact .ite .rfl (.pure .none) (.bind (.report rfl (R.located first)) fun _ _ _ => .pure .none)
    · refine .bind .advance fun _ _ _ => .bind (.report ?_ (R.located first)) fun _ _ _ => .pure .none
      exact R.message first .skippedParameter (by simp)

theorem sameParams {ps qs : List Param} (h : List.Forall₂ (SameParam R) ps qs) :
    ps = qs ∧ ∀ p ∈ ps, R.word .identifier p.name := by
  induction h with
  | nil => exact ⟨rfl, by simp⟩
  | cons first _ ih =>
    obtain ⟨rfl, word⟩ := first
    exact ⟨by rw [ih.1], List.forall_mem_cons.mpr ⟨word, ih.2⟩⟩

theorem parameters_tracks :
    Tracks R (fun ps qs => ps = qs ∧ ∀ p ∈ ps, R.word .identifier p.name) parameters parameters := by
  have ends (t u : Token) (token : R.token t u) : endsParameters t = endsParameters u := by
    rw [endsParameters, endsParameters, R.is token, R.is token, R.is token]
  refine .bind (.accept _ _) fun _ _ _ => .bind (.collectUntil ends parameter_tracks) fun _ _ params => ?_
  exact .bind (.accept _ _) fun _ _ _ => .pure (sameParams params)

section

variable {e s : Parse (Option Node)}

theorem blockBody_tracks (hs : Tracks R (Option.Rel R.stmt) s s) :
    Tracks R (List.Forall₂ R.stmt) (blockBody s) (blockBody s) := by
  refine .bind (.accept _ _) fun _ _ _ => .bind (.collectUntil (fun _ _ token => R.is token _ _) hs) fun _ _ body => ?_
  exact .bind (.accept _ _) fun _ _ _ => .pure body

/-- An identifier on both sides. -/
def SameName (R : Correspondence) (t u : Token) : Prop := R.token t u ∧ t.kind = .identifier

theorem SameName.word {t u : Token} (h : SameName R t u) : R.word .identifier t.spelling := by
  have word := R.spelled h.1
  rwa [h.2] at word

theorem functionRest_tracks (hs : Tracks R (Option.Rel R.stmt) s s) (type : String) {t u : Token}
    (name : SameName R t u) : Tracks R R.stmt (functionRest s type t) (functionRest s type u) := by
  have place := R.located name.1
  have word := name.word
  refine .bind parameters_tracks fun params _ ⟨same, words⟩ => .bind (.looksAt _ _) fun opens _ same' => ?_
  subst same same'
  rw [← R.spelling name.1]
  refine .ite .rfl ?_ ?_
  · exact .bind (blockBody_tracks hs) fun _ _ body => .pure (R.function word words body place)
  · exact .bind (.accept _ _) fun _ _ _ => .pure (R.function word words .nil place)

theorem initializer_tracks (he : Tracks R (Option.Rel R.expr) e e) {t u : Token} (name : R.token t u) :
    Tracks R (Option.Rel R.expr) (initializer e t) (initializer e u) := by
  refine .bind (.accept _ _) fun equals _ same => ?_
  subst same
  refine .ite .rfl (.bind he fun _ _ value => ?_) (.pure .none)
  cases value with
  | some value => exact .pure (.some value)
  | none =>
    rw [R.spelling name]
    exact .bind (.report rfl (R.located name)) fun _ _ _ => .pure .none

theorem skipDeclarators_tracks {t u : Token} (name : R.token t u) :
    Tracks R Eq (skipDeclarators t) (skipDeclarators u) := by
  refine .bind (.looksAt _ _) fun more _ same => ?_
  subst same
  rw [R.spelling name]
  refine .ite .rfl (.bind .here fun _ _ here => .bind (.report rfl here) fun _ _ _ => ?_) (.pure rfl)
  refine .bind (.takeWhile fun t u token => ?_) fun _ _ _ => .pure rfl
  rw [R.is token, R.is token]

theorem variableRest_tracks (he : Tracks R (Option.Rel R.expr) e e) (type : String) {t u : Token}
    (name : SameName R t u) : Tracks R R.stmt (variableRest e type t) (variableRest e type u) := by
  refine .bind (initializer_tracks he name.1) fun _ _ init => .bind (skipDeclarators_tracks name.1) fun _ _ _ => ?_
  rw [← R.spelling name.1]
  exact .bind (.accept _ _) fun _ _ _ => .pure (R.declare type name.word init (R.located name.1))

theorem declaration_tracks (hs : Tracks R (Option.Rel R.stmt) s s) (he : Tracks R (Option.Rel R.expr) e e) :
    Tracks R (Option.Rel R.stmt) (declaration s e) (declaration s e) := by
  refine .bind .here fun _ _ start => .bind typeName_tracks fun type _ same => ?_
  subst same
  refine .bind (.acceptKind _) fun _ _ name => ?_
  cases name with
  | none => exact .bind (.report rfl start) fun _ _ _ => .pure .none
  | some name =>
    refine .bind (.looksAt _ _) fun opens _ same => ?_
    subst same
    refine .ite .rfl ?_ ?_
    · exact .bind (functionRest_tracks hs type name) fun _ _ function => .pure (.some function)
    · exact .bind (variableRest_tracks he type name) fun _ _ variable_ => .pure (.some variable_)

/-! ### Statements -/

theorem skip_tracks {t u : Token} (h : R.token t u) : Tracks R Eq (skip t) (skip u) := by
  refine .bind .advance fun _ _ _ => ?_
  rw [← R.is h]
  exact .ite .rfl (.pure rfl) (.report (R.message h .skipped (by simp)) (R.located h))

theorem body_tracks (hs : Tracks R (Option.Rel R.stmt) s s) : Tracks R R.stmt (body s) (body s) := by
  refine .bind .here fun _ _ start => .bind hs fun _ _ found => .pure ?_
  cases found with
  | none => exact R.block .nil start
  | some found => exact found

theorem condition_tracks (he : Tracks R (Option.Rel R.expr) e e) :
    Tracks R (Option.Rel R.expr) (condition e) (condition e) :=
  .bind (.accept _ _) fun _ _ _ => .bind he fun _ _ found => .bind .closeGroup fun _ _ _ => .pure found

theorem branchStatement_tracks (hs : Tracks R (Option.Rel R.stmt) s s) (he : Tracks R (Option.Rel R.expr) e e)
    {l m : Location} (start : R.place l m) :
    Tracks R (Option.Rel R.stmt) (branchStatement s e l) (branchStatement s e m) := by
  refine .bind .advance fun _ _ _ => .bind (condition_tracks he) fun _ _ test => ?_
  refine .bind (body_tracks hs) fun _ _ onTrue => .bind (.accept _ _) fun otherwise _ same => ?_
  subst same
  refine .ite .rfl (.bind (.map (T := Option.Rel R.stmt) (body_tracks hs) fun _ _ => .some) fun _ _ onFalse => ?_)
    (.bind (.pure (S := Option.Rel R.stmt) .none) fun _ _ onFalse => ?_)
  all_goals
    cases test with
    | some test => exact .pure (.some (R.branch test onTrue onFalse start))
    | none => exact .bind (.report rfl start) fun _ _ _ => .pure .none

theorem whileStatement_tracks (hs : Tracks R (Option.Rel R.stmt) s s) (he : Tracks R (Option.Rel R.expr) e e)
    {l m : Location} (start : R.place l m) :
    Tracks R (Option.Rel R.stmt) (whileStatement s e l) (whileStatement s e m) := by
  refine .bind .advance fun _ _ _ => .bind (condition_tracks he) fun _ _ test => ?_
  refine .bind (body_tracks hs) fun _ _ repeated => ?_
  cases test with
  | some test => exact .pure (.some (R.whileLoop test repeated start))
  | none => exact .bind (.report rfl start) fun _ _ _ => .pure .none

theorem nameStatement_tracks (he : Tracks R (Option.Rel R.expr) e e) {t : Token} (identifier : t.kind = .identifier) :
    TracksAt R t (Option.Rel R.stmt) (nameStatement e) (nameStatement e) := by
  have plain : Tracks R (Option.Rel R.stmt) (nameStatement.plain e) (nameStatement.plain e) := by
    refine .bind he fun _ _ value => .bind (.accept _ _) fun _ _ _ => .pure ?_
    cases value with
    | none => exact .none
    | some value => exact .some (R.expression value)
  intro c d cursors stands
  rcases cursors.ahead with ⟨hc, -⟩ | ⟨t', ts, u, us, hc, hd, first, more⟩
  · rw [hc] at stands
    cases stands
  obtain rfl : t' = t := by rwa [hc, List.head?_cons, Option.some.injEq] at stands
  have place := R.located first
  have word : R.word .identifier t'.spelling := SameName.word ⟨first, identifier⟩
  have hc' : ((get : Parse Cursor) c).1.rest = t' :: ts := hc
  have hd' : ((get : Parse Cursor) d).1.rest = u :: us := hd
  unfold nameStatement
  rw [bind_apply, bind_apply, hc', hd']
  cases more with
  | nil => exact plain c d cursors
  | @cons o o' _ _ operator _ =>
    dsimp only
    rw [← R.kind operator, ← R.spelling operator, ← R.spelling first]
    cases hop : if o.kind = .operator then AssignOp.ofSymbol? o.spelling else none with
    | none => exact plain c d cursors
    | some op =>
      refine Tracks.bind .advance (fun _ _ _ => .bind .advance fun _ _ _ => ?_) c d cursors
      refine .ite .rfl ?_ (.bind he fun _ _ value => ?_)
      · exact .bind (.accept _ _) fun _ _ _ => .pure (.some (R.assign op word .none place))
      cases value with
      | some value => exact .bind (.accept _ _) fun _ _ _ => .pure (.some (R.assign op word (.some value) place))
      | none => exact .bind (.report rfl place) fun _ _ _ => .bind (.accept _ _) fun _ _ _ => .pure .none

theorem forInit_tracks (hs : Tracks R (Option.Rel R.stmt) s s) (he : Tracks R (Option.Rel R.expr) e e) :
    Tracks R (Option.Rel R.stmt) (forInit s e) (forInit s e) := by
  have clause : Tracks R (Option.Rel R.stmt) (forInit.clause s e) (forInit.clause s e) := by
    refine TracksAt.peek (.bind .here fun _ _ here => .bind (.report rfl here) fun _ _ _ => .pure .none) fun t u first => ?_
    dsimp only
    rw [← R.isType first, ← R.kind first]
    refine .ite (fun _ => .of (declaration_tracks hs he)) (.ite (nameStatement_tracks he) (.of ?_))
    exact .bind (.report rfl (R.located first)) fun _ _ _ => .pure .none
  refine .bind (.accept _ _) fun none? _ same => ?_
  subst same
  refine .ite .rfl (.pure .none) (.bind clause fun _ _ init => .bind .get fun c d cursors => ?_)
  have last := cursors.last
  revert last
  generalize c.last = t, d.last = u
  rintro (last | _)
  · dsimp only
    rw [← R.is last]
    exact .ite .rfl (.pure init) (.bind (.accept _ _) fun _ _ _ => .pure init)
  · exact .pure init

theorem forCondition_tracks (he : Tracks R (Option.Rel R.expr) e e) :
    Tracks R (Option.Rel R.expr) (forCondition e) (forCondition e) := by
  refine .bind (.looksAt _ _) fun none? _ same => ?_
  subst same
  refine .ite .rfl (.bind (.pure (S := Option.Rel R.expr) .none) fun _ _ test => ?_) (.bind he fun _ _ test => ?_)
  all_goals exact .bind (.accept _ _) fun _ _ _ => .pure test

theorem forUpdate_tracks (he : Tracks R (Option.Rel R.expr) e e) :
    Tracks R (Option.Rel R.stmt) (forUpdate e) (forUpdate e) := by
  have close (a b : Option Node) (update : Option.Rel R.stmt a b) :
      Tracks R (Option.Rel R.stmt) (do closeGroup; return a) (do closeGroup; return b) :=
    .bind .closeGroup fun _ _ _ => .pure update
  have plain (a b : Option Node) (update : Option.Rel R.expr a b) :
      Tracks R (Option.Rel R.stmt) (do closeGroup; return a) (do closeGroup; return b) := by
    refine close a b ?_
    cases update with
    | none => exact .none
    | some update => exact .some (R.expression update)
  refine .bind (.looksAt _ _) fun none? _ same => ?_
  subst same
  refine .ite .rfl (.bind (.pure .none) close) (TracksAt.peek (.bind he plain) fun t u first => ?_)
  dsimp only
  rw [← R.kind first]
  exact .ite (fun identifier => .bind (nameStatement_tracks he identifier) close) (.of (.bind he plain))

theorem forStatement_tracks (hs : Tracks R (Option.Rel R.stmt) s s) (he : Tracks R (Option.Rel R.expr) e e)
    {l m : Location} (start : R.place l m) : Tracks R R.stmt (forStatement s e l) (forStatement s e m) := by
  refine .bind .advance fun _ _ _ => .bind (.accept _ _) fun _ _ _ => ?_
  refine .bind (forInit_tracks hs he) fun _ _ init => .bind (forCondition_tracks he) fun _ _ test => ?_
  refine .bind (forUpdate_tracks he) fun _ _ update => .bind (body_tracks hs) fun _ _ repeated => ?_
  exact .pure (R.forLoop init test update repeated start)

theorem returnStatement_tracks (he : Tracks R (Option.Rel R.expr) e e) {l m : Location} (start : R.place l m) :
    Tracks R R.stmt (returnStatement e l) (returnStatement e m) := by
  have close (a b : Option Node) (value : Option.Rel R.expr a b) : Tracks R R.stmt
      (do let _ ← acceptDelimiter ";"; return .ret a l) (do let _ ← acceptDelimiter ";"; return .ret b m) :=
    .bind (.accept _ _) fun _ _ _ => .pure (R.ret value start)
  refine .bind .advance fun _ _ _ => .bind .peek fun _ _ next => ?_
  cases next with
  | none => exact .bind (.pure .none) close
  | some next =>
    dsimp only
    rw [← R.is next, ← R.is next]
    exact .ite .rfl (.bind (.pure .none) close) (.bind he close)

theorem ioArguments_tracks (he : Tracks R (Option.Rel R.expr) e e) :
    Tracks R (List.Forall₂ R.expr) (ioArguments e) (ioArguments e) :=
  .bind .advance fun _ _ _ => .bind (argumentList_tracks he) fun _ _ args => .bind (.accept _ _) fun _ _ _ => .pure args

theorem keywordStatement_tracks (hs : Tracks R (Option.Rel R.stmt) s s) (he : Tracks R (Option.Rel R.expr) e e)
    {t u : Token} (h : R.token t u) :
    Tracks R (Option.Rel R.stmt) (keywordStatement s e t) (keywordStatement s e u) := by
  have place := R.located h
  unfold keywordStatement
  rw [← R.isType h, ← R.spelling h]
  refine .ite .rfl (declaration_tracks hs he) (.ite .rfl (branchStatement_tracks hs he place) ?_)
  refine .ite .rfl (whileStatement_tracks hs he place) (.ite .rfl (.map (forStatement_tracks hs he place) fun _ _ => .some) ?_)
  refine .ite .rfl (.map (returnStatement_tracks he place) fun _ _ => .some) (.ite .rfl ?_ (.ite .rfl ?_ ?_))
  · exact .bind (ioArguments_tracks he) fun _ _ args => .pure (.some (R.printf args place))
  · exact .bind (ioArguments_tracks he) fun _ _ args => .pure (.some (R.scanf args place))
  · exact .bind (skip_tracks h) fun _ _ _ => .pure .none

theorem statementFrom_tracks (hs : Tracks R (Option.Rel R.stmt) s s) (he : Tracks R (Option.Rel R.expr) e e)
    {t u : Token} (h : R.token t u) :
    TracksAt R t (Option.Rel R.stmt) (statementFrom s e t) (statementFrom s e u) := by
  have skipped : Tracks R (Option.Rel R.stmt) (do skip t; return none) (do skip u; return none) :=
    .bind (skip_tracks h) fun _ _ _ => .pure .none
  unfold statementFrom
  rw [← R.kind h, ← R.is h, ← R.is h]
  cases hk : t.kind with
  | delimiter =>
    refine .ite (fun hash => .of (directive_tracks h hash)) (.of (.ite .rfl ?_ skipped))
    exact .bind (blockBody_tracks hs) fun _ _ body => .pure (.some (R.block body (R.located h)))
  | keyword => exact .of (keywordStatement_tracks hs he h)
  | identifier => exact nameStatement_tracks he hk
  | operator | number | string | newline | endOfInput => exact .of skipped

end

theorem statement_tracks : ∀ levels, Tracks R (Option.Rel R.stmt) (statement levels) (statement levels)
  | 0 => tooDeep_tracks
  | levels + 1 => TracksAt.peek (.pure .none) fun _ _ first =>
    .nested (statementFrom_tracks (statement_tracks levels) (expression_tracks levels) first)

/-- Two programs whose statements correspond. -/
def SameProgram (R : Correspondence) (a b : Node) : Prop :=
  ∃ as bs, a = .program as ∧ b = .program bs ∧ List.Forall₂ R.stmt as bs

/-- From cursors that correspond, the parser reads programs that correspond. -/
theorem program_tracks : Tracks R (SameProgram R) program program :=
  .bind (.collectUntil (fun _ _ _ => rfl) (statement_tracks maxNesting)) fun _ _ body =>
    .pure ⟨_, _, rfl, rfl, body⟩

/-- **Token lists that correspond lead to trees and reports that correspond.** -/
theorem ofTokens_tracks {ts us : List Token} {earlier earlier' : List Diagnostic}
    (content : List.Forall₂ R.token (ts.filter (·.kind ≠ .newline)) (us.filter (·.kind ≠ .newline)))
    (finish : R.place (Cursor.ofTokens ts earlier).finish (Cursor.ofTokens us earlier').finish)
    (log : R.log earlier.reverse earlier'.reverse) :
    SameProgram R (Parsing.ofCursor (.ofTokens ts earlier)).tree (Parsing.ofCursor (.ofTokens us earlier')).tree ∧
      R.log (Parsing.ofCursor (.ofTokens ts earlier)).diagnostics.reverse
        (Parsing.ofCursor (.ofTokens us earlier')).diagnostics.reverse := by
  have whole : R.Cursors
      { Cursor.ofTokens ts earlier with rest := ts.filter (·.kind ≠ .newline) }
      { Cursor.ofTokens us earlier' with rest := us.filter (·.kind ≠ .newline) } := ⟨content, .none, finish, log⟩
  have ahead := (whole.skipWhile fun t u token => show decide (t.kind ≠ .endOfInput) = decide (u.kind ≠ .endOfInput) by
    rw [R.kind token]).1
  obtain ⟨trees, after⟩ := program_tracks (.ofTokens ts earlier) (.ofTokens us earlier') ⟨ahead, .none, finish, log⟩
  refine ⟨trees, ?_⟩
  show R.log (program _).2.log.reverse.reverse (program _).2.log.reverse.reverse
  rw [List.reverse_reverse, List.reverse_reverse]
  exact after.log

end Parse
end MiniC
