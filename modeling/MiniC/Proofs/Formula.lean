/-
# The expression grammar of the indented language

The language has its own precedence: from the tightest to the loosest an atom, the
minus, the two tiers of arithmetic, the comparisons, `not`, `and` and `or`
(`Formula.Tier`). Arithmetic and the connectives group from the left. All
comparisons share one tier, and several of them in a row are a chain, which stands
for no operation of two operands (`Formula.compared`). Words are those of the
lexer, so `and`, `or` and `not` are names that are reserved.

The grammar is unambiguous (`Formula.derives_unique`). Two phrases of one tier that
start the same text are the same phrase, if what follows them cannot extend
either: neither a parenthesis, which would make a name a call, nor an operator of
the tier or of a tighter one (`Formula.Stops`). Each rule hands this on to the next
looser tier.

Key definitions: `Formula`, `Formula.Atom`, `Formula.Marked`, `Formula.Joined`, `Formula.Compared`,
`Formula.Tier`, `Formula.Derives`, `Formula.Agree`.
Key theorems: `Formula.links_agree`, `Formula.tier_agree`, `Formula.derives_unique`.
-/
import MiniC.Proofs.Grammar

namespace MiniC

open Lexeme

/-- Expressions of the indented language. -/
inductive Formula where
  | number (text : String)
  | string (text : String)
  | name (x : String)
  | call (x : String) (args : List Formula)
  | minus (operand : Formula)
  | not (operand : Formula)
  | binary (o : BinOp) (left right : Formula)
  | chain (first : Formula) (rest : List (BinOp × Formula))

namespace Formula

/-! ### The grammar -/

/-- The words that are no names. -/
def reserved : List String :=
  ["False", "None", "True", "and", "as", "assert", "async", "await", "break", "class", "continue",
   "def", "del", "elif", "else", "except", "finally", "for", "from", "global", "if", "import", "in",
   "is", "lambda", "nonlocal", "not", "or", "pass", "raise", "return", "try", "while", "with", "yield"]

/-- The word of an operator. -/
def operator : BinOp → Lexeme
  | .or => ident "or"
  | .and => ident "and"
  | o => op o.symbol

/-- Rows of words with the formulas they stand for. -/
abbrev Reading := List Lexeme → Formula → Prop

/-- Literals, names, calls and groups; arguments and groups are whole formulas. -/
inductive Atom (Whole : Reading) : Reading
  | number (text : String) : Atom Whole [(.number, text)] (.number text)
  | string (text : String) : Atom Whole [(.string, text)] (.string text)
  | name {x : String} : x ∉ reserved → Atom Whole [ident x] (.name x)
  | call {x : String} {ls : List Lexeme} {args : List Formula} : x ∉ reserved →
    Grammar.Arguments Whole ls args → Atom Whole (ident x :: ls) (.call x args)
  | group {ls : List Lexeme} {f : Formula} :
    Whole ls f → Atom Whole (punct "(" :: ls ++ [punct ")"]) f

/-- A mark, any number of times, before an operand. -/
inductive Marked (mark : Lexeme) (apply : Formula → Formula) (Operand : Reading) : Reading
  | operand {ls : List Lexeme} {f : Formula} : Operand ls f → Marked mark apply Operand ls f
  | mark {ls : List Lexeme} {f : Formula} :
    Marked mark apply Operand ls f → Marked mark apply Operand (mark :: ls) (apply f)

/-- Operators that group from the left. -/
inductive Joined (operators : List BinOp) (Operand : Reading) : Reading
  | operand {ls : List Lexeme} {f : Formula} : Operand ls f → Joined operators Operand ls f
  | join {o : BinOp} {ls ms : List Lexeme} {left right : Formula} : o ∈ operators →
    Joined operators Operand ls left → Operand ms right →
      Joined operators Operand (ls ++ operator o :: ms) (.binary o left right)

/-- Operators with their right operands, one behind the other. -/
inductive Links (operators : List BinOp) (Operand : Reading) :
    List Lexeme → List (BinOp × Formula) → Prop
  | nil : Links operators Operand [] []
  | cons {o : BinOp} {ls ms : List Lexeme} {f : Formula} {rest : List (BinOp × Formula)} :
    o ∈ operators → Operand ls f → Links operators Operand ms rest →
      Links operators Operand (operator o :: ls ++ ms) ((o, f) :: rest)

/-- A single comparison is an operation of two operands, and more of them are a chain. -/
def compared (first : Formula) : List (BinOp × Formula) → Formula
  | [] => first
  | [(o, f)] => .binary o first f
  | rest => .chain first rest

def comparisons : List BinOp := [.eq, .ne, .lt, .gt, .le, .ge]

/-- Comparisons, which do not group. -/
inductive Compared (Operand : Reading) : Reading
  | links {ls ms : List Lexeme} {first : Formula} {rest : List (BinOp × Formula)} :
    Operand ls first → Links comparisons Operand ms rest →
      Compared Operand (ls ++ ms) (first.compared rest)

/-- The rule that makes a tier from the next tighter one. -/
def rule : Nat → Reading → Reading
  | 1 => Marked (op "-") .minus
  | 2 => Joined [.mul, .div, .mod]
  | 3 => Joined [.add, .sub]
  | 4 => Compared
  | 5 => Marked (ident "not") .not
  | 6 => Joined [.and]
  | 7 => Joined [.or]
  | _ => id

/-- The tiers of the grammar, from the tightest to the loosest, which is the seventh. -/
def Tier (Whole : Reading) : Nat → Reading
  | 0 => Atom Whole
  | k + 1 => rule (k + 1) (Tier Whole k)

/-- Whole formulas with fewer than `levels` levels of parentheses inside. -/
def Nested : (levels : Nat) → Reading
  | 0 => fun _ _ => False
  | levels + 1 => Tier (Nested levels) 7

/-- The words are derivable, with this derivation tree. -/
def Derives (ls : List Lexeme) (f : Formula) : Prop := ∃ levels, Nested levels ls f

/-! ### First words -/

/-- The word can be the first of a phrase of tier `k`. -/
def opens (k : Nat) : Lexeme → Bool
  | (.number, _) | (.string, _) => true
  | (.identifier, x) => x ∉ reserved || (5 ≤ k && x = "not")
  | (.operator, text) => 1 ≤ k && text = "-"
  | (.delimiter, text) => text = "("
  | _ => false

/-- Every phrase starts with a word that can be the first of tier `k`. -/
def Heads (k : Nat) (P : Reading) : Prop :=
  ∀ ⦃ls : List Lexeme⦄ ⦃f : Formula⦄, P ls f → ∃ l more, ls = l :: more ∧ opens k l

theorem opens_mono {k k' : Nat} (le : k ≤ k') {l : Lexeme} (h : opens k l) : opens k' l := by
  obtain ⟨kind, text⟩ := l
  cases kind with
  | identifier =>
    simp only [opens, Bool.or_eq_true, Bool.and_eq_true, decide_eq_true_eq] at h ⊢
    exact h.imp id fun h => ⟨by omega, h.2⟩
  | operator =>
    simp only [opens, Bool.and_eq_true, decide_eq_true_eq] at h ⊢
    exact ⟨by omega, h.2⟩
  | _ => exact h

section

variable {k : Nat} {P : Reading}

theorem Heads.mono {k' : Nat} (le : k ≤ k') (h : Heads k P) : Heads k' P := by
  intro ls f hf
  obtain ⟨l, more, rfl, hl⟩ := h hf
  exact ⟨l, more, rfl, opens_mono le hl⟩

theorem atom_heads (Whole : Reading) : Heads 0 (Atom Whole) := by
  intro ls f h
  cases h with
  | number _ => exact ⟨_, _, rfl, rfl⟩
  | string _ => exact ⟨_, _, rfl, rfl⟩
  | name free => exact ⟨_, _, rfl, by simp [opens, ident, free]⟩
  | call free _ => exact ⟨_, _, rfl, by simp [opens, ident, free]⟩
  | group _ => exact ⟨_, _, List.cons_append, rfl⟩

theorem marked_heads {mark : Lexeme} {apply : Formula → Formula} (h : Heads k P) (hm : opens k mark) :
    Heads k (Marked mark apply P) := by
  intro ls f hf
  cases hf with
  | operand hf => exact h hf
  | mark _ => exact ⟨_, _, rfl, hm⟩

theorem joined_heads {operators : List BinOp} (h : Heads k P) : Heads k (Joined operators P) := by
  intro ls f hf
  induction hf with
  | operand hf => exact h hf
  | join _ _ _ ih =>
    obtain ⟨l, more, rfl, hl⟩ := ih
    exact ⟨l, _, List.cons_append, hl⟩

theorem compared_heads (h : Heads k P) : Heads k (Compared P) := by
  intro ls f hf
  obtain ⟨hfirst, _⟩ := hf
  obtain ⟨l, more, rfl, hl⟩ := h hfirst
  exact ⟨l, _, List.cons_append, hl⟩

end

theorem rule_heads {P : Reading} : ∀ {k : Nat}, Heads k P → Heads (k + 1) (rule (k + 1) P)
  | 0, h => marked_heads (h.mono (by decide)) rfl
  | 1, h => joined_heads (h.mono (by decide))
  | 2, h => joined_heads (h.mono (by decide))
  | 3, h => compared_heads (h.mono (by decide))
  | 4, h => marked_heads (h.mono (by decide)) (by decide)
  | 5, h => joined_heads (h.mono (by decide))
  | 6, h => joined_heads (h.mono (by decide))
  | _ + 7, h => h.mono (Nat.le_succ _)

theorem tier_heads (Whole : Reading) : ∀ k, Heads k (Tier Whole k)
  | 0 => atom_heads Whole
  | k + 1 => rule_heads (tier_heads Whole k)

theorem nested_heads : ∀ levels, Heads 7 (Nested levels)
  | 0 => fun _ _ h => h.elim
  | levels + 1 => tier_heads (Nested levels) 7

/-! ### What cannot extend a phrase -/

/-- The tier of an operator. -/
def tierOf : BinOp → Nat
  | .mul | .div | .mod => 2
  | .add | .sub => 3
  | .eq | .ne | .lt | .gt | .le | .ge => 4
  | .and => 6
  | .or => 7

/-- What may follow a phrase of tier `k`. -/
def Stops (k : Nat) (more : List Lexeme) : Prop :=
  ∀ l ∈ more.head?, l ≠ punct "(" ∧ ∀ o : BinOp, l = operator o → k < tierOf o

theorem Stops.mono {k k' : Nat} (le : k ≤ k') {more : List Lexeme} (h : Stops k' more) : Stops k more :=
  fun l hl => ⟨(h l hl).1, fun o ho => Nat.lt_of_le_of_lt le ((h l hl).2 o ho)⟩

theorem operator_ne_punct (o : BinOp) (text : String) : operator o ≠ punct text := by
  cases o <;> simp [operator, ident, op, punct]

theorem operator_inj {o o' : BinOp} (h : operator o = operator o') : o = o' := by
  have found (o : BinOp) : BinOp.all.find? (fun o' => operator o' = operator o) = some o := by
    cases o <;> decide
  have same := found o
  rw [h, found o'] at same
  exact (Option.some.inj same).symm

theorem stops_operator {k : Nat} {o : BinOp} (h : k < tierOf o) (more : List Lexeme) :
    Stops k (operator o :: more) := by
  intro l hl
  obtain rfl : operator o = l := by simpa using hl
  refine ⟨operator_ne_punct o "(", fun o' ho => ?_⟩
  rwa [← operator_inj ho]

theorem stops_punct {text : String} (ne : text ≠ "(") (k : Nat) (more : List Lexeme) :
    Stops k (punct text :: more) := by
  intro l hl
  obtain rfl : punct text = l := by simpa using hl
  exact ⟨fun h => ne (Prod.mk.inj h).2, fun o ho => absurd ho.symm (operator_ne_punct o text)⟩

theorem stops_nil (k : Nat) : Stops k [] := by
  simp [Stops]

/-! ### No two readings -/

/-- Two phrases that start the same words are the same phrase, if what follows them
cannot extend them. -/
def Agree (k : Nat) (P Q : Reading) : Prop :=
  ∀ ⦃ls ls' more more' : List Lexeme⦄ ⦃f f' : Formula⦄, P ls f → Q ls' f' → Stops k more →
    Stops k more' → ls ++ more = ls' ++ more' → ls = ls' ∧ f = f' ∧ more = more'

section

variable {k : Nat} {P Q : Reading}

theorem Agree.mono {k' : Nat} (le : k ≤ k') (h : Agree k P Q) : Agree k' P Q :=
  fun _ _ _ _ _ _ hf hf' stop stop' => h hf hf' (stop.mono le) (stop'.mono le)

theorem items_agree (h : Agree 7 P Q) {ls ls' more more' : List Lexeme} {fs fs' : List Formula}
    (hfs : Grammar.Items P ls fs) (hfs' : Grammar.Items Q ls' fs')
    (eq : ls ++ punct ")" :: more = ls' ++ punct ")" :: more') :
    ls = ls' ∧ fs = fs' ∧ more = more' := by
  have close (more : List Lexeme) : Stops 7 (punct ")" :: more) := stops_punct (by decide) 7 more
  have comma (more : List Lexeme) : Stops 7 (punct "," :: more) := stops_punct (by decide) 7 more
  induction hfs generalizing ls' fs' with
  | one hf =>
    cases hfs' with
    | one hf' =>
      obtain ⟨rfl, rfl, rest⟩ := h hf hf' (close _) (close _) eq
      exact ⟨rfl, rfl, (List.cons.inj rest).2⟩
    | cons hf' _ =>
      rw [List.append_assoc, List.cons_append] at eq
      obtain ⟨-, -, rest⟩ := h hf hf' (close _) (comma _) eq
      simp [punct] at rest
  | cons hf _ ih =>
    rw [List.append_assoc, List.cons_append] at eq
    cases hfs' with
    | one hf' =>
      obtain ⟨-, -, rest⟩ := h hf hf' (comma _) (close _) eq
      simp [punct] at rest
    | cons hf' hfs' =>
      rw [List.append_assoc, List.cons_append] at eq
      obtain ⟨rfl, rfl, rest⟩ := h hf hf' (comma _) (comma _) eq
      obtain ⟨rfl, rfl, rfl⟩ := ih hfs' (List.cons.inj rest).2
      exact ⟨rfl, rfl, rfl⟩

/-- No item starts with the parenthesis behind the last one. -/
theorem items_ne_close (h : Heads 7 P) {ls more more' : List Lexeme} {fs : List Formula}
    (hfs : Grammar.Items P ls fs) : punct ")" :: more ≠ ls ++ more' := by
  have head : ∃ l rest, ls = l :: rest ∧ opens 7 l := by
    cases hfs with
    | one hf => exact h hf
    | cons hf _ =>
      obtain ⟨l, rest, rfl, hl⟩ := h hf
      exact ⟨l, _, List.cons_append, hl⟩
  obtain ⟨l, rest, rfl, hl⟩ := head
  intro eq
  obtain rfl := (List.cons.inj eq).1
  exact absurd hl (by decide)

theorem arguments_agree (h : Agree 7 P Q) (headsP : Heads 7 P) (headsQ : Heads 7 Q)
    {ls ls' more more' : List Lexeme} {fs fs' : List Formula} (hfs : Grammar.Arguments P ls fs)
    (hfs' : Grammar.Arguments Q ls' fs') (eq : ls ++ more = ls' ++ more') :
    ls = ls' ∧ fs = fs' ∧ more = more' := by
  cases hfs with
  | none =>
    cases hfs' with
    | none => exact ⟨rfl, rfl, List.append_cancel_left eq⟩
    | some hfs' =>
      simp only [List.cons_append, List.append_assoc, List.nil_append] at eq
      exact absurd (List.cons.inj eq).2 (items_ne_close headsQ hfs')
  | some hfs =>
    simp only [List.cons_append, List.append_assoc, List.nil_append] at eq
    cases hfs' with
    | none => exact absurd (List.cons.inj eq).2.symm (items_ne_close headsP hfs)
    | some hfs' =>
      simp only [List.cons_append, List.append_assoc, List.nil_append] at eq
      obtain ⟨rfl, rfl, rfl⟩ := items_agree h hfs hfs' (List.cons.inj eq).2
      exact ⟨rfl, rfl, rfl⟩

/-- A name before a call's parenthesis is no name alone. -/
theorem name_ne_call {x y : String} {ls more more' : List Lexeme} {fs : List Formula}
    (hfs : Grammar.Arguments P ls fs) (stop : Stops 0 more) : ident x :: more ≠ ident y :: (ls ++ more') := by
  obtain ⟨rest, rfl⟩ := Grammar.arguments_start hfs
  intro eq
  obtain rfl := (List.cons.inj eq).2
  exact (stop _ rfl).1 rfl

/-- The first word tells the atoms apart, and a parenthesis behind it the calls. -/
theorem atom_agree (h : Agree 7 P Q) (headsP : Heads 7 P) (headsQ : Heads 7 Q) :
    Agree 0 (Atom P) (Atom Q) := by
  intro ls ls' more more' f f' hf hf' stop stop' eq
  cases hf with
  | number text =>
    cases hf' with
    | number text' =>
      obtain ⟨first, rfl⟩ := List.cons.inj eq
      obtain ⟨-, rfl⟩ := Prod.mk.inj first
      exact ⟨rfl, rfl, rfl⟩
    | _ => simp [ident, punct] at eq
  | string text =>
    cases hf' with
    | string text' =>
      obtain ⟨first, rfl⟩ := List.cons.inj eq
      obtain ⟨-, rfl⟩ := Prod.mk.inj first
      exact ⟨rfl, rfl, rfl⟩
    | _ => simp [ident, punct] at eq
  | name _ =>
    cases hf' with
    | name _ =>
      obtain ⟨first, rfl⟩ := List.cons.inj eq
      obtain ⟨-, rfl⟩ := Prod.mk.inj first
      exact ⟨rfl, rfl, rfl⟩
    | call _ hargs => exact absurd eq (name_ne_call hargs stop)
    | _ => simp [ident, punct] at eq
  | call _ hargs =>
    cases hf' with
    | call _ hargs' =>
      obtain ⟨first, rest⟩ := List.cons.inj eq
      obtain ⟨-, rfl⟩ := Prod.mk.inj first
      obtain ⟨rfl, rfl, rfl⟩ := arguments_agree h headsP headsQ hargs hargs' rest
      exact ⟨rfl, rfl, rfl⟩
    | name _ => exact absurd eq.symm (name_ne_call hargs stop')
    | _ => simp [ident, punct] at eq
  | group hf =>
    cases hf' with
    | group hf' =>
      simp only [List.cons_append, List.append_assoc, List.nil_append] at eq
      have close (more : List Lexeme) : Stops 7 (punct ")" :: more) := stops_punct (by decide) 7 more
      obtain ⟨rfl, rfl, rest⟩ := h hf hf' (close _) (close _) (List.cons.inj eq).2
      exact ⟨rfl, rfl, (List.cons.inj rest).2⟩
    | _ => simp [ident, punct] at eq

/-- The marks are those at the start, because no operand starts with one. -/
theorem marked_agree {mark : Lexeme} {apply : Formula → Formula} (h : Agree k P Q) (headsP : Heads k P)
    (headsQ : Heads k Q) (other : opens k mark = false) :
    Agree k (Marked mark apply P) (Marked mark apply Q) := by
  have notMark {R : Reading} (heads : Heads k R) {ls more rest : List Lexeme} {f : Formula} (hf : R ls f) :
      ls ++ more ≠ mark :: rest := by
    obtain ⟨l, tail, rfl, hl⟩ := heads hf
    intro eq
    obtain rfl := (List.cons.inj eq).1
    simp [other] at hl
  intro ls ls' more more' f f' hf hf' stop stop' eq
  induction hf generalizing ls' f' with
  | operand hf =>
    cases hf' with
    | operand hf' => exact h hf hf' stop stop' eq
    | mark _ => exact absurd eq (notMark headsP hf)
  | mark _ ih =>
    cases hf' with
    | operand hf' => exact absurd eq.symm (notMark headsQ hf')
    | mark hf' =>
      obtain ⟨rfl, rfl, rfl⟩ := ih hf' (List.cons.inj eq).2
      exact ⟨rfl, rfl, rfl⟩

/-- Links do not extend the operand before them. -/
theorem links_stop {operators : List BinOp} (tiers : ∀ o ∈ operators, tierOf o = k + 1)
    {ls more : List Lexeme} {rest : List (BinOp × Formula)} (hrest : Links operators P ls rest)
    (stop : Stops (k + 1) more) : Stops k (ls ++ more) := by
  cases hrest with
  | nil => exact stop.mono (Nat.le_succ k)
  | cons ho _ _ => exact stops_operator (by rw [tiers _ ho]; exact Nat.lt_succ_self k) _

/-- Two rows of links that start the same words are the same row. -/
theorem links_agree (h : Agree k P Q) {operators : List BinOp}
    (tiers : ∀ o ∈ operators, tierOf o = k + 1) {ls ls' more more' : List Lexeme}
    {rest rest' : List (BinOp × Formula)} (hrest : Links operators P ls rest)
    (hrest' : Links operators Q ls' rest') (stop : Stops (k + 1) more) (stop' : Stops (k + 1) more')
    (eq : ls ++ more = ls' ++ more') : ls = ls' ∧ rest = rest' ∧ more = more' := by
  have notOperator {o : BinOp} (ho : o ∈ operators) {more rest : List Lexeme} (stop : Stops (k + 1) more) :
      more ≠ operator o :: rest := by
    rintro rfl
    have := (stop _ rfl).2 o rfl
    rw [tiers o ho] at this
    exact Nat.lt_irrefl _ this
  induction hrest generalizing ls' rest' with
  | nil =>
    cases hrest' with
    | nil => exact ⟨rfl, rfl, eq⟩
    | cons ho _ _ => exact absurd eq (notOperator ho stop)
  | cons ho hf hmore ih =>
    cases hrest' with
    | nil => exact absurd eq.symm (notOperator ho stop')
    | cons ho' hf' hmore' =>
      simp only [List.cons_append, List.append_assoc] at eq
      obtain ⟨first, tail⟩ := List.cons.inj eq
      obtain rfl := operator_inj first
      obtain ⟨rfl, rfl, behind⟩ := h hf hf' (links_stop tiers hmore stop) (links_stop tiers hmore' stop') tail
      obtain ⟨rfl, rfl, rfl⟩ := ih hmore' behind
      exact ⟨rfl, rfl, rfl⟩

/-- An operand with links behind it can be taken apart in one way only. -/
theorem linked_agree (h : Agree k P Q) {operators : List BinOp}
    (tiers : ∀ o ∈ operators, tierOf o = k + 1) {ls ls' ms ms' more more' : List Lexeme}
    {f f' : Formula} {rest rest' : List (BinOp × Formula)} (hf : P ls f) (hf' : Q ls' f')
    (hrest : Links operators P ms rest) (hrest' : Links operators Q ms' rest')
    (stop : Stops (k + 1) more) (stop' : Stops (k + 1) more')
    (eq : (ls ++ ms) ++ more = (ls' ++ ms') ++ more') :
    ls ++ ms = ls' ++ ms' ∧ f = f' ∧ rest = rest' ∧ more = more' := by
  rw [List.append_assoc, List.append_assoc] at eq
  obtain ⟨rfl, rfl, eq⟩ := h hf hf' (links_stop tiers hrest stop) (links_stop tiers hrest' stop') eq
  obtain ⟨rfl, rfl, rfl⟩ := links_agree h tiers hrest hrest' stop stop' eq
  exact ⟨rfl, rfl, rfl, rfl⟩

theorem Links.snoc {operators : List BinOp} {o : BinOp} {ls ms : List Lexeme} {f : Formula}
    {rest : List (BinOp × Formula)} (h : Links operators P ls rest) (ho : o ∈ operators) (hf : P ms f) :
    Links operators P (ls ++ operator o :: ms) (rest ++ [(o, f)]) := by
  induction h with
  | nil => simpa using Links.cons ho hf .nil
  | cons ho' hf' _ ih => simpa using Links.cons ho' hf' ih

/-- A phrase that groups from the left is an operand with links behind it. -/
theorem Joined.links {operators : List BinOp} {ls : List Lexeme} {f : Formula}
    (h : Joined operators P ls f) :
    ∃ ms ns first rest, ls = ms ++ ns ∧ P ms first ∧ Links operators P ns rest ∧
      f = rest.foldl (fun left (o, right) => .binary o left right) first := by
  induction h with
  | operand hf => exact ⟨_, [], _, [], (List.append_nil _).symm, hf, .nil, rfl⟩
  | join ho _ hright ih =>
    obtain ⟨ms, ns, first, rest, rfl, hfirst, hrest, rfl⟩ := ih
    exact ⟨ms, _, first, _, List.append_assoc .., hfirst, hrest.snoc ho hright, by simp⟩

theorem joined_agree (h : Agree k P Q) {operators : List BinOp}
    (tiers : ∀ o ∈ operators, tierOf o = k + 1) :
    Agree (k + 1) (Joined operators P) (Joined operators Q) := by
  intro ls ls' more more' f f' hf hf' stop stop' eq
  obtain ⟨ms, ns, first, rest, rfl, hfirst, hrest, rfl⟩ := hf.links
  obtain ⟨ms', ns', first', rest', rfl, hfirst', hrest', rfl⟩ := hf'.links
  obtain ⟨row, rfl, rfl, rfl⟩ := linked_agree h tiers hfirst hfirst' hrest hrest' stop stop' eq
  exact ⟨row, rfl, rfl⟩

theorem compared_agree (h : Agree 3 P Q) : Agree 4 (Compared P) (Compared Q) := by
  intro ls ls' more more' f f' hf hf' stop stop' eq
  obtain ⟨hfirst, hrest⟩ := hf
  obtain ⟨hfirst', hrest'⟩ := hf'
  obtain ⟨row, rfl, rfl, rfl⟩ := linked_agree h (by decide) hfirst hfirst' hrest hrest' stop stop' eq
  exact ⟨row, rfl, rfl⟩

/-- Every rule hands unambiguity on to its tier. -/
theorem rule_agree : ∀ {k : Nat}, Agree k P Q → Heads k P → Heads k Q →
    Agree (k + 1) (rule (k + 1) P) (rule (k + 1) Q)
  | 0, h, headsP, headsQ => (marked_agree h headsP headsQ (by decide)).mono (by decide)
  | 1, h, _, _ => joined_agree h (by decide)
  | 2, h, _, _ => joined_agree h (by decide)
  | 3, h, _, _ => compared_agree h
  | 4, h, headsP, headsQ => (marked_agree h headsP headsQ (by decide)).mono (by decide)
  | 5, h, _, _ => joined_agree h (by decide)
  | 6, h, _, _ => joined_agree h (by decide)
  | _ + 7, h, _, _ => h.mono (Nat.le_succ _)

theorem tier_agree (h : Agree 7 P Q) (headsP : Heads 7 P) (headsQ : Heads 7 Q) :
    ∀ k, Agree k (Tier P k) (Tier Q k)
  | 0 => atom_agree h headsP headsQ
  | k + 1 => rule_agree (tier_agree h headsP headsQ k) (tier_heads P k) (tier_heads Q k)

theorem nested_agree : ∀ levels levels', Agree 7 (Nested levels) (Nested levels')
  | 0, _ => fun _ _ _ _ _ _ h => h.elim
  | _, 0 => fun _ _ _ _ _ _ _ h => h.elim
  | levels + 1, levels' + 1 =>
    tier_agree (nested_agree levels levels') (nested_heads levels) (nested_heads levels') 7

end

/-- **The grammar is unambiguous**: words have at most one derivation tree. -/
theorem derives_unique {ls : List Lexeme} {f f' : Formula} (h : Derives ls f) (h' : Derives ls f') :
    f = f' := by
  obtain ⟨levels, hf⟩ := h
  obtain ⟨levels', hf'⟩ := h'
  exact (nested_agree levels levels' hf hf' (stops_nil 7) (stops_nil 7) rfl).2.1

end Formula

end MiniC
