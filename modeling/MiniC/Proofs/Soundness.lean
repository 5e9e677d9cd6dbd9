/-
# Every tree that the parser builds is a tree of the grammar

Whatever the tokens are, and however much of them is skipped, what the parser puts
together is a tree that some row of words stands for: the tree of an input without
faults. The words need not be those of the tokens; only the first of them matters,
because a clause that starts with a name is told from others by it (`Forms`). Of a
statement it matters, too, that it takes the `else` that follows it if it can
(`FormsStatement`).

Where no more levels may be opened a loop gets an empty block for its body, so the
grammar needs one level more than the parser (`statement_forms`).

Key definitions: `Parse.Forms`, `Parse.FormsStatement`.
Key theorems: `Parse.expression_forms`, `Parse.statement_forms`, `Parse.program_forms`.
-/
import MiniC.Proofs.Canonical
import MiniC.Proofs.Run

namespace MiniC

open Lexeme Grammar

/-! ### More levels have the same phrases -/

namespace Grammar

theorem Items.imp {α : Type} {P Q : List Lexeme → α → Prop} (imp : ∀ {ls e}, P ls e → Q ls e)
    {ls : List Lexeme} {es : List α} (h : Items P ls es) : Items Q ls es := by
  induction h with
  | one he => exact .one (imp he)
  | cons he _ ih => exact .cons (imp he) ih

theorem Arguments.imp {α : Type} {P Q : List Lexeme → α → Prop} (imp : ∀ {ls e}, P ls e → Q ls e)
    {ls : List Lexeme} {es : List α} (h : Arguments P ls es) : Arguments Q ls es := by
  cases h with
  | none => exact .none
  | some items => exact .some (items.imp imp)

theorem Primary.imp {P Q : Phrase} (imp : ∀ {ls e}, P ls e → Q ls e) {ls : List Lexeme} {e : Node}
    (h : Primary P ls e) : Primary Q ls e := by
  cases h with
  | number text l => exact .number text l
  | string text l => exact .string text l
  | name x l => exact .name x l
  | call x l args => exact .call x l (args.imp imp)
  | group he => exact .group (imp he)

theorem Tier.imp {P Q : Phrase} (imp : ∀ {ls e}, P ls e → Q ls e) {k : Nat} {ls : List Lexeme} {e : Node}
    (h : Tier P k ls e) : Tier Q k ls e := by
  induction h with
  | operand he => exact .operand (imp he)
  | lift _ ih => exact .lift ih
  | binary o l _ prec _ ihLeft ihRight => exact .binary o l ihLeft prec ihRight

theorem Prefixed.imp {P Q : Phrase} (imp : ∀ {ls e}, P ls e → Q ls e) {ls : List Lexeme} {e : Node}
    (h : Prefixed P ls e) : Prefixed Q ls e := by
  cases h with
  | primary he => exact .primary (he.imp fun h => h.imp imp)
  | negation o l ne he => exact .negation o l ne (imp he)
  | address l he => exact .address l (he.imp fun h => h.imp imp)

theorem operand_succ (levels : Nat) {ls : List Lexeme} {e : Node} (h : Operand levels ls e) :
    Operand (levels + 1) ls e := by
  induction levels generalizing ls e with
  | zero => exact h.elim
  | succ levels ih => exact Prefixed.imp ih h

theorem expression_succ (levels : Nat) {ls : List Lexeme} {e : Node} (h : Expression levels ls e) :
    Expression (levels + 1) ls e :=
  Tier.imp (operand_succ levels) h

/-- Trees with phrases of their own are phrases in a row. -/
theorem many_of_all {P : Phrase} {ns : List Node} (h : ∀ n ∈ ns, ∃ ls, P ls n) : ∃ ls, Many P ls ns := by
  induction ns with
  | nil => exact ⟨[], .nil⟩
  | cons n ns ih =>
    obtain ⟨⟨ls, first⟩, others⟩ := List.forall_mem_cons.mp h
    obtain ⟨ms, more⟩ := ih others
    exact ⟨ls ++ ms, .cons first more⟩

theorem items_of_all {P : Phrase} {e : Node} {es : List Node} (h : ∀ a ∈ e :: es, ∃ ls, P ls a) :
    ∃ ls, Items P ls (e :: es) := by
  induction es generalizing e with
  | nil =>
    obtain ⟨ls, only⟩ := h e List.mem_cons_self
    exact ⟨ls, .one only⟩
  | cons a es ih =>
    obtain ⟨⟨ls, first⟩, others⟩ := List.forall_mem_cons.mp h
    obtain ⟨ms, more⟩ := ih others
    exact ⟨_, .cons first more⟩

theorem arguments_of_all {P : Phrase} {args : List Node} (h : ∀ a ∈ args, ∃ ls, P ls a) :
    ∃ ls, Arguments P ls args := by
  cases args with
  | nil => exact ⟨_, .none⟩
  | cons a args =>
    obtain ⟨ls, items⟩ := items_of_all h
    exact ⟨_, .some items⟩

theorem optional_of_all {P : Phrase} {value : Option Node} (h : ∀ e ∈ value, ∃ ls, P ls e) :
    ∃ ls, Optional P ls value := by
  cases value with
  | none => exact ⟨[], .none⟩
  | some e =>
    obtain ⟨ls, he⟩ := h e rfl
    exact ⟨ls, .some he⟩

end Grammar

/-- The next token is a name. -/
def Cursor.atName (c : Cursor) : Bool := c.rest.head?.any (·.kind = .identifier)

theorem Cursor.atName_cons {c : Cursor} {t : Token} {ts : List Token} (h : c.rest = t :: ts) :
    c.atName = decide (t.kind = .identifier) := by
  rw [atName, h, List.head?_cons, Option.any_some]

namespace Parse

/-! ### Expressions -/

/-- What the parser gives is a phrase, and one that starts with a name if the tokens do. -/
def Forms (p : Parse (Option Node)) (P : Phrase) : Prop :=
  ∀ c, Ensures p c fun n _ => ∀ e ∈ n, ∃ ls, P ls e ∧ (c.atName → Node.startsWithName ls)

theorem Forms.phrase {p : Parse (Option Node)} {P : Phrase} (h : Forms p P) (c : Cursor) :
    Ensures p c fun n _ => ∀ e ∈ n, ∃ ls, P ls e :=
  (h c).mono fun _ _ found e he => (found e he).imp fun _ phrase => phrase.1

theorem Forms.imp {p : Parse (Option Node)} {P Q : Phrase} (h : Forms p P)
    (imp : ∀ {ls e}, P ls e → Q ls e) : Forms p Q := fun c =>
  (h c).mono fun _ _ found e he => (found e he).imp fun _ phrase => ⟨imp phrase.1, phrase.2⟩

theorem tooDeep_none (c : Cursor) : Ensures tooDeep c fun n _ => n = none := by
  unfold tooDeep
  exact .peek (fun _ => .pure rfl) fun t ts _ => .bind_eq rfl (.bind_eq rfl (.pure rfl))

section

variable {operand expression : Parse (Option Node)} {Op Expr : Phrase}

theorem chain_forms {k : Nat} (h : Forms operand (Tier Op k)) (left : Node) (c : Cursor) :
    Ensures (chain (6 - k) operand left) c fun n _ => ∀ ls, Tier Op (k + 1) ls left →
      ∃ ms, Tier Op (k + 1) ms n ∧ (Node.startsWithName ls → Node.startsWithName ms) := by
  unfold Ensures chain
  fun_induction chain.go (6 - k) operand left c with
  | case1 => exact fun ls hleft => ⟨ls, hleft, id⟩
  | case2 => exact fun ls hleft => ⟨ls, hleft, id⟩
  | case3 => exact fun ls hleft => ⟨ls, hleft, id⟩
  | case4 left c t ts hrest o ho found right hright _ ih =>
    intro ls hleft
    obtain ⟨rs, phrase, -⟩ := h c.advance right hright
    obtain ⟨ms, whole, name⟩ := ih _ (.binary o t.location hleft (operatorOf_some ho).2.2 phrase)
    rw [Node.startsWithName_append_op] at name
    exact ⟨ms, whole, name⟩
  | case5 left c t ts hrest o ho found right hright _ =>
    intro ls hleft
    obtain ⟨rs, phrase, -⟩ := h c.advance right hright
    refine ⟨_, .binary o t.location hleft (operatorOf_some ho).2.2 phrase, fun first => ?_⟩
    rwa [Node.startsWithName_append_op]

theorem tier_forms (h : Forms operand Op) : ∀ k, Forms (tier operand k) (Tier Op k)
  | 0 => h.imp .operand
  | k + 1 => by
    intro c
    unfold tier binaryLevel
    refine .bind (tier_forms h k c) fun n c1 found => ?_
    cases n with
    | none => exact .pure (by simp)
    | some left =>
      obtain ⟨ls, phrase, name⟩ := found left rfl
      refine .bind (chain_forms (tier_forms h k) left c1) fun n c2 extended => .pure ?_
      obtain ⟨ms, whole, first⟩ := extended ls (.lift phrase)
      rintro e ⟨⟩
      exact ⟨ms, whole, fun atName => first (name atName)⟩

theorem argumentsOver_forms (h : Forms expression Expr) (c : Cursor) :
    Ensures (argumentsOver expression) c fun args _ => ∀ a ∈ args, ∃ ls, Expr ls a := by
  unfold Ensures argumentsOver
  fun_induction argumentsOver.go expression c with
  | case1 => simp
  | case2 c found arg harg _ _ more ih =>
    exact List.forall_mem_cons.mpr ⟨h.phrase c arg harg, ih⟩
  | case3 c found arg harg _ _ => exact List.forall_mem_singleton.mpr (h.phrase c arg harg)
  | case4 c found arg harg _ => exact List.forall_mem_singleton.mpr (h.phrase c arg harg)

theorem argumentList_forms (h : Forms expression Expr) (c : Cursor) :
    Ensures (argumentList expression) c fun args _ => ∃ ls, Arguments Expr ls args := by
  unfold argumentList
  refine .bind_eq rfl (.bind_eq rfl ?_)
  split
  · exact .bind_eq rfl (.bind_eq rfl (.pure ⟨_, .none⟩))
  · refine .bind (argumentsOver_forms h _) fun args c2 all => ?_
    exact .bind_eq rfl (.pure (arguments_of_all all))

theorem primary_forms (h : Forms expression Expr) : Forms (primary expression) (Primary Expr) := by
  intro c
  unfold primary
  refine .peek (fun _ => .pure (by simp)) fun t ts hrest => ?_
  rw [Cursor.atName_cons hrest]
  dsimp only
  split
  · next hk =>
    refine .bind_eq rfl (.pure ?_)
    rintro e ⟨⟩
    exact ⟨_, .number _ _, by simp [hk]⟩
  · next hk =>
    refine .bind_eq rfl (.pure ?_)
    rintro e ⟨⟩
    exact ⟨_, .string _ _, by simp [hk]⟩
  · refine .bind_eq rfl (.bind_eq rfl ?_)
    split
    · refine .bind (argumentList_forms h _) fun args c1 ⟨ls, phrase⟩ => .pure ?_
      rintro e ⟨⟩
      exact ⟨_, .call _ _ phrase, fun _ => rfl⟩
    · refine .pure ?_
      rintro e ⟨⟩
      exact ⟨_, .name _ _, fun _ => rfl⟩
  · next hk =>
    split
    · refine .bind_eq rfl (.bind (h.phrase _) fun inner c1 found => .bind_eq rfl (.pure fun e he => ?_))
      obtain ⟨ls, phrase⟩ := found e he
      exact ⟨_, .group phrase, by simp [hk]⟩
    · exact .pure (by simp)
  · exact .pure (by simp)

theorem prefixed_forms (h : Forms operand Op) : Forms (prefixed operand) (Prefixed Op) := by
  have hprimary : Forms (primary (expressionOver operand)) (Primary (Tier Op 6)) :=
    primary_forms (tier_forms h 6)
  intro c
  unfold prefixed
  refine .peek (fun _ => .pure (by simp)) fun t ts hrest => ?_
  dsimp only
  split
  · next hk =>
    have notName : ¬c.atName := by simp [Cursor.atName_cons hrest, hk]
    split
    · exact .pure (by simp)
    · next o ho =>
      refine .bind_eq rfl ?_
      split
      · next address =>
        refine .bind (hprimary.phrase _) fun inner c1 found => ?_
        cases inner with
        | none => exact .bind_eq rfl (.pure (by simp))
        | some inner =>
          obtain ⟨ls, phrase⟩ := found inner rfl
          refine .pure ?_
          rintro e ⟨⟩
          subst address
          exact ⟨_, .address _ phrase, fun name => absurd name notName⟩
      · next other =>
        refine .bind (h.phrase _) fun inner c1 found => ?_
        cases inner with
        | none => exact .bind_eq rfl (.pure (by simp))
        | some inner =>
          obtain ⟨ls, phrase⟩ := found inner rfl
          refine .pure ?_
          rintro e ⟨⟩
          exact ⟨_, .negation o _ other phrase, fun name => absurd name notName⟩
  · exact (hprimary.imp .primary) c

end

theorem operand_forms : ∀ levels, Forms (operand levels) (Operand levels)
  | 0 => fun c => (tooDeep_none c).mono fun n _ none => by simp [none]
  | levels + 1 => fun c => .nested (prefixed_forms (operand_forms levels) { c with depth := c.depth + 1 })

/-- **Every expression that is read is one of the grammar.** -/
theorem expression_forms (levels : Nat) : Forms (expression levels) (Expression levels) :=
  tier_forms (operand_forms levels) 6

/-! ### Declarations -/

theorem collectUntil_all {α : Type} {stop : Token → Bool} {item : Parse (Option α)} {P : α → Prop}
    (h : ∀ c, Ensures item c fun a _ => ∀ x ∈ a, P x) (c : Cursor) :
    Ensures (collectUntil stop item) c fun as _ => ∀ x ∈ as, P x := by
  have each (c : Cursor) : ∀ x ∈ (item c).1.toList, P x := fun x hx => h c x (Option.mem_toList.mp hx)
  unfold Ensures collectUntil
  fun_induction collectUntil.go stop item c with
  | case1 => simp
  | case2 => simp
  | case3 c t ts hrest _ found _ more ih => exact List.forall_mem_append.mpr ⟨each c, ih⟩
  | case4 c t ts hrest _ found _ => exact each c

/-- The type that is declared is one of the words. -/
theorem declaredType_mem (first : String) (more : List String) :
    declaredType (first :: more) ∈ first :: more := by
  rw [declaredType]
  induction more generalizing first with
  | nil => exact List.mem_cons_self
  | cons word more ih =>
    rw [List.foldl_cons]
    split
    · exact List.mem_cons_of_mem first (ih word)
    · rcases List.mem_cons.mp (ih first) with same | later
      · rw [same]
        exact List.mem_cons_self
      · exact List.mem_cons_of_mem _ (List.mem_cons_of_mem _ later)

theorem typeName_forms {c : Cursor} {t : Token} {ts : List Token} (hrest : c.rest = t :: ts) (ht : t.isType) :
    Ensures typeName c fun type _ => isTypeKeyword type := by
  show isTypeKeyword (declaredType ((c.rest.takeWhile Token.isType).map Token.spelling))
  have types : ∀ u ∈ c.rest.takeWhile Token.isType, isTypeKeyword u.spelling := fun u hu => by
    have typed : u.isType := List.all_eq_true.mp List.all_takeWhile u hu
    exact (Bool.and_eq_true_iff.mp typed).2
  rw [hrest, List.takeWhile_cons_of_pos ht] at types ⊢
  have member := declaredType_mem t.spelling ((ts.takeWhile Token.isType).map Token.spelling)
  rw [← List.map_cons] at member
  obtain ⟨u, hu, same⟩ := List.mem_map.mp member
  rw [← same]
  exact types u hu

theorem parameter_forms (c : Cursor) :
    Ensures parameter c fun p _ => ∀ q ∈ p, isTypeKeyword q.type := by
  unfold parameter
  refine .peek (fun _ => .pure (by simp)) fun t ts hrest => ?_
  dsimp only
  split
  · exact .bind_eq rfl (.pure (by simp))
  split
  · next ht =>
    refine .bind (typeName_forms hrest ht) fun type c1 typed => .bind (.any _ c1) fun name c2 _ => ?_
    cases name with
    | some name =>
      refine .pure ?_
      rintro q ⟨⟩
      exact typed
    | none =>
      refine .bind_eq rfl ?_
      split
      · exact .pure (by simp)
      · exact .bind_eq rfl (.pure (by simp))
  · exact .bind_eq rfl (.bind_eq rfl (.pure (by simp)))

theorem parameters_forms (c : Cursor) :
    Ensures parameters c fun ps _ => ∀ p ∈ ps, isTypeKeyword p.type := by
  unfold parameters
  refine .bind_eq rfl (.bind (collectUntil_all parameter_forms _) fun ps c2 typed => ?_)
  exact .bind_eq rfl (.pure typed)

/-- What the parser gives is a phrase, and one that is open leaves no `else` behind. -/
def FormsStatement (p : Parse (Option Node)) (P : Phrase) : Prop :=
  ∀ c, Ensures p c fun n c' => ∀ m ∈ n, (∃ ls, P ls m) ∧ (m.isOpen → ¬c'.looksAt .keyword "else")

section

variable {statement expression : Parse (Option Node)} {Stmt Expr : Phrase}

theorem blockBody_forms (hs : FormsStatement statement Stmt) (c : Cursor) :
    Ensures (blockBody statement) c fun body _ => ∃ ls, Many Stmt ls body := by
  have each (c : Cursor) : Ensures statement c fun n _ => ∀ m ∈ n, ∃ ls, Stmt ls m :=
    (hs c).mono fun _ _ found m hm => (found m hm).1
  unfold blockBody
  refine .bind_eq rfl (.bind (collectUntil_all each _) fun body c2 all => ?_)
  exact .bind_eq rfl (.pure (many_of_all all))

/-- The node is a declaration, which ends in a semicolon or in the brace of a function. -/
def Declares (Stmt Expr : Phrase) (n : Node) : Prop :=
  ∃ ls, Declaration Stmt Expr ls n ∧ (ls.getLast? = some (punct ";") ∨ ls.getLast? = some (punct closeBrace))

variable (Expr) in
theorem functionRest_forms (hs : FormsStatement statement Stmt) {type : String} (typed : isTypeKeyword type)
    (name : Token) (c : Cursor) :
    Ensures (functionRest statement type name) c fun n _ => Declares Stmt Expr n := by
  unfold functionRest
  refine .bind (parameters_forms c) fun ps c1 params => .bind_eq rfl ?_
  split
  · refine .bind (blockBody_forms hs c1) fun body c2 ⟨ls, items⟩ => .pure ?_
    exact ⟨_, .definition _ _ rfl ⟨typed, params⟩ items, .inr List.getLast?_concat⟩
  · refine .bind_eq rfl (.pure ?_)
    exact ⟨_, .prototype _ _ rfl ⟨typed, params⟩, .inl List.getLast?_concat⟩

theorem initializer_forms (he : Forms expression Expr) (name : Token) (c : Cursor) :
    Ensures (initializer expression name) c fun init _ => ∀ e ∈ init, ∃ ls, Expr ls e := by
  unfold initializer
  refine .bind_eq rfl ?_
  split
  · refine .bind (he.phrase _) fun init c2 found => ?_
    cases init with
    | none => exact .bind_eq rfl (.pure (by simp))
    | some value => exact .pure found
  · exact .pure (by simp)

variable (Stmt) in
theorem variableRest_forms (he : Forms expression Expr) {type : String} (typed : isTypeKeyword type)
    (name : Token) (c : Cursor) :
    Ensures (variableRest expression type name) c fun n _ => Declares Stmt Expr n := by
  unfold variableRest
  refine .bind (initializer_forms he name c) fun init c1 found => .bind_eq rfl (.bind_eq rfl (.pure ?_))
  cases init with
  | none => exact ⟨_, .declared _ _ _ typed, .inl rfl⟩
  | some value =>
    obtain ⟨ls, phrase⟩ := found value rfl
    exact ⟨_, .initialized _ _ _ typed phrase, .inl List.getLast?_concat⟩

theorem declaration_forms (hs : FormsStatement statement Stmt) (he : Forms expression Expr) {c : Cursor}
    {t : Token} {ts : List Token} (hrest : c.rest = t :: ts) (ht : t.isType) :
    Ensures (declaration statement expression) c fun n _ => ∀ m ∈ n, Declares Stmt Expr m := by
  unfold declaration
  refine .bind_eq rfl (.bind (typeName_forms hrest ht) fun type c1 typed => .bind (.any _ c1) fun name c2 _ => ?_)
  cases name with
  | none => exact .bind_eq rfl (.pure (by simp))
  | some name =>
    refine .bind_eq rfl ?_
    split
    · refine .bind (functionRest_forms Expr hs typed name c2) fun n c3 declares => .pure ?_
      rintro m ⟨⟩
      exact declares
    · refine .bind (variableRest_forms Stmt he typed name c2) fun n c3 declares => .pure ?_
      rintro m ⟨⟩
      exact declares

theorem declares_closed {n : Node} (h : Declares Stmt Expr n) : n.isOpen = false := by
  obtain ⟨ls, declaration, -⟩ := h
  cases declaration <;> rfl

/-! ### Statements -/

/-- What the phrases around a statement are like: an empty block is a statement, and no
expression is an open one. -/
structure Surrounds (Stmt Expr : Phrase) : Prop where
  empty : ∀ l, ∃ ls, Stmt ls (.block [] l)
  closed : ∀ {ls e}, Expr ls e → e.isOpen = false

theorem nameClause_closed (around : Surrounds Stmt Expr) {ls : List Lexeme} {n : Node}
    (h : NameClause Expr ls n) : n.isOpen = false := by
  cases h with
  | step | assign => rfl
  | expression he => exact around.closed he

theorem body_forms (around : Surrounds Stmt Expr) (hs : FormsStatement statement Stmt) (c : Cursor) :
    Ensures (body statement) c fun n c' => (∃ ls, Stmt ls n) ∧ (n.isOpen → ¬c'.looksAt .keyword "else") := by
  unfold body
  refine .bind_eq rfl (.bind (hs c) fun n c1 found => .pure ?_)
  cases n with
  | none => exact ⟨around.empty _, by simp [Node.isOpen]⟩
  | some n => exact found n rfl

theorem condition_forms (he : Forms expression Expr) (c : Cursor) :
    Ensures (condition expression) c fun n _ => ∀ e ∈ n, ∃ ls, Expr ls e := by
  unfold condition
  exact .bind_eq rfl (.bind (he.phrase _) fun n c2 found => .bind_eq rfl (.pure found))

/-- The statement may be given as a result: it is a sentence, and no `else` is left. -/
def Finishes (Stmt Expr : Phrase) (n : Option Node) (c : Cursor) : Prop :=
  ∀ m ∈ n, (∃ ls, Sentence Stmt Expr ls m) ∧ (m.isOpen → ¬c.looksAt .keyword "else")

theorem Finishes.nothing (c : Cursor) : Finishes Stmt Expr none c := by
  simp [Finishes]

theorem Finishes.given {n : Node} {c : Cursor} (h : ∃ ls, Sentence Stmt Expr ls n)
    (last : n.isOpen → ¬c.looksAt .keyword "else") : Finishes Stmt Expr (some n) c := by
  rintro m ⟨⟩
  exact ⟨h, last⟩

theorem Finishes.closed {n : Node} {ls : List Lexeme} (h : Sentence Stmt Expr ls n) (closed : n.isOpen = false)
    (c : Cursor) : Finishes Stmt Expr (some n) c :=
  .given ⟨ls, h⟩ (by simp [closed])

theorem branchStatement_forms (around : Surrounds Stmt Expr) (hs : FormsStatement statement Stmt)
    (he : Forms expression Expr) (start : Location) (c : Cursor) :
    Ensures (branchStatement statement expression start) c (Finishes Stmt Expr) := by
  unfold branchStatement
  refine .bind_eq rfl (.bind (condition_forms he _) fun test c1 tested => ?_)
  refine .bind (body_forms around hs c1) fun onTrue c2 ⟨⟨ms, yes⟩, taken⟩ => ?_
  cases looks : c2.looksAt .keyword "else" with
  | true =>
    refine .bind_eq (by rw [accept, if_pos looks]) ?_
    refine .bind_map (body_forms around hs c2.advance) fun onFalse c3 ⟨⟨ns, no⟩, last⟩ => ?_
    cases test with
    | none => exact .bind_eq rfl (.pure (.nothing _))
    | some test =>
      obtain ⟨ls, phrase⟩ := tested test rfl
      -- an open statement would have taken this `else` for itself
      have closed : onTrue.isOpen = false := by
        cases isOpen : onTrue.isOpen with
        | false => rfl
        | true => exact absurd looks (taken isOpen)
      exact .pure (.given ⟨_, .branchElse start phrase yes closed no⟩ last)
  | false =>
    refine .bind_eq (by rw [accept, if_neg (by simp [looks])]) (.bind_eq rfl ?_)
    cases test with
    | none => exact .bind_eq rfl (.pure (.nothing _))
    | some test =>
      obtain ⟨ls, phrase⟩ := tested test rfl
      exact .pure (.given ⟨_, .branch start phrase yes⟩ fun _ => by simp [looks])

theorem whileStatement_forms (around : Surrounds Stmt Expr) (hs : FormsStatement statement Stmt)
    (he : Forms expression Expr) (start : Location) (c : Cursor) :
    Ensures (whileStatement statement expression start) c (Finishes Stmt Expr) := by
  unfold whileStatement
  refine .bind_eq rfl (.bind (condition_forms he _) fun test c1 tested => ?_)
  refine .bind (body_forms around hs c1) fun repeated c2 ⟨⟨ms, body⟩, last⟩ => ?_
  cases test with
  | none => exact .bind_eq rfl (.pure (.nothing _))
  | some test =>
    obtain ⟨ls, phrase⟩ := tested test rfl
    exact .pure (.given ⟨_, .whileLoop start phrase body⟩ last)

theorem nameStatement_forms (he : Forms expression Expr) {c : Cursor} (name : c.atName) :
    Ensures (nameStatement expression) c fun n _ => ∀ m ∈ n, ∃ ls, NameClause Expr ls m := by
  have plain : Ensures (nameStatement.plain expression) c fun n _ => ∀ m ∈ n, ∃ ls, NameClause Expr ls m := by
    unfold nameStatement.plain
    refine .bind (he c) fun n c1 found => .bind_eq rfl (.pure fun m hm => ?_)
    obtain ⟨ls, phrase, first⟩ := found m hm
    exact ⟨ls, nameClause_of_expression phrase (first name)⟩
  unfold nameStatement
  refine .bind_eq rfl ?_
  split
  · next target operator _ _ =>
    split
    · exact plain
    · next o _ =>
      refine .bind_eq rfl (.bind_eq rfl ?_)
      split
      · next isStep =>
        refine .bind_eq rfl (.pure ?_)
        rintro m ⟨⟩
        exact ⟨_, .step _ o _ isStep⟩
      · next isStep =>
        refine .bind (he.phrase _) fun value c1 found => ?_
        cases value with
        | none => exact .bind_eq rfl (.bind_eq rfl (.pure (by simp)))
        | some value =>
          obtain ⟨ls, phrase⟩ := found value rfl
          refine .bind_eq rfl (.pure ?_)
          rintro m ⟨⟩
          exact ⟨_, .assign _ o _ (by simpa using isStep) phrase⟩
  · exact plain

theorem forClause_forms (hs : FormsStatement statement Stmt) (he : Forms expression Expr) (c : Cursor) :
    Ensures (forInit.clause statement expression) c fun n _ =>
      ∀ m ∈ n, Declares Stmt Expr m ∨ ∃ ls, NameClause Expr ls m := by
  unfold forInit.clause
  refine .peek (fun _ => .bind_eq rfl (.bind_eq rfl (.pure (by simp)))) fun t ts hrest => ?_
  dsimp only
  split
  · next ht => exact (declaration_forms hs he hrest ht).mono fun _ _ found m hm => .inl (found m hm)
  split
  · next hk =>
    have name : c.atName := by simp [Cursor.atName_cons hrest, hk]
    exact (nameStatement_forms he name).mono fun _ _ found m hm => .inr (found m hm)
  · exact .bind_eq rfl (.pure (by simp))

/-- A declaration or clause with the semicolon behind it, or none. -/
theorem forInit_of_clause {init : Option Node}
    (h : ∀ m ∈ init, Declares Stmt Expr m ∨ ∃ ls, NameClause Expr ls m) : ∃ ls, ForInit Stmt Expr ls init := by
  cases init with
  | none => exact ⟨_, .none⟩
  | some m =>
    rcases h m rfl with ⟨ls, declaration, ends | ends⟩ | ⟨ls, clause⟩
    · exact ⟨ls, .declaration declaration ends⟩
    · exact ⟨_, .definition declaration ends⟩
    · exact ⟨_, .clause clause⟩

theorem forInit_forms (hs : FormsStatement statement Stmt) (he : Forms expression Expr) (c : Cursor) :
    Ensures (forInit statement expression) c fun n _ => ∃ ls, ForInit Stmt Expr ls n := by
  unfold forInit
  refine .bind (.any _ c) fun found c1 _ => ?_
  split
  · exact .pure ⟨_, .none⟩
  refine .bind (forClause_forms hs he c1) fun init c2 found => .bind_eq rfl ?_
  have whole := forInit_of_clause found
  split
  · split
    · exact .pure whole
    · exact .bind_eq rfl (.pure whole)
  · exact .pure whole

theorem forCondition_forms (he : Forms expression Expr) (c : Cursor) :
    Ensures (forCondition expression) c fun n _ => ∃ ls, Optional Expr ls n := by
  unfold forCondition
  refine .bind_eq rfl ?_
  split
  · exact .bind_eq rfl (.bind_eq rfl (.pure ⟨_, .none⟩))
  · exact .bind (he.phrase c) fun test c1 found => .bind_eq rfl (.pure (optional_of_all found))

theorem forUpdate_forms (he : Forms expression Expr) (c : Cursor) :
    Ensures (forUpdate expression) c fun n _ => ∃ ls, ForUpdate Expr ls n := by
  have plain : Ensures expression c fun n _ => ∃ ls, ForUpdate Expr ls n := by
    refine (he.phrase c).mono fun n _ found => ?_
    cases n with
    | none => exact ⟨_, .none⟩
    | some e =>
      obtain ⟨ls, phrase⟩ := found e rfl
      exact ⟨ls, forUpdate_of_expression phrase⟩
  have finish : ∀ update c1, (∃ ls, ForUpdate Expr ls update) →
      Ensures (closeGroup >>= fun _ => pure update) c1 fun n _ => ∃ ls, ForUpdate Expr ls n :=
    fun _ _ found => .bind_eq rfl (.pure found)
  unfold forUpdate
  refine .bind_eq rfl ?_
  split
  · exact .bind_eq rfl (finish none c ⟨_, .none⟩)
  · refine .peek (fun _ => .bind plain finish) fun t ts hrest => ?_
    dsimp only
    split
    · next hk =>
      have name : c.atName := by simp [Cursor.atName_cons hrest, hk]
      refine .bind (nameStatement_forms he name) fun update c1 found => finish update c1 ?_
      cases update with
      | none => exact ⟨_, .none⟩
      | some m =>
        obtain ⟨ls, clause⟩ := found m rfl
        exact ⟨ls, .clause clause⟩
    · exact .bind plain finish

theorem forStatement_forms (around : Surrounds Stmt Expr) (hs : FormsStatement statement Stmt)
    (he : Forms expression Expr) (start : Location) (c : Cursor) :
    Ensures (forStatement statement expression start) c fun n c' => Finishes Stmt Expr (some n) c' := by
  unfold forStatement
  refine .bind_eq rfl (.bind_eq rfl (.bind (forInit_forms hs he _) fun init c1 ⟨is, first⟩ => ?_))
  refine .bind (forCondition_forms he c1) fun test c2 ⟨ls, second⟩ => ?_
  refine .bind (forUpdate_forms he c2) fun update c3 ⟨us, third⟩ => ?_
  refine .bind (body_forms around hs c3) fun repeated c4 ⟨⟨ms, body⟩, last⟩ => .pure ?_
  exact .given ⟨_, .forLoop start first second third body⟩ last

theorem returnStatement_forms (he : Forms expression Expr) (start : Location) (c : Cursor) :
    Ensures (returnStatement expression start) c fun n c' => Finishes Stmt Expr (some n) c' := by
  have finish : ∀ (value : Option Node) (c1 : Cursor), (∀ e ∈ value, ∃ ls, Expr ls e) →
      Ensures (acceptDelimiter ";" >>= fun _ => pure (Node.ret value start)) c1
        fun n c' => Finishes Stmt Expr (some n) c' := by
    intro value c1 found
    obtain ⟨ls, phrase⟩ := optional_of_all found
    exact .bind_eq rfl (.pure (.closed (.ret start phrase) rfl _))
  unfold returnStatement
  refine .bind_eq rfl (.peek (fun _ => .bind_eq rfl (finish none _ (by simp))) fun t ts _ => ?_)
  dsimp only
  split
  · exact .bind_eq rfl (finish none _ (by simp))
  · exact .bind (he.phrase _) finish

theorem ioArguments_forms (he : Forms expression Expr) (c : Cursor) :
    Ensures (ioArguments expression) c fun args _ => ∃ ls, Arguments Expr ls args := by
  unfold ioArguments
  exact .bind_eq rfl (.bind (argumentList_forms he _) fun args c1 found => .bind_eq rfl (.pure found))

theorem skip_forms (t : Token) (c : Cursor) :
    Ensures (skip t >>= fun _ => pure none) c (Finishes Stmt Expr) :=
  .bind (.any _ c) fun _ c1 _ => .pure (.nothing c1)

theorem declaration_finishes (hs : FormsStatement statement Stmt) (he : Forms expression Expr) {c : Cursor}
    {t : Token} {ts : List Token} (hrest : c.rest = t :: ts) (ht : t.isType) :
    Ensures (declaration statement expression) c (Finishes Stmt Expr) := by
  refine (declaration_forms hs he hrest ht).mono fun n c' found m hm => ?_
  have declares := found m hm
  have closed := declares_closed declares
  obtain ⟨ls, declaration, -⟩ := declares
  exact ⟨⟨ls, .declaration declaration⟩, by simp [closed]⟩

theorem keywordStatement_forms (around : Surrounds Stmt Expr) (hs : FormsStatement statement Stmt)
    (he : Forms expression Expr) {c : Cursor} {t : Token} {ts : List Token} (hrest : c.rest = t :: ts) :
    Ensures (keywordStatement statement expression t) c (Finishes Stmt Expr) := by
  unfold keywordStatement
  split
  · next ht => exact declaration_finishes hs he hrest ht
  split
  · exact branchStatement_forms around hs he _ c
  split
  · exact whileStatement_forms around hs he _ c
  split
  · exact .map (forStatement_forms around hs he _ c) fun _ _ found => found
  split
  · exact .map (returnStatement_forms he _ c) fun _ _ found => found
  split
  · refine .bind (ioArguments_forms he c) fun args c1 ⟨ls, phrase⟩ => .pure ?_
    exact .closed (.printf _ phrase) rfl c1
  split
  · refine .bind (ioArguments_forms he c) fun args c1 ⟨ls, phrase⟩ => .pure ?_
    exact .closed (.scanf _ phrase) rfl c1
  · exact skip_forms t c

theorem directive_forms (t : Token) (c : Cursor) : Ensures (directive t) c (Finishes Stmt Expr) := by
  unfold directive
  refine .bind_eq rfl (.bind (.any _ _) fun found c1 _ => ?_)
  split
  · refine .bind (.any _ c1) fun library c2 _ => .pure ?_
    exact .closed (.inclusion library _) rfl c2
  · exact .bind_eq rfl (.bind (.any _ _) fun _ c2 _ => .pure (.nothing c2))

/-- A statement is a sentence over the statements and expressions that it calls for. -/
theorem statementFrom_forms (around : Surrounds Stmt Expr) (hs : FormsStatement statement Stmt)
    (he : Forms expression Expr) {c : Cursor} {t : Token} {ts : List Token} (hrest : c.rest = t :: ts) :
    Ensures (statementFrom statement expression t) c (Finishes Stmt Expr) := by
  unfold statementFrom
  split
  · split
    · exact directive_forms t c
    split
    · refine .bind (blockBody_forms hs c) fun body c1 ⟨ls, items⟩ => .pure ?_
      exact .closed (.block _ items) rfl c1
    · exact skip_forms t c
  · exact keywordStatement_forms around hs he hrest
  · next hk =>
    have name : c.atName := by simp [Cursor.atName_cons hrest, hk]
    refine (nameStatement_forms he name).mono fun n c' found m hm => ?_
    obtain ⟨ls, clause⟩ := found m hm
    exact ⟨⟨_, .clause clause⟩, by simp [nameClause_closed around clause]⟩
  · exact skip_forms t c

end

/-! ### Programs -/

theorem tier_closed {P : Phrase} (h : ∀ {ls e}, P ls e → e.isOpen = false) {k : Nat} {ls : List Lexeme}
    {e : Node} (he : Tier P k ls e) : e.isOpen = false := by
  induction he with
  | operand he => exact h he
  | lift _ ih => exact ih
  | binary => rfl

/-- No expression is an open statement. -/
theorem operand_closed (levels : Nat) {ls : List Lexeme} {e : Node} (h : Operand levels ls e) :
    e.isOpen = false := by
  induction levels generalizing ls e with
  | zero => exact h.elim
  | succ levels ih =>
    cases h with
    | primary h =>
      cases h with
      | group he => exact tier_closed ih he
      | _ => rfl
    | negation | address => rfl

theorem surrounds (levels : Nat) : Surrounds (Grammar.Statement (levels + 1)) (Expression (levels + 1)) where
  empty l := ⟨_, .block l .nil⟩
  closed := tier_closed (operand_closed (levels + 1))

/-- **Every statement that is read is one of the grammar**, with one level more for the
empty body of a loop. -/
theorem statement_forms : ∀ levels, FormsStatement (statement levels) (Grammar.Statement (levels + 1))
  | 0 => fun c => (tooDeep_none c).mono fun n _ none => by simp [none]
  | levels + 1 => by
    intro c
    unfold statement
    refine .peek (fun _ => .pure (by simp)) fun t ts hrest => .nested ?_
    have he : Forms (expression levels) (Expression (levels + 1)) :=
      (expression_forms levels).imp (expression_succ levels)
    exact statementFrom_forms (c := { c with depth := c.depth + 1 }) (surrounds levels) (statement_forms levels) he
      hrest

/-- **The tree of a program is one of the grammar**, whatever the tokens are. -/
theorem program_forms (c : Cursor) :
    Ensures program c fun n _ => ∃ ls ns, n = .program ns ∧ Many (Grammar.Statement (maxNesting + 1)) ls ns := by
  have each (c : Cursor) : Ensures (statement maxNesting) c fun n _ =>
      ∀ m ∈ n, ∃ ls, Grammar.Statement (maxNesting + 1) ls m :=
    (statement_forms maxNesting c).mono fun _ _ found m hm => (found m hm).1
  unfold program
  refine .bind (collectUntil_all each c) fun body c1 all => .pure ?_
  obtain ⟨ls, items⟩ := many_of_all all
  exact ⟨ls, body, rfl, items⟩

end Parse

end MiniC
