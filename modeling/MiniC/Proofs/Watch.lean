/-
# Watching the parser at work

An invariant of the parser is a property of cursors that is kept when a token is taken
and when a report is made, and that the levels of nesting hand down and back
(`Levelled`). To say that it holds at every call during a run and not only at its end,
the parser is watched: at each call and each return of an operand, an expression or
a statement, and at both ends of each level, a function may change the cursor. If it
changes no cursor that has the property, the watched parser does what the parser does
(`statement_watched`), so the run never comes to another one.

`Alike I p q` says that `p` and `q` do the same on cursors with `I` and leave one with
`I`. It is kept by all the ways in which parsers are put together, so each parser has one
lemma, which passes it on from the parsers it calls.

Key definitions: `Kept`, `Levelled`, `Alike`, `watched`, `statementWatched`, `programWatched`.
Key theorems: `operand_watched`, `statement_watched`, `program_watched`.
-/
import MiniC.Proofs.Run

namespace MiniC
namespace Parse

variable {α β : Type}

/-! ### Properties that single moves keep -/

/-- Taking a token and making a report keep the property. -/
structure Kept (I : Cursor → Prop) : Prop where
  advance {c : Cursor} : I c → I c.advance
  report {c : Cursor} (problem : SyntaxProblem) (l : Location) : I c → I (c.report problem l)

/-- A run of tokens is taken one at a time. -/
theorem skipWhile_step {c : Cursor} {t : Token} {ts : List Token} (h : c.rest = t :: ts) {p : Token → Bool}
    (ht : p t) : c.skipWhile p = c.advance.skipWhile p := by
  rw [Cursor.advance_rest h]
  simp [Cursor.skipWhile, h, ht, List.getLast?_cons]

theorem skipWhile_stay {c : Cursor} {p : Token → Bool} (h : c.rest.takeWhile p = []) : c.skipWhile p = c := by
  have same : c.rest.dropWhile p = c.rest := by
    simpa [h] using List.takeWhile_append_dropWhile (p := p) (l := c.rest)
  rw [Cursor.skipWhile, h, same]
  rfl

namespace Kept

variable {I : Cursor → Prop} (h : Kept I)

include h

theorem skipWhile (p : Token → Bool) {c : Cursor} (hc : I c) : I (c.skipWhile p) := by
  induction hrest : c.rest generalizing c with
  | nil => rwa [skipWhile_stay (by rw [hrest]; rfl)]
  | cons t ts ih =>
    by_cases ht : p t
    · rw [skipWhile_step hrest ht]
      exact ih (h.advance hc) (by rw [Cursor.advance_rest hrest])
    · rwa [skipWhile_stay (by rw [hrest, List.takeWhile_cons_of_neg ht])]

theorem skipLeftovers {c : Cursor} (hc : I c) : I c.skipLeftovers := by
  unfold Cursor.skipLeftovers
  generalize Cursor.leftovers 0 c.rest = ts
  induction ts generalizing c with
  | nil => exact hc
  | cons t ts ih => exact ih (h.report _ _ (h.advance hc))

theorem closeGroup {c : Cursor} (hc : I c) : I c.closeGroup := by
  unfold Cursor.closeGroup
  dsimp only
  split
  · exact h.advance (h.skipLeftovers hc)
  · exact h.skipLeftovers hc

end Kept

/-! ### Parsers that do the same on some cursors -/

/-- The parsers do the same on every cursor with `I`, and the cursor that they leave has `I`. -/
def Alike (I : Cursor → Prop) (p q : Parse α) : Prop := ∀ c, I c → p c = q c ∧ I (p c).2

namespace Alike

variable {I J : Cursor → Prop} {p q : Parse α}

theorem pure (a : α) : Alike I (Pure.pure a) (Pure.pure a) :=
  fun _ hc => ⟨rfl, hc⟩

theorem bind {f g : α → Parse β} (h : Alike I p q) (next : ∀ a, Alike I (f a) (g a)) :
    Alike I (p >>= f) (q >>= g) := by
  intro c hc
  obtain ⟨same, hc'⟩ := h c hc
  rw [bind_apply, bind_apply, ← same]
  exact next _ _ hc'

theorem map (f : α → β) (h : Alike I p q) : Alike I (f <$> p) (f <$> q) := by
  intro c hc
  obtain ⟨same, hc'⟩ := h c hc
  rw [map_apply, map_apply, ← same]
  exact ⟨rfl, hc'⟩

theorem ite {P : Prop} [Decidable P] {p' q' : Parse α} (h : Alike I p q) (h' : Alike I p' q') :
    Alike I (if P then p else p') (if P then q else q') := by
  split
  · exact h
  · exact h'

/-- A parser that only looks. -/
theorem look (h : ∀ c, (p c).2 = c) : Alike I p p := by
  intro c hc
  rw [h]
  exact ⟨rfl, hc⟩

theorem peek : Alike I Parse.peek Parse.peek :=
  .look fun _ => rfl

theorem here : Alike I Parse.here Parse.here :=
  .look fun _ => rfl

theorem looksAt (kind : Token.Kind) (text : String) :
    Alike I (Parse.looksAt kind text) (Parse.looksAt kind text) :=
  .look fun _ => rfl

section

variable (kept : Kept I)

include kept

theorem advance : Alike I Parse.advance Parse.advance :=
  fun _ hc => ⟨rfl, kept.advance hc⟩

theorem report (problem : SyntaxProblem) (l : Location) :
    Alike I (Parse.report problem l) (Parse.report problem l) :=
  fun _ hc => ⟨rfl, kept.report problem l hc⟩

theorem accept (kind : Token.Kind) (text : String) :
    Alike I (Parse.accept kind text) (Parse.accept kind text) := by
  refine fun c hc => ⟨rfl, ?_⟩
  unfold Parse.accept
  split
  · exact kept.advance hc
  · exact hc

theorem acceptKind (kind : Token.Kind) : Alike I (Parse.acceptKind kind) (Parse.acceptKind kind) := by
  refine fun c hc => ⟨rfl, ?_⟩
  unfold Parse.acceptKind
  split
  · exact hc
  · split
    · exact kept.advance hc
    · exact hc

theorem takeWhile (p : Token → Bool) : Alike I (Parse.takeWhile p) (Parse.takeWhile p) :=
  fun _ hc => ⟨rfl, kept.skipWhile p hc⟩

theorem closeGroup : Alike I Parse.closeGroup Parse.closeGroup :=
  fun _ hc => ⟨rfl, kept.closeGroup hc⟩

end

/-- A loop, round by round. -/
theorem collectUntil (stop : Token → Bool) {p q : Parse (Option α)} (h : Alike I p q) :
    Alike I (Parse.collectUntil stop p) (Parse.collectUntil stop q) := by
  intro c hc
  show collectUntil.go stop p c = collectUntil.go stop q c ∧ I (collectUntil.go stop p c).2
  induction hn : c.rest.length using Nat.strongRecOn generalizing c with
  | ind n ih =>
    obtain ⟨same, hc'⟩ := h c hc
    rw [collectUntil.go.eq_def stop p c, collectUntil.go.eq_def stop q c, ← same]
    split
    · exact ⟨rfl, hc⟩
    · split
      · exact ⟨rfl, hc⟩
      · by_cases shorter : (p c).2.rest.length < c.rest.length
        · obtain ⟨sameMore, hc''⟩ := ih _ (hn ▸ shorter) _ hc' rfl
          simp only [shorter, if_true, ← sameMore]
          exact ⟨trivial, hc''⟩
        · simp only [shorter, if_false]
          exact ⟨trivial, hc'⟩

theorem chain (level : Nat) {p q : Parse (Option Node)} (h : Alike I p q) (kept : Kept I) (left : Node) :
    Alike I (Parse.chain level p left) (Parse.chain level q left) := by
  intro c hc
  show chain.go level p left c = chain.go level q left c ∧ I (chain.go level p left c).2
  induction hn : c.rest.length using Nat.strongRecOn generalizing c left with
  | ind n ih =>
    obtain ⟨same, hc'⟩ := h c.advance (kept.advance hc)
    rw [chain.go.eq_def level p left c, chain.go.eq_def level q left c, ← same]
    split
    · exact ⟨rfl, hc⟩
    · split
      · exact ⟨rfl, hc⟩
      · next t _ _ _ op _ =>
        cases hright : (p c.advance).1 with
        | none =>
          simp only [hright]
          exact ⟨trivial, kept.report _ _ hc'⟩
        | some right =>
          by_cases shorter : (p c.advance).2.rest.length < c.rest.length
          · have more := ih _ (hn ▸ shorter) (.binary op left right t.location) _ hc' rfl
            simpa only [hright, shorter, if_true] using more
          · simp only [hright, shorter, if_false]
            exact ⟨trivial, hc'⟩

theorem argumentsOver {p q : Parse (Option Node)} (h : Alike I p q) (kept : Kept I) :
    Alike I (Parse.argumentsOver p) (Parse.argumentsOver q) := by
  intro c hc
  show argumentsOver.go p c = argumentsOver.go q c ∧ I (argumentsOver.go p c).2
  induction hn : c.rest.length using Nat.strongRecOn generalizing c with
  | ind n ih =>
    obtain ⟨same, hc'⟩ := h c hc
    rw [argumentsOver.go.eq_def p c, argumentsOver.go.eq_def q c, ← same]
    cases hfound : (p c).1 with
    | none =>
      simp only [hfound]
      exact ⟨trivial, hc'⟩
    | some arg =>
      by_cases comma : (p c).2.looksAt .delimiter ","
      · by_cases shorter : (p c).2.advance.rest.length < c.rest.length
        · obtain ⟨sameMore, hc''⟩ := ih _ (hn ▸ shorter) _ (kept.advance hc') rfl
          simp only [hfound, comma, shorter, if_true, ← sameMore]
          exact ⟨trivial, hc''⟩
        · simp only [hfound, comma, shorter, if_true, if_false]
          exact ⟨trivial, kept.advance hc'⟩
      · simp only [hfound, comma, Bool.false_eq_true, if_false]
        exact ⟨trivial, hc'⟩

/-- Inside a level another property may hold, if it is handed down and back. -/
theorem nested (opened : ∀ c, I c → J { c with depth := c.depth + 1 })
    (closed : ∀ c c', I c → J c' → I { c' with depth := c'.depth - 1 }) (h : Alike J p q) :
    Alike I (Parse.nested p) (Parse.nested q) := by
  intro c hc
  obtain ⟨same, hc'⟩ := h _ (opened c hc)
  unfold Parse.nested
  rw [← same]
  exact ⟨rfl, closed c _ hc hc'⟩

end Alike

/-! ### Expressions -/

section

variable {I : Cursor → Prop} (kept : Kept I)

include kept

theorem tooDeep_alike : Alike I tooDeep tooDeep := by
  refine .bind .peek fun t => ?_
  cases t with
  | none => exact .pure none
  | some t => exact .bind (.advance kept) fun _ => .bind (.report kept _ _) fun _ => .pure none

theorem skip_alike (t : Token) : Alike I (skip t) (skip t) := by
  refine .bind (.advance kept) fun _ => ?_
  exact .ite (.pure _) (.report kept _ _)

variable {p q : Parse (Option Node)} (h : Alike I p q)

include h

theorem binaryLevel_alike (level : Nat) : Alike I (binaryLevel level p) (binaryLevel level q) := by
  refine .bind h fun left => ?_
  cases left with
  | none => exact .pure none
  | some left => exact .bind (.chain level h kept left) fun _ => .pure _

theorem tier_alike : ∀ k, Alike I (tier p k) (tier q k)
  | 0 => h
  | k + 1 => binaryLevel_alike kept (tier_alike k) (6 - k)

theorem argumentList_alike : Alike I (argumentList p) (argumentList q) := by
  refine .bind (.accept kept _ _) fun _ => .bind (.looksAt _ _) fun closes => .ite ?_ ?_
  · exact .bind (.pure []) fun _ => .bind (.closeGroup kept) fun _ => .pure _
  · exact .bind (.argumentsOver h kept) fun _ => .bind (.closeGroup kept) fun _ => .pure _

theorem primary_alike : Alike I (primary p) (primary q) := by
  refine .bind .peek fun t => ?_
  cases t with
  | none => exact .pure none
  | some t =>
    obtain ⟨kind, text, l⟩ := t
    cases kind with
    | number | string => exact .bind (.advance kept) fun _ => .pure _
    | identifier =>
      refine .bind (.advance kept) fun _ => .bind (.looksAt _ _) fun opens => ?_
      exact .ite (.bind (argumentList_alike kept h) fun _ => .pure _) (.pure _)
    | delimiter =>
      refine .ite (.bind (.advance kept) fun _ => .bind h fun _ => ?_) (.pure none)
      exact .bind (.closeGroup kept) fun _ => .pure _
    | _ => exact .pure none

theorem prefixed_alike : Alike I (prefixed p) (prefixed q) := by
  refine .bind .peek fun t => ?_
  cases t with
  | none => exact .pure none
  | some t =>
    have primary := primary_alike kept (tier_alike kept h 6)
    refine .ite ?_ primary
    cases UnaryOp.ofSymbol? t.spelling with
    | none => exact .pure none
    | some op =>
      refine .bind (.advance kept) fun _ => .ite (.bind primary fun inner => ?_) (.bind h fun inner => ?_)
      all_goals
        cases inner with
        | none => exact .bind (.report kept _ _) fun _ => .pure none
        | some inner => exact .pure _

end

/-! ### Declarations and statements -/

section

variable {I : Cursor → Prop} (kept : Kept I)

include kept

theorem skipLine_alike (line : Nat) : Alike I (skipLine line) (skipLine line) :=
  .bind (.takeWhile kept _) fun _ => .pure _

theorem library_alike (line : Nat) : Alike I (library line) (library line) := by
  refine .bind (.acceptKind kept _) fun quoted => ?_
  cases quoted with
  | some t => exact .pure _
  | none =>
    refine .bind (.accept kept _ _) fun opens => .ite ?_ ?_
    · exact .bind (.takeWhile kept _) fun _ => .bind (.accept kept _ _) fun _ => .pure _
    · refine .bind .here fun _ => .bind (.report kept _ _) fun _ => ?_
      exact .bind (skipLine_alike kept line) fun _ => .pure _

theorem directive_alike (hash : Token) : Alike I (directive hash) (directive hash) := by
  refine .bind (.advance kept) fun _ => .bind (.accept kept _ _) fun _ => .ite ?_ ?_
  · exact .bind (library_alike kept _) fun _ => .pure _
  · exact .bind (.report kept _ _) fun _ => .bind (skipLine_alike kept _) fun _ => .pure none

theorem typeName_alike : Alike I typeName typeName :=
  .bind (.takeWhile kept _) fun _ => .pure _

theorem parameter_alike : Alike I parameter parameter := by
  refine .bind .peek fun t => ?_
  cases t with
  | none => exact .pure none
  | some t =>
    refine .ite (.bind (.advance kept) fun _ => .pure none) (.ite ?_ ?_)
    · refine .bind (typeName_alike kept) fun type => .bind (.acceptKind kept _) fun name => ?_
      cases name with
      | some name => exact .pure _
      | none =>
        refine .bind (.looksAt _ _) fun closes => ?_
        exact .ite (.pure none) (.bind (.report kept _ _) fun _ => .pure none)
    · exact .bind (.advance kept) fun _ => .bind (.report kept _ _) fun _ => .pure none

theorem parameters_alike : Alike I parameters parameters := by
  refine .bind (.accept kept _ _) fun _ => .bind (.collectUntil _ (parameter_alike kept)) fun _ => ?_
  exact .bind (.accept kept _ _) fun _ => .pure _

theorem skipDeclarators_alike (name : Token) : Alike I (skipDeclarators name) (skipDeclarators name) := by
  refine .bind (.looksAt _ _) fun more => .ite ?_ (.pure _)
  refine .bind .here fun _ => .bind (.report kept _ _) fun _ => ?_
  exact .bind (.takeWhile kept _) fun _ => .pure _

variable {s s' e e' : Parse (Option Node)}

theorem blockBody_alike (hs : Alike I s s') : Alike I (blockBody s) (blockBody s') := by
  refine .bind (.accept kept _ _) fun _ => .bind (.collectUntil _ hs) fun _ => ?_
  exact .bind (.accept kept _ _) fun _ => .pure _

theorem functionRest_alike (hs : Alike I s s') (type : String) (name : Token) :
    Alike I (functionRest s type name) (functionRest s' type name) := by
  refine .bind (parameters_alike kept) fun _ => .bind (.looksAt _ _) fun opens => .ite ?_ ?_
  · exact .bind (blockBody_alike kept hs) fun _ => .pure _
  · exact .bind (.accept kept _ _) fun _ => .pure _

theorem initializer_alike (he : Alike I e e') (name : Token) :
    Alike I (initializer e name) (initializer e' name) := by
  refine .bind (.accept kept _ _) fun equals => .ite (.bind he fun value => ?_) (.pure none)
  cases value with
  | some value => exact .pure _
  | none => exact .bind (.report kept _ _) fun _ => .pure none

theorem variableRest_alike (he : Alike I e e') (type : String) (name : Token) :
    Alike I (variableRest e type name) (variableRest e' type name) := by
  refine .bind (initializer_alike kept he name) fun _ => .bind (skipDeclarators_alike kept name) fun _ => ?_
  exact .bind (.accept kept _ _) fun _ => .pure _

theorem declaration_alike (hs : Alike I s s') (he : Alike I e e') :
    Alike I (declaration s e) (declaration s' e') := by
  refine .bind .here fun _ => .bind (typeName_alike kept) fun type => .bind (.acceptKind kept _) fun name => ?_
  cases name with
  | none => exact .bind (.report kept _ _) fun _ => .pure none
  | some name =>
    refine .bind (.looksAt _ _) fun opens => .ite ?_ ?_
    · exact .bind (functionRest_alike kept hs type name) fun _ => .pure _
    · exact .bind (variableRest_alike kept he type name) fun _ => .pure _

omit kept in
theorem body_alike (hs : Alike I s s') : Alike I (body s) (body s') :=
  .bind .here fun _ => .bind hs fun _ => .pure _

theorem condition_alike (he : Alike I e e') : Alike I (condition e) (condition e') :=
  .bind (.accept kept _ _) fun _ => .bind he fun _ => .bind (.closeGroup kept) fun _ => .pure _

theorem branchStatement_alike (hs : Alike I s s') (he : Alike I e e') (start : Location) :
    Alike I (branchStatement s e start) (branchStatement s' e' start) := by
  refine .bind (.advance kept) fun _ => .bind (condition_alike kept he) fun test => ?_
  refine .bind (body_alike hs) fun onTrue => .bind (.accept kept _ _) fun otherwise => ?_
  refine .ite (.bind (.map some (body_alike hs)) fun onFalse => ?_) (.bind (.pure none) fun onFalse => ?_)
  all_goals
    cases test with
    | some test => exact .pure _
    | none => exact .bind (.report kept _ _) fun _ => .pure none

theorem whileStatement_alike (hs : Alike I s s') (he : Alike I e e') (start : Location) :
    Alike I (whileStatement s e start) (whileStatement s' e' start) := by
  refine .bind (.advance kept) fun _ => .bind (condition_alike kept he) fun test => ?_
  refine .bind (body_alike hs) fun repeated => ?_
  cases test with
  | some test => exact .pure _
  | none => exact .bind (.report kept _ _) fun _ => .pure none

theorem nameStatement_alike (he : Alike I e e') : Alike I (nameStatement e) (nameStatement e') := by
  have plain : Alike I (nameStatement.plain e) (nameStatement.plain e') :=
    .bind he fun _ => .bind (.accept kept _ _) fun _ => .pure _
  refine .bind (.look fun _ => rfl) fun c => ?_
  split
  · next target operator _ _ =>
    split
    · exact plain
    · next op _ =>
      refine .bind (.advance kept) fun _ => .bind (.advance kept) fun _ => .ite ?_ (.bind he fun value => ?_)
      · exact .bind (.accept kept _ _) fun _ => .pure _
      · cases value with
        | some value => exact .bind (.accept kept _ _) fun _ => .pure _
        | none => exact .bind (.report kept _ _) fun _ => .bind (.accept kept _ _) fun _ => .pure none
  · exact plain

theorem forInit_alike (hs : Alike I s s') (he : Alike I e e') : Alike I (forInit s e) (forInit s' e') := by
  have clause : Alike I (forInit.clause s e) (forInit.clause s' e') := by
    refine .bind .peek fun t => ?_
    cases t with
    | none => exact .bind .here fun _ => .bind (.report kept _ _) fun _ => .pure none
    | some t =>
      refine .ite (declaration_alike kept hs he) (.ite (nameStatement_alike kept he) ?_)
      exact .bind (.report kept _ _) fun _ => .pure none
  refine .bind (.accept kept _ _) fun none? => .ite (.pure none) (.bind clause fun init => ?_)
  refine .bind (.look fun _ => rfl) fun c => ?_
  cases c.last with
  | none => exact .pure init
  | some t => exact .ite (.pure init) (.bind (.accept kept _ _) fun _ => .pure init)

theorem forCondition_alike (he : Alike I e e') : Alike I (forCondition e) (forCondition e') := by
  refine .bind (.looksAt _ _) fun none? => .ite ?_ (.bind he fun _ => ?_)
  · exact .bind (.pure none) fun _ => .bind (.accept kept _ _) fun _ => .pure _
  · exact .bind (.accept kept _ _) fun _ => .pure _

theorem forUpdate_alike (he : Alike I e e') : Alike I (forUpdate e) (forUpdate e') := by
  have close (update : Option Node) : Alike I (do closeGroup; return update) (do closeGroup; return update) :=
    .bind (.closeGroup kept) fun _ => .pure update
  refine .bind (.looksAt _ _) fun none? => .ite (.bind (.pure none) close) (.bind .peek fun t => ?_)
  cases t with
  | none => exact .bind he close
  | some t => exact .ite (.bind (nameStatement_alike kept he) close) (.bind he close)

theorem forStatement_alike (hs : Alike I s s') (he : Alike I e e') (start : Location) :
    Alike I (forStatement s e start) (forStatement s' e' start) := by
  refine .bind (.advance kept) fun _ => .bind (.accept kept _ _) fun _ => ?_
  refine .bind (forInit_alike kept hs he) fun _ => .bind (forCondition_alike kept he) fun _ => ?_
  exact .bind (forUpdate_alike kept he) fun _ => .bind (body_alike hs) fun _ => .pure _

theorem returnStatement_alike (he : Alike I e e') (start : Location) :
    Alike I (returnStatement e start) (returnStatement e' start) := by
  refine .bind (.advance kept) fun _ => .bind .peek fun t => ?_
  cases t with
  | none => exact .bind (.pure none) fun _ => .bind (.accept kept _ _) fun _ => .pure _
  | some t =>
    refine .ite ?_ (.bind he fun _ => ?_)
    · exact .bind (.pure none) fun _ => .bind (.accept kept _ _) fun _ => .pure _
    · exact .bind (.accept kept _ _) fun _ => .pure _

theorem ioArguments_alike (he : Alike I e e') : Alike I (ioArguments e) (ioArguments e') := by
  refine .bind (.advance kept) fun _ => .bind (argumentList_alike kept he) fun _ => ?_
  exact .bind (.accept kept _ _) fun _ => .pure _

theorem keywordStatement_alike (hs : Alike I s s') (he : Alike I e e') (t : Token) :
    Alike I (keywordStatement s e t) (keywordStatement s' e' t) := by
  refine .ite (declaration_alike kept hs he) (.ite (branchStatement_alike kept hs he _) ?_)
  refine .ite (whileStatement_alike kept hs he _) (.ite (.map some (forStatement_alike kept hs he _)) ?_)
  refine .ite (.map some (returnStatement_alike kept he _)) (.ite ?_ (.ite ?_ ?_))
  · exact .bind (ioArguments_alike kept he) fun _ => .pure _
  · exact .bind (ioArguments_alike kept he) fun _ => .pure _
  · exact .bind (skip_alike kept t) fun _ => .pure none

theorem statementFrom_alike (hs : Alike I s s') (he : Alike I e e') (t : Token) :
    Alike I (statementFrom s e t) (statementFrom s' e' t) := by
  have skipped : Alike I (do skip t; return none) (do skip t; return (none : Option Node)) :=
    .bind (skip_alike kept t) fun _ => .pure none
  unfold statementFrom
  split
  · refine .ite (directive_alike kept t) (.ite ?_ skipped)
    exact .bind (blockBody_alike kept hs) fun _ => .pure _
  · exact keywordStatement_alike kept hs he t
  · exact nameStatement_alike kept he
  · exact skipped

end

/-! ### Watching -/

/-- The parser, with the cursor changed by `f` at its call and at its return. -/
def watched (f : Cursor → Cursor) (p : Parse α) : Parse α := fun c =>
  let found := p (f c)
  (found.1, f found.2)

/-- The operand, watched at both ends of each operand and of what stands in its level. -/
def operandWatched (f : Nat → Cursor → Cursor) : (levels : Nat) → Parse (Option Node)
  | 0 => watched (f 0) tooDeep
  | levels + 1 => watched (f (levels + 1)) (nested (watched (f levels) (prefixed (operandWatched f levels))))

def expressionWatched (f : Nat → Cursor → Cursor) (levels : Nat) : Parse (Option Node) :=
  watched (f levels) (expressionOver (operandWatched f levels))

/-- The statement, watched at both ends of each statement, expression and operand and of
what stands in a level. -/
def statementWatched (f : Nat → Cursor → Cursor) : (levels : Nat) → Parse (Option Node)
  | 0 => watched (f 0) tooDeep
  | levels + 1 => watched (f (levels + 1)) do
    match ← peek with
    | none => return none
    | some t =>
      nested (watched (f levels) (statementFrom (statementWatched f levels) (expressionWatched f levels) t))

def programWatched (f : Nat → Cursor → Cursor) : Parse Node := watched (f maxNesting) do
  let body ← collectUntil (fun _ => false) (statementWatched f maxNesting)
  return .program body

/-- A property of cursors for each number of levels that are left: single moves keep it,
and a level hands it down when it is opened and back when it is closed. -/
structure Levelled (I : Nat → Cursor → Prop) : Prop where
  kept (levels : Nat) : Kept (I levels)
  opened {levels : Nat} (c : Cursor) : I (levels + 1) c → I levels { c with depth := c.depth + 1 }
  closed {levels : Nat} (c c' : Cursor) :
    I (levels + 1) c → I levels c' → I (levels + 1) { c' with depth := c'.depth - 1 }

theorem Alike.watched {I : Cursor → Prop} {p q : Parse α} {f : Cursor → Cursor} (quiet : ∀ c, I c → f c = c)
    (h : Alike I p q) : Alike I (watched f p) q := by
  intro c hc
  obtain ⟨same, hc'⟩ := h c hc
  unfold Parse.watched
  dsimp only
  rw [quiet c hc, quiet _ hc']
  exact ⟨same, hc'⟩

section

variable {I : Nat → Cursor → Prop} {f : Nat → Cursor → Cursor} (level : Levelled I)
  (quiet : ∀ levels c, I levels c → f levels c = c)

include level quiet

theorem operand_watched : ∀ levels, Alike (I levels) (operandWatched f levels) (operand levels)
  | 0 => (tooDeep_alike (level.kept 0)).watched (quiet 0)
  | levels + 1 =>
    have inside := prefixed_alike (level.kept levels) (operand_watched levels)
    (Alike.nested level.opened level.closed (inside.watched (quiet levels))).watched (quiet (levels + 1))

theorem expression_watched (levels : Nat) :
    Alike (I levels) (expressionWatched f levels) (expression levels) :=
  (tier_alike (level.kept levels) (operand_watched level quiet levels) 6).watched (quiet levels)

/-- **A watch that leaves cursors with an invariant alone sees no others.** -/
theorem statement_watched : ∀ levels, Alike (I levels) (statementWatched f levels) (statement levels)
  | 0 => (tooDeep_alike (level.kept 0)).watched (quiet 0)
  | levels + 1 => by
    refine .watched (quiet (levels + 1)) (.bind .peek fun t => ?_)
    cases t with
    | none => exact .pure none
    | some t =>
      have inside := statementFrom_alike (level.kept levels) (statement_watched levels)
        (expression_watched level quiet levels) t
      exact .nested level.opened level.closed (inside.watched (quiet levels))

theorem program_watched : Alike (I maxNesting) (programWatched f) program := by
  refine .watched (quiet maxNesting) (.bind ?_ fun body => .pure _)
  exact .collectUntil _ (statement_watched level quiet maxNesting)

end

namespace Levelled

variable {I J : Nat → Cursor → Prop}

theorem and (h : Levelled I) (h' : Levelled J) : Levelled fun levels c => I levels c ∧ J levels c where
  kept levels := {
    advance := fun ⟨hc, hc'⟩ => ⟨(h.kept levels).advance hc, (h'.kept levels).advance hc'⟩
    report := fun problem l ⟨hc, hc'⟩ => ⟨(h.kept levels).report problem l hc, (h'.kept levels).report problem l hc'⟩ }
  opened c := fun ⟨hc, hc'⟩ => ⟨h.opened c hc, h'.opened c hc'⟩
  closed c d := fun ⟨hc, hc'⟩ ⟨hd, hd'⟩ => ⟨h.closed c d hc hd, h'.closed c d hc' hd'⟩

/-- Operands keep the property, as a watch that changes nothing shows. -/
theorem operand (h : Levelled I) (levels : Nat) {c : Cursor} (hc : I levels c) :
    I levels (Parse.operand levels c).2 := by
  obtain ⟨same, kept⟩ := operand_watched h (f := fun _ c => c) (fun _ _ _ => rfl) levels c hc
  rwa [same] at kept

theorem statement (h : Levelled I) (levels : Nat) {c : Cursor} (hc : I levels c) :
    I levels (Parse.statement levels c).2 := by
  obtain ⟨same, kept⟩ := statement_watched h (f := fun _ c => c) (fun _ _ _ => rfl) levels c hc
  rwa [same] at kept

theorem program (h : Levelled I) {c : Cursor} (hc : I maxNesting c) : I maxNesting (Parse.program c).2 := by
  obtain ⟨same, kept⟩ := program_watched h (f := fun _ c => c) (fun _ _ _ => rfl) c hc
  rwa [same] at kept

end Levelled

end Parse
end MiniC
