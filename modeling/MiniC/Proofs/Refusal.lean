/-
# Expressions that are not there

An expression gives nothing if no operand starts at the cursor, and then the cursor stays
where it is. It also gives nothing behind a prefix operator or an opened group where no
operand follows, and then the operator or the parenthesis has been taken: a prefix
operator is reported, a group is closed as any other group and may leave no report at
all. `refusal` follows such a row of operators and parentheses token by token, without
tiers, chains and levels.

As long as no level is refused, an expression gives nothing exactly where `refusal` says
so, and leaves the cursor where it says (`Refuses`). Each parser below an expression has one
lemma, which passes this on from the parsers it calls.

Key definitions: `Token.startsOperand`, `Diagnostic.isNesting`, `Parse.refusal`, `Parse.Refuses`.
Key theorems: `Parse.refusal_eq_self_iff`, `Parse.prefixed_refuses`, `Parse.operand_refuses`,
`Parse.expression_refusal`.
-/
import MiniC.Proofs.Watch

namespace MiniC

/-- The prefix operator that the token is. -/
def Token.prefixOperator? (t : Token) : Option UnaryOp :=
  if t.kind = .operator then UnaryOp.ofSymbol? t.spelling else none

/-- A literal, a name, a call or a group starts with the token. -/
def Token.startsPrimary (t : Token) : Bool :=
  t.kind = .number || t.kind = .string || t.kind = .identifier || t.is .delimiter "("

/-- An operand starts with the token. -/
def Token.startsOperand (t : Token) : Bool := t.prefixOperator?.isSome || t.startsPrimary

/-- The message tells that no more levels may be opened. -/
def Diagnostic.isNesting (d : Diagnostic) : Bool := "Nesting deeper than ".toList.isPrefixOf d.message.toList

/-- The cursor with another counter of levels. -/
def Cursor.atDepth (c : Cursor) (d : Nat) : Cursor := { c with depth := d }

/-- How often the cap was met so far. -/
def Cursor.refusedLevels (c : Cursor) : Nat := c.log.countP Diagnostic.isNesting

namespace Parse

/-- Where the cursor `c`, with the tokens `ts` ahead, is left by a reader of operands that
finds none; nothing if it finds one. -/
def refusal : (ts : List Token) → (c : Cursor) → Option Cursor
  | [], c => some c
  | t :: ts, c =>
    match t.prefixOperator? with
    | some op =>
      -- behind an address stands no further operator
      if op = .addressOf && ts.head?.any (·.kind = .operator) then
        some (c.advance.report (.missingOperand op) t.location)
      else (refusal ts c.advance).map (·.report (.missingOperand op) t.location)
    | none =>
      if t.is .delimiter "(" then (refusal ts c.advance).map Cursor.closeGroup
      else if t.startsPrimary then none
      else some c

/-! ### What a refusal leaves -/

/-- A refusal takes tokens and makes reports, and nothing else. -/
theorem Kept.refusal {I : Cursor → Prop} (kept : Kept I) {ts : List Token} {c c' : Cursor}
    (h : refusal ts c = some c') (hc : I c) : I c' := by
  fun_induction Parse.refusal ts c generalizing c' with
  | case1 => cases h; exact hc
  | case2 => cases h; exact kept.report _ _ (kept.advance hc)
  | case3 t ts c op _ _ ih =>
    obtain ⟨inner, found, rfl⟩ := Option.map_eq_some_iff.mp h
    exact kept.report _ _ (ih found (kept.advance hc))
  | case4 t ts c _ _ ih =>
    obtain ⟨inner, found, rfl⟩ := Option.map_eq_some_iff.mp h
    exact kept.closeGroup (ih found (kept.advance hc))
  | case5 => cases h
  | case6 => cases h; exact hc

theorem kept_depth (d : Nat) : Kept fun c => c.depth = d where
  advance {c} same := by
    unfold Cursor.advance
    split <;> exact same
  report _ _ same := same

theorem kept_length (n : Nat) : Kept fun c => c.rest.length ≤ n where
  advance {c} short := by
    unfold Cursor.advance
    split
    · exact short
    · next t ts hrest =>
      rw [hrest, List.length_cons] at short
      exact Nat.le_of_succ_le short
  report _ _ short := short

theorem kept_refusedLevels (n : Nat) : Kept fun c => n ≤ c.refusedLevels where
  advance {c} le := by
    unfold Cursor.advance
    split <;> exact le
  report {c} problem l le := by
    have more : c.refusedLevels ≤ (c.report problem l).refusedLevels := by
      rw [Cursor.refusedLevels, Cursor.refusedLevels, Cursor.report, List.countP_cons]
      exact Nat.le_add_right _ _
    exact Nat.le_trans le more

/-- Where an operand starts, a refusal takes at least this token. -/
theorem refusal_cons_of_starts {t : Token} {ts : List Token} {c c' : Cursor} (hrest : c.rest = t :: ts)
    (starts : t.startsOperand) (h : refusal (t :: ts) c = some c') : c'.rest.length < c.rest.length := by
  have advanced : c.advance.rest.length ≤ ts.length := by simp [Cursor.advance_rest hrest]
  have short := kept_length ts.length
  have inside : c'.rest.length ≤ ts.length := by
    rw [refusal] at h
    split at h
    · split at h
      · cases h
        exact short.report _ _ advanced
      · obtain ⟨inner, found, rfl⟩ := Option.map_eq_some_iff.mp h
        exact short.report _ _ (short.refusal found advanced)
    · next noOperator =>
      split at h
      · obtain ⟨inner, found, rfl⟩ := Option.map_eq_some_iff.mp h
        exact short.closeGroup (short.refusal found advanced)
      · have primary : t.startsPrimary := by simpa [Token.startsOperand, noOperator] using starts
        rw [if_pos primary] at h
        cases h
  rw [hrest, List.length_cons]
  omega

theorem refusal_cons_of_not_starts {t : Token} (ts : List Token) (c : Cursor) (h : t.startsOperand = false) :
    refusal (t :: ts) c = some c := by
  obtain ⟨noOperator, noPrimary⟩ := Bool.or_eq_false_iff.mp h
  have noGroup : t.is .delimiter "(" = false := by
    simp only [Token.startsPrimary, Bool.or_eq_false_iff] at noPrimary
    exact noPrimary.2
  rw [refusal, Option.isSome_eq_false_iff.mp noOperator |> Option.isNone_iff_eq_none.mp]
  simp [noGroup, noPrimary]

/-- **Where nothing is taken.** A refusal leaves the cursor as it is exactly if no operand
starts there. -/
theorem refusal_eq_self_iff {c c' : Cursor} (h : refusal c.rest c = some c') :
    c' = c ↔ ∀ t ∈ c.rest.head?, t.startsOperand = false := by
  cases hrest : c.rest with
  | nil =>
    rw [hrest, refusal] at h
    cases h
    simp
  | cons t ts =>
    rw [hrest] at h
    simp only [List.head?_cons, Option.mem_some_iff, forall_eq']
    by_cases starts : t.startsOperand
    · have taken := refusal_cons_of_starts hrest starts h
      refine iff_of_false ?_ (by simp [starts])
      rintro rfl
      exact absurd taken (Nat.lt_irrefl _)
    · have stays : t.startsOperand = false := Bool.eq_false_iff.mpr starts
      rw [refusal_cons_of_not_starts ts c stays] at h
      exact iff_of_true (Option.some.inj h).symm stays

/-! ### Levels do not matter -/

theorem advance_atDepth (c : Cursor) (d : Nat) : (c.atDepth d).advance = c.advance.atDepth d := by
  cases hrest : c.rest <;> simp [Cursor.advance, Cursor.atDepth, hrest]

theorem closeGroup_atDepth (c : Cursor) (d : Nat) : (c.atDepth d).closeGroup = c.closeGroup.atDepth d := by
  have skipped (ts : List Token) (c : Cursor) :
      ts.foldl (fun c t => c.advance.report (.skippedInGroup t) t.location) (c.atDepth d) =
        (ts.foldl (fun c t => c.advance.report (.skippedInGroup t) t.location) c).atDepth d := by
    induction ts generalizing c with
    | nil => rfl
    | cons t ts ih =>
      rw [List.foldl_cons, List.foldl_cons, ← ih, advance_atDepth]
      rfl
  have leftovers : (c.atDepth d).skipLeftovers = c.skipLeftovers.atDepth d := skipped _ c
  have same : (c.skipLeftovers.atDepth d).looksAt .delimiter ")" = c.skipLeftovers.looksAt .delimiter ")" := rfl
  unfold Cursor.closeGroup
  dsimp only
  rw [leftovers, same, advance_atDepth]
  split <;> rfl

theorem refusal_atDepth (ts : List Token) (c : Cursor) (d : Nat) :
    refusal ts (c.atDepth d) = (refusal ts c).map (·.atDepth d) := by
  induction ts generalizing c with
  | nil => rfl
  | cons t ts ih =>
    rw [refusal, refusal, advance_atDepth, ih]
    split
    · split
      · rfl
      · rw [Option.map_map, Option.map_map]
        rfl
    · split
      · rw [Option.map_map, Option.map_map]
        exact congrArg (Option.map · (refusal ts c.advance)) (funext fun c' => closeGroup_atDepth c' d)
      · split <;> rfl

/-! ### Parsers that refuse -/

/-- The parser gives nothing here exactly if a refusal says so, and leaves the cursor where it
says, unless it meets the cap on the way. -/
structure RefusesAt (p : Parse (Option Node)) (c : Cursor) : Prop where
  sound : (p c).1 = none → c.refusedLevels < (p c).2.refusedLevels ∨ refusal c.rest c = some (p c).2
  complete : (refusal c.rest c).isSome → (p c).1 = none

/-- The same everywhere. -/
def Refuses (p : Parse (Option Node)) : Prop := ∀ c, RefusesAt p c

theorem RefusesAt.of_eq {p : Parse (Option Node)} {c c' : Cursor} (h : p c = (none, c'))
    (refused : refusal c.rest c = some c') : RefusesAt p c where
  sound _ := .inr (by rw [refused, h])
  complete _ := by rw [h]

/-- A parser that takes a token, refuses with the parser behind it and adds something then. -/
theorem RefusesAt.behind {p q : Parse (Option Node)} {c : Cursor} {f : Cursor → Cursor}
    (h : RefusesAt q c.advance) (refused : refusal c.rest c = (refusal c.advance.rest c.advance).map f)
    (nothing : (q c.advance).1 = none → p c = (none, f (q c.advance).2))
    (found : ∀ e, (q c.advance).1 = some e → ∃ e', (p c).1 = some e')
    (more : ∀ c', c'.refusedLevels ≤ (f c').refusedLevels) : RefusesAt p c := by
  cases inner : (q c.advance).1 with
  | none =>
    have same := nothing inner
    refine ⟨fun _ => ?_, fun _ => by rw [same]⟩
    rw [same, refused]
    rcases h.sound inner with met | left
    · have before := (kept_refusedLevels c.refusedLevels).advance (Nat.le_refl _)
      exact .inl (Nat.lt_of_le_of_lt before (Nat.lt_of_lt_of_le met (more _)))
    · exact .inr (by rw [left, Option.map_some])
  | some e =>
    obtain ⟨e', some⟩ := found e inner
    refine ⟨fun none => ?_, fun isRefused => ?_⟩
    · rw [some] at none
      cases none
    · rw [refused, Option.isSome_map] at isRefused
      have none := h.complete isRefused
      rw [inner] at none
      cases none

/-- At the cap a token is skipped and reported, if there is one. -/
theorem tooDeep_refuses : Refuses tooDeep := by
  intro c
  cases hrest : c.rest with
  | nil =>
    refine .of_eq ?_ (by rw [hrest, refusal])
    unfold tooDeep
    rw [bind_apply, peek, hrest]
    rfl
  | cons t ts =>
    have skips : tooDeep c = (none, c.advance.report (.tooDeep t) t.location) := by
      unfold tooDeep
      rw [bind_apply, peek_cons hrest]
      rfl
    have capped : Diagnostic.isNesting ⟨.parser, (SyntaxProblem.tooDeep t).message, t.location⟩ := by
      have text : (SyntaxProblem.tooDeep t).message = "Nesting deeper than " ++ toString maxNesting ++
        " levels, skipped token " ++ t.describe := rfl
      rw [Diagnostic.isNesting, text]
      simp
    have before : c.refusedLevels ≤ c.advance.refusedLevels :=
      (kept_refusedLevels c.refusedLevels).advance (Nat.le_refl _)
    refine ⟨fun _ => .inl ?_, fun _ => by rw [skips]⟩
    rw [skips]
    show c.refusedLevels < List.countP Diagnostic.isNesting (_ :: c.advance.log)
    rw [List.countP_cons_of_pos capped]
    exact Nat.lt_succ_of_le before

/-- All tiers above an operand fail with it. -/
theorem tier_refused {p : Parse (Option Node)} {c : Cursor} (h : (p c).1 = none) : ∀ k, tier p k c = p c
  | 0 => rfl
  | k + 1 => by
    have below := tier_refused h k
    have nothing : (tier p k c).1 = none := by rw [below, h]
    rw [tier, binaryLevel, bind_apply, nothing, below]
    exact Prod.ext h.symm rfl

/-- And with nothing else. -/
theorem tier_found {p : Parse (Option Node)} {c : Cursor} {e : Node} (h : (p c).1 = some e) :
    ∀ k, ∃ e', (tier p k c).1 = some e'
  | 0 => ⟨e, h⟩
  | k + 1 => by
    obtain ⟨left, below⟩ := tier_found h k
    rw [tier, binaryLevel, bind_apply, below]
    exact ⟨_, rfl⟩

theorem Refuses.tier {p : Parse (Option Node)} (h : Refuses p) (k : Nat) : Refuses (tier p k) := by
  intro c
  cases first : (p c).1 with
  | none =>
    have same := tier_refused first k
    exact ⟨fun _ => by rw [same]; exact (h c).sound first, fun _ => by rw [same, first]⟩
  | some e =>
    obtain ⟨e', found⟩ := tier_found first k
    refine ⟨fun nothing => ?_, fun refused => ?_⟩
    · rw [found] at nothing
      cases nothing
    · have nothing := (h c).complete refused
      rw [first] at nothing
      cases nothing

section

variable {expression operand : Parse (Option Node)} {c : Cursor} {t : Token} {ts : List Token}

theorem primary_nothing (hrest : c.rest = t :: ts) (h : t.startsPrimary = false) :
    primary expression c = (none, c) := by
  simp only [Token.startsPrimary, Bool.or_eq_false_iff, decide_eq_false_iff_not] at h
  obtain ⟨⟨⟨notNumber, notString⟩, notName⟩, notGroup⟩ := h
  unfold primary
  rw [bind_apply, peek_cons hrest]
  dsimp only
  cases kind : t.kind with
  | number => exact absurd kind notNumber
  | string => exact absurd kind notString
  | identifier => exact absurd kind notName
  | delimiter =>
    dsimp only
    rw [if_neg (by simp [notGroup])]
    rfl
  | _ => rfl

theorem primary_group (hrest : c.rest = t :: ts) (h : t.is .delimiter "(") :
    primary expression c = ((expression c.advance).1, (expression c.advance).2.closeGroup) := by
  have kind : t.kind = .delimiter := of_decide_eq_true (Bool.and_eq_true_iff.mp h).1
  unfold primary
  rw [bind_apply, peek_cons hrest]
  dsimp only
  rw [kind]
  dsimp only
  rw [if_pos h]
  rfl

/-- A literal, a name and a call are always found. -/
theorem primary_found (hrest : c.rest = t :: ts) (starts : t.startsPrimary) (notGroup : t.is .delimiter "(" = false) :
    ∃ e, (primary expression c).1 = some e := by
  unfold primary
  rw [bind_apply, peek_cons hrest]
  dsimp only
  cases kind : t.kind with
  | number => exact ⟨_, rfl⟩
  | string => exact ⟨_, rfl⟩
  | identifier =>
    dsimp only
    rw [bind_apply, bind_apply]
    split <;> exact ⟨_, rfl⟩
  | _ => simp [Token.startsPrimary, kind, notGroup] at starts

theorem prefixed_primary (hrest : c.rest = t :: ts) (h : t.kind ≠ .operator) :
    prefixed operand c = primary (expressionOver operand) c := by
  unfold prefixed
  rw [bind_apply, peek_cons hrest]
  dsimp only
  rw [if_neg h]

theorem prefixed_nothing (hrest : c.rest = t :: ts) (h : t.kind = .operator) (none : t.prefixOperator? = none) :
    prefixed operand c = (.none, c) := by
  rw [Token.prefixOperator?, if_pos h] at none
  unfold prefixed
  rw [bind_apply, peek_cons hrest]
  dsimp only
  rw [if_pos h, none]
  rfl

/-- What stands behind a prefix operator. -/
def behindPrefix (operand : Parse (Option Node)) (op : UnaryOp) : Parse (Option Node) :=
  if op = .addressOf then primary (expressionOver operand) else operand

theorem prefixed_operator (hrest : c.rest = t :: ts) {op : UnaryOp} (h : t.prefixOperator? = some op) :
    ((behindPrefix operand op c.advance).1 = none → prefixed operand c =
        (none, (behindPrefix operand op c.advance).2.report (.missingOperand op) t.location)) ∧
      ∀ e, (behindPrefix operand op c.advance).1 = some e →
        (prefixed operand c).1 = some (.unary op e t.location) := by
  obtain ⟨kind, symbol⟩ : t.kind = .operator ∧ UnaryOp.ofSymbol? t.spelling = some op := by
    simpa [Token.prefixOperator?] using h
  have moved : (advance c).2 = c.advance := rfl
  unfold prefixed behindPrefix
  rw [bind_apply, peek_cons hrest]
  dsimp only
  rw [if_pos kind, symbol]
  dsimp only
  rw [bind_apply, moved]
  split
  all_goals
    refine ⟨fun nothing => ?_, fun e found => ?_⟩
    · rw [bind_apply, nothing]
      rfl
    · rw [bind_apply, found]
      rfl

/-- A primary refuses as an operand does, where no operator stands. -/
theorem primary_refuses (h : Refuses expression) (noOperator : ∀ t ∈ c.rest.head?, t.kind ≠ .operator) :
    RefusesAt (primary expression) c := by
  cases hrest : c.rest with
  | nil =>
    refine .of_eq ?_ (by rw [hrest, refusal])
    unfold primary
    rw [bind_apply, peek, hrest]
    rfl
  | cons t ts =>
    have noPrefix : t.prefixOperator? = none := if_neg (noOperator t (by simp [hrest]))
    by_cases group : t.is .delimiter "("
    · have advanced : c.advance.rest = ts := by rw [Cursor.advance_rest hrest]
      have refused : refusal c.rest c = (refusal c.advance.rest c.advance).map Cursor.closeGroup := by
        rw [hrest, refusal, noPrefix, advanced]
        exact if_pos group
      have opened := @primary_group expression c t ts hrest group
      refine (h c.advance).behind refused (fun nothing => by rw [opened, nothing])
        (fun e found => ⟨e, by rw [opened, found]⟩) fun c' => ?_
      exact (kept_refusedLevels _).closeGroup (Nat.le_refl _)
    by_cases starts : t.startsPrimary
    · obtain ⟨e, found⟩ := @primary_found expression c t ts hrest starts (Bool.eq_false_iff.mpr group)
      have noRefusal : refusal c.rest c = none := by
        rw [hrest, refusal, noPrefix]
        simp [group, starts]
      exact ⟨fun nothing => by simp [found] at nothing, fun refused => by simp [noRefusal] at refused⟩
    · refine .of_eq (primary_nothing hrest (Bool.eq_false_iff.mpr starts)) ?_
      rw [hrest]
      refine refusal_cons_of_not_starts ts c ?_
      simp [Token.startsOperand, noPrefix, starts]

theorem behindPrefix_refuses (h : Refuses operand) {op : UnaryOp}
    (noOperator : op = .addressOf → ∀ t ∈ c.rest.head?, t.kind ≠ .operator) :
    RefusesAt (behindPrefix operand op) c := by
  unfold behindPrefix
  split
  · next address => exact primary_refuses (h.tier 6) (noOperator address)
  · exact h c

theorem prefixed_refuses (h : Refuses operand) : Refuses (prefixed operand) := by
  intro c
  cases hrest : c.rest with
  | nil =>
    refine .of_eq ?_ (by rw [hrest, refusal])
    unfold prefixed
    rw [bind_apply, peek, hrest]
    rfl
  | cons t ts =>
    have advanced : c.advance.rest = ts := by rw [Cursor.advance_rest hrest]
    cases symbol : t.prefixOperator? with
    | none =>
      by_cases operator : t.kind = .operator
      · refine .of_eq (prefixed_nothing hrest operator symbol) ?_
        rw [hrest]
        refine refusal_cons_of_not_starts ts c ?_
        simp [Token.startsOperand, symbol, Token.startsPrimary, Token.is, operator]
      · have same := @prefixed_primary operand c t ts hrest operator
        obtain ⟨sound, complete⟩ :=
          @primary_refuses (expressionOver operand) c (h.tier 6) (by simpa [hrest] using operator)
        exact ⟨by rwa [same], by rwa [same]⟩
    | some op =>
      obtain ⟨nothing, found⟩ := @prefixed_operator operand c t ts hrest op symbol
      by_cases blocked : op = .addressOf && ts.head?.any (·.kind = .operator)
      · -- the primary behind an address does not start with an operator
        have refused : refusal c.rest c = some (c.advance.report (.missingOperand op) t.location) := by
          rw [hrest, refusal, symbol]
          exact if_pos blocked
        obtain ⟨address, operator⟩ := Bool.and_eq_true_iff.mp blocked
        obtain rfl := of_decide_eq_true address
        obtain ⟨next, first, operator⟩ := (Option.any_eq_true _ _).mp operator
        obtain ⟨more, rfl⟩ := List.head?_eq_some_iff.mp first
        have noPrimary : next.startsPrimary = false := by
          simp [Token.startsPrimary, Token.is, of_decide_eq_true operator]
        have stays : behindPrefix operand .addressOf c.advance = (none, c.advance) := primary_nothing advanced noPrimary
        rw [stays] at nothing
        exact .of_eq (nothing rfl) refused
      · have refused : refusal c.rest c =
            (refusal c.advance.rest c.advance).map (·.report (.missingOperand op) t.location) := by
          rw [hrest, refusal, symbol, advanced]
          exact if_neg blocked
        refine (behindPrefix_refuses h fun address next hnext operator => ?_).behind refused nothing
          (fun e some => ⟨_, found e some⟩) fun c' => (kept_refusedLevels _).report _ _ (Nat.le_refl _)
        rw [advanced] at hnext
        exact blocked (by simp [address, Option.mem_def.mp hnext, operator])

end

/-- A level is opened and closed around what is refused. -/
theorem Refuses.nested {p : Parse (Option Node)} (h : Refuses p) : Refuses (nested p) := by
  intro c
  obtain ⟨sound, complete⟩ := h (c.atDepth (c.depth + 1))
  have inside : refusal (c.atDepth (c.depth + 1)).rest (c.atDepth (c.depth + 1)) =
      (refusal c.rest c).map (·.atDepth (c.depth + 1)) := refusal_atDepth c.rest c (c.depth + 1)
  rw [inside] at sound complete
  refine ⟨fun nothing => (sound nothing).imp_right fun left => ?_, fun refused => complete (by simpa using refused)⟩
  obtain ⟨c', outside, same⟩ := Option.map_eq_some_iff.mp left
  have depth : c'.depth = c.depth := (kept_depth c.depth).refusal outside rfl
  have closed : (Parse.nested p c).2 = c'.atDepth c'.depth := by
    show (p (c.atDepth (c.depth + 1))).2.atDepth ((p (c.atDepth (c.depth + 1))).2.depth - 1) = _
    rw [← same, depth]
    rfl
  rw [outside, closed]
  rfl

theorem operand_refuses : ∀ levels, Refuses (operand levels)
  | 0 => tooDeep_refuses
  | levels + 1 => (prefixed_refuses (operand_refuses levels)).nested

/-- **When an expression gives nothing.** As long as no level is refused on the way, an
expression gives nothing exactly if behind a row of prefix operators and opened groups no
operand starts, and leaves the cursor where `refusal` says. The cursor and the reports are
then as before if no operand starts at the cursor itself, and only then. -/
theorem expression_refusal (levels : Nat) (c : Cursor)
    (below : (expression levels c).2.refusedLevels = c.refusedLevels) :
    (∀ c', expression levels c = (none, c') ↔ refusal c.rest c = some c') ∧
      ((expression levels c).1 = none →
        ((expression levels c).2 = c ↔ ∀ t ∈ c.rest.head?, t.startsOperand = false)) := by
  obtain ⟨sound, complete⟩ := (operand_refuses levels).tier 6 c
  have left (nothing : (expression levels c).1 = none) : refusal c.rest c = some (expression levels c).2 :=
    (sound nothing).resolve_left fun met => absurd below (Nat.ne_of_gt met)
  refine ⟨fun c' => ⟨fun same => ?_, fun refused => ?_⟩, fun nothing => refusal_eq_self_iff (left nothing)⟩
  · have refused := left (by rw [same])
    rwa [same] at refused
  · have nothing : (expression levels c).1 = none := complete (by rw [refused]; rfl)
    have same := Option.some.inj ((left nothing).symm.trans refused)
    exact Prod.ext nothing same

/-- The tokens of a text, before anything is read. -/
def atStart (source : String) : Cursor := .ofTokens (tokenize source).tokens []

theorem expression_refusal_sign :
    (expression maxNesting (atStart "-!()")).2.refusedLevels = (atStart "-!()").refusedLevels ∧
      (expression maxNesting (atStart "-!()")).1 = none ∧
      (expression maxNesting (atStart "-!()")).2 ≠ atStart "-!()" := by
  have below : (expression maxNesting (atStart "-!()")).2.refusedLevels = (atStart "-!()").refusedLevels := by
    decide +kernel
  have nothing : (expression maxNesting (atStart "-!()")).1 = none := Option.isNone_iff_eq_none.mp (by decide +kernel)
  have starts : ¬∀ t ∈ (atStart "-!()").rest.head?, t.startsOperand = false := by decide +kernel
  exact ⟨below, nothing, fun same => starts (((expression_refusal _ _ below).2 nothing).mp same)⟩

/-- An empty group gives nothing, and both parentheses are gone without a report. -/
theorem expression_takes_group :
    (expression maxNesting (atStart "()")).1 = none ∧ (atStart "()").rest.length = 2 ∧
      (expression maxNesting (atStart "()")).2.rest = [] ∧ (expression maxNesting (atStart "()")).2.log = [] := by
  refine ⟨Option.isNone_iff_eq_none.mp ?_, ?_⟩
  · decide +kernel
  · decide +kernel

end Parse
end MiniC
