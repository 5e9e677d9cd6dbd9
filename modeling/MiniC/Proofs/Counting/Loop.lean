/-
# Counting loops are translated exactly

The arguments of the range of a counting loop are a text. Read by the grammar of the
indented language it is the start, the end and the step and nothing else, and the end is
the bound, or the sum or difference of the bound and 1; where the bound is a literal and
the number next to it fits a word, it is this number (`EndsAt`). The members of the range
are then the values that the variable has in the turns of the loop (`Faithful`).

This holds of every counting loop in a parsed tree, under two conditions
(`parse_loops_faithful`). Its bound takes no address and has no reserved word for a name,
since names are not changed in the translation. And the literals that the translation
computes with, which are the step and the bound of a comparison that includes it, have no
zeros in front, since they are read in decimal (`loops_misread`).

Key definitions: `Formula.IsReading`, `Node.numeral`, `CountingLoop.EndsAt`,
`CountingLoop.Faithful`.
Key theorems: `Node.BuiltFrom.reading`, `CountingLoop.rangeArguments_render`,
`parse_loops_faithful`.
-/
import Mathlib
import MiniC.Proofs.Counting.Words

namespace MiniC

open Lexeme Formula

/-- The text is read without a report, as the formula and as no other. -/
def Formula.IsReading (text : String) (f : Formula) : Prop :=
  (tokenize text).diagnostics = [] ∧ ∀ g, Derives (wordsOf (tokenize text).tokens) g ↔ g = f

theorem Node.BuiltFrom.reading {e : Node} (he : e.BuiltFrom .indented) :
    IsReading (e.render .indented) e.formula := by
  obtain ⟨words, clean⟩ := render_tokens .indented (he.mono (fun h => h.1) id id id)
  have derived : Derives (e.spell (.of .indented)) e.formula :=
    ⟨e.depth (.of .indented) + 1, (spell_formula he _ (Nat.le_succ _)).mono (tier_le e)⟩
  refine ⟨clean, fun g => ?_⟩
  rw [words]
  constructor
  · exact fun other => derives_unique other derived
  · rintro rfl
    exact derived

/-! ### Numbers in the text -/

theorem lexesAs_toString (n : Nat) : LexesAs (toString n) (.number, toString n) := by
  have digits : (Piece.number (toString n).toList).Formed [] := by
    refine .whole ?_ fun c => Text.isDigit_of_mem_toString
    rw [Text.toString_digits]
    exact Nat.toDigits_ne_nil
  refine LexesAs.of_formed digits rfl ?_
  exact congrArg (fun text => some (Token.Kind.number, text)) String.ofList_toList

namespace Node

/-- The expression of a number. -/
def numeral : Int → Node
  | .ofNat n => .literal (toString n) .int .nowhere
  | .negSucc n => .unary .neg (.literal (toString (n + 1)) .int .nowhere) .nowhere

theorem literal_builtFrom (n : Nat) (l : Location) :
    (Node.literal (toString n) .int l).BuiltFrom .indented :=
  .number l (by decide) (lexesAs_toString n)

theorem numeral_render (n : Int) : (numeral n).render .indented = toString n := by
  cases n with
  | ofNat n => rfl
  | negSucc n => rfl

theorem numeral_builtFrom (n : Int) : (numeral n).BuiltFrom .indented := by
  cases n with
  | ofNat n => exact literal_builtFrom n _
  | negSucc n => exact .unary _ (show UnaryOp.neg ≠ .addressOf by decide) (literal_builtFrom (n + 1) _)

theorem numeral_value (A : Arithmetic) (n : Int) : A.value (numeral n).formula = some n := by
  cases n with
  | ofNat n => exact A.number n
  | negSucc n => exact A.minus (A.number (n + 1))

/-- The bound is a literal, and it and the number next to it are words. -/
def Folds (delta : Int) (bound : Node) : Prop :=
  ∃ (n : Nat) (l : Location), bound = .literal (toString n) .int l ∧ Text.fitsInt64 n ∧ Text.fitsInt64 (n + delta)

end Node

namespace CountingLoop

/-- The end of the range for a comparison with the bound. -/
inductive EndsAt : BinOp → Node → Node → Prop
  | lt (bound : Node) : EndsAt .lt bound bound
  | gt (bound : Node) : EndsAt .gt bound bound
  | le {bound : Node} : ¬bound.Folds 1 → EndsAt .le bound (.binary .add bound (.numeral 1) .nowhere)
  | ge {bound : Node} : ¬bound.Folds (-1) → EndsAt .ge bound (.binary .sub bound (.numeral 1) .nowhere)
  | leFolded {n : Nat} (l : Location) : Text.fitsInt64 n → Text.fitsInt64 (n + 1) →
    EndsAt .le (.literal (toString n) .int l) (.numeral (n + 1))
  | geFolded {n : Nat} (l : Location) : Text.fitsInt64 n → Text.fitsInt64 (n - 1) →
    EndsAt .ge (.literal (toString n) .int l) (.numeral (n - 1))

namespace EndsAt

variable {op : BinOp} {bound stop : Node}

theorem builtFrom (h : EndsAt op bound stop) (he : bound.BuiltFrom .indented) : stop.BuiltFrom .indented := by
  cases h with
  | lt | gt => exact he
  | le | ge => exact .binary _ _ he (Node.numeral_builtFrom 1)
  | leFolded | geFolded => exact Node.numeral_builtFrom _

theorem value (h : EndsAt op bound stop) (A : Arithmetic) {b : Int} (hb : A.value bound.formula = some b) :
    A.value stop.formula = some (op.stop b) := by
  cases h with
  | lt | gt => exact hb
  | le => exact A.add hb (Node.numeral_value A 1)
  | ge => exact A.sub hb (Node.numeral_value A 1)
  | @leFolded n =>
    obtain rfl : (n : Int) = b := Option.some.inj ((A.number n).symm.trans hb)
    exact Node.numeral_value A (n + 1)
  | @geFolded n =>
    obtain rfl : (n : Int) = b := Option.some.inj ((A.number n).symm.trans hb)
    exact Node.numeral_value A (n - 1)

end EndsAt

/-! ### The text of the end -/

section

variable {bound : Node} {delta : Int}

theorem shifted_folded {n : Nat} (l : Location) (fits : Text.fitsInt64 n) (next : Text.fitsInt64 (n + delta)) :
    shifted (.literal (toString n) .int l) delta = toString (n + delta) := by
  have value : (Node.literal (toString n) .int l).intValue? = some (n : Int) := by
    rw [Node.intValue?, Text.readInt64?_toString, if_pos fits]
  rw [shifted, value, Option.map_some, Option.filter_some, if_pos next]

theorem shifted_unfolded (decimal : bound.IsDecimal) (h : ¬bound.Folds delta) :
    shifted bound delta = grouped (Spelling.indented.groups .add bound false) (bound.render .indented) ++
      (if 0 < delta then " + " else " - ") ++ toString delta.natAbs := by
  have nothing : ((bound.intValue?.map (· + delta)).filter fun n => Text.fitsInt64 n) = none := by
    refine Option.eq_none_iff_forall_ne_some.mpr fun sum found => h ?_
    obtain ⟨shifted, next⟩ := Option.filter_eq_some_iff.mp found
    obtain ⟨k, value, rfl⟩ := Option.map_eq_some_iff.mp shifted
    have fits := Node.fitsInt64_of_intValue? value
    obtain ⟨n, l, rfl, rfl⟩ := Node.eq_literal_of_intValue? decimal value
    exact ⟨n, l, rfl, fits, next⟩
  rw [shifted, nothing]
  rfl

/-- The bound and an offset are written as a sum or difference is. -/
theorem offset_render (o : BinOp) (ho : o = .add ∨ o = .sub) (bound : Node) :
    (Node.binary o bound (.numeral 1) .nowhere).render .indented =
      grouped (Spelling.indented.groups .add bound false) (bound.render .indented) ++ (" " ++ o.symbol ++ " ") ++ "1" := by
  have same : Spelling.indented.groups o bound false = Spelling.indented.groups .add bound false := by
    rcases ho with rfl | rfl
    · rfl
    · cases bound with
      | unary mark => cases mark <;> rfl
      | _ => rfl
  have symbol : Spelling.indented.symbol o = o.symbol := by
    rcases ho with rfl | rfl <;> rfl
  rw [Node.render, same, symbol]
  simp only [String.append_assoc]
  rfl

/-- The text next to the bound is that of an expression where the range ends. -/
theorem shifted_endsAt (decimal : bound.IsDecimal) (unit : delta = 1 ∨ delta = -1) :
    ∃ stop, EndsAt (if 0 < delta then .le else .ge) bound stop ∧ shifted bound delta = stop.render .indented := by
  by_cases folds : bound.Folds delta
  · obtain ⟨n, l, rfl, fits, next⟩ := folds
    refine ⟨.numeral (n + delta), ?_, by rw [shifted_folded l fits next, Node.numeral_render]⟩
    rcases unit with rfl | rfl
    · exact .leFolded l fits next
    · exact .geFolded l fits next
  · rw [shifted_unfolded decimal folds]
    rcases unit with rfl | rfl
    · exact ⟨_, .le folds, (offset_render .add (.inl rfl) bound).symm⟩
    · exact ⟨_, .ge folds, (offset_render .sub (.inr rfl) bound).symm⟩

end

variable {loop : CountingLoop}

/-- The text of the end is that of an expression over the bound. -/
theorem endsAt_of_tests {op : BinOp} (tests : inclusive? op loop.step = some loop.inclusive)
    (decimal : loop.inclusive → loop.bound.IsDecimal) :
    ∃ stop, EndsAt op loop.bound stop ∧ loop.stop = stop.render .indented := by
  unfold inclusive? at tests
  unfold stop
  by_cases up : 0 < loop.step
  · rw [if_pos up] at tests ⊢
    split at tests
    · rw [← Option.some.inj tests]
      exact ⟨_, .lt _, rfl⟩
    · have included := Option.some.inj tests
      rw [← included]
      exact shifted_endsAt (decimal included.symm) (.inl rfl)
    · cases tests
  · rw [if_neg up] at tests ⊢
    split at tests
    · rw [← Option.some.inj tests]
      exact ⟨_, .gt _, rfl⟩
    · have included := Option.some.inj tests
      rw [← included]
      exact shifted_endsAt (decimal included.symm) (.inr rfl)
    · cases tests

/-- The range as a call: its step is given unless it is 1. -/
def call (loop : CountingLoop) (stop : Node) : Node :=
  .call "range" (loop.start :: stop :: if loop.step = 1 then [] else [.numeral loop.step]) .nowhere

theorem rangeArguments_render {stop : Node} (h : loop.stop = stop.render .indented) :
    "range(" ++ loop.rangeArguments ++ ")" = (loop.call stop).render .indented := by
  have opened : "range" ++ "(" = "range(" := rfl
  rw [call, rangeArguments, Renderer.render_eq, h, Node.render, opened]
  by_cases unit : loop.step = 1
  · rw [if_pos unit, if_pos unit]
    simp only [Node.renderAll, String.intercalate_cons_cons, String.intercalate_singleton, String.append_assoc,
      String.empty_append]
  · rw [if_neg unit, if_neg unit]
    simp only [Node.renderAll, String.intercalate_cons_cons, String.intercalate_singleton, String.append_assoc,
      Node.numeral_render]

theorem call_builtFrom {stop : Node} (hstart : loop.start.BuiltFrom .indented) (hstop : stop.BuiltFrom .indented) :
    (loop.call stop).BuiltFrom .indented := by
  have name : Vocabulary.indented.name "range" :=
    show LexesAs "range" (ident "range") ∧ "range" ∉ reserved by decide +kernel
  refine .call _ name (List.forall_mem_cons.mpr ⟨hstart, List.forall_mem_cons.mpr ⟨hstop, ?_⟩⟩)
  split
  · exact List.forall_mem_nil _
  · exact List.forall_mem_singleton.mpr (Node.numeral_builtFrom _)

theorem call_formula (stop : Node) : (loop.call stop).formula =
    .call "range" (loop.start.formula :: stop.formula ::
      if loop.step = 1 then [] else [(Node.numeral loop.step).formula]) := by
  rw [call, Node.formula, formulaAll_eq_map]
  split <;> rfl

/-! ### The translation of a loop -/

/-- The range stands for the loop of these clauses, which compares by `op`, updates by `u`
and whose end is written as `stop`. -/
structure Faithful (loop : CountingLoop) (init test update : Option Node) (op : BinOp) (u stop : Node) : Prop where
  starts : ∃ n, init = some n ∧ n.Sets loop.name loop.start
  compares : ∃ l l', test = some (.binary op (.identifier loop.name l) loop.bound l')
  updates : update = some u
  arguments : loop.rangeArguments = loop.start.render .indented ++ ", " ++ stop.render .indented ++
    if loop.step = 1 then "" else ", " ++ toString loop.step
  ends : EndsAt op loop.bound stop
  /-- The end alone, and with a plain start the whole call, are read as they are meant. -/
  stopReading : IsReading (stop.render .indented) stop.formula
  callReading : loop.start.Everywhere Node.Plain → IsReading ("range(" ++ loop.rangeArguments ++ ")")
    (.call "range" (loop.start.formula :: stop.formula ::
      if loop.step = 1 then [] else [(Node.numeral loop.step).formula]))
  nonzero : loop.step ≠ 0
  word : Text.fitsInt64 loop.step
  /-- The members of the range are the values that the variable has in the turns. -/
  members : ∀ (A : Arithmetic) (start bound : Int), A.value loop.start.formula = some start →
    A.value loop.bound.formula = some bound →
    ∃ finish, A.value stop.formula = some finish ∧ A.value (Node.numeral loop.step).formula = some loop.step ∧
      ∀ vs, Turns (op.Holds · bound) (u.Updates A loop.name) start vs ↔
        vs = (Range.mk start finish loop.step).members

theorem faithful_of_builtFrom {init test update : Option Node} (h : of? init test update = some loop)
    (hstart : loop.start.Everywhere Node.Plain → loop.start.BuiltFrom .indented)
    (hbound : loop.bound.BuiltFrom .indented) (bound : loop.inclusive → loop.bound.IsDecimal)
    (step : ∀ u ∈ update, ∀ e ∈ u.valuePlaces, e.IsDecimal) :
    ∃ op u stop, loop.Faithful init test update op u stop := by
  obtain ⟨n, op, l, l', u, first, sets, second, third, steps, tests⟩ := clauses_of_of? h
  obtain ⟨stop, ends, text⟩ := endsAt_of_tests tests bound
  have hstop := ends.builtFrom hbound
  refine ⟨op, u, stop, ⟨n, first, sets⟩, ⟨l, l', second⟩, third, by rw [rangeArguments, Renderer.render_eq, text], ends, hstop.reading,
    fun plain => ?_, steps.ne_zero, steps.fits, fun A start b _ hb => ?_⟩
  · rw [rangeArguments_render text, ← call_formula]
    exact (call_builtFrom (hstart plain) hstop).reading
  · refine ⟨_, ends.value A hb, Node.numeral_value A _, fun vs => ?_⟩
    exact turns_iff steps tests (step u third) A start b

end CountingLoop

/-- **Counting loops are translated exactly.** In every parsed tree, the range of a loop
that counts yields the values of its variable in the turns of the loop, if its bound is
plain and the literals computed with have no zeros in front. -/
theorem parse_loops_faithful (source : String) :
    (parseTokens (tokenize source).tokens).tree.Everywhere fun n =>
      ∀ (init test update : Option Node) (body : Node) (l : Location) (loop : CountingLoop),
        n = .forLoop init test update body l → CountingLoop.of? init test update = some loop →
        loop.bound.Everywhere Node.Plain → (loop.inclusive → loop.bound.IsDecimal) → (∀ u ∈ update, ∀ e ∈ u.valuePlaces, e.IsDecimal) →
        ∃ op u stop, loop.Faithful init test update op u stop := by
  refine (parse_loops_builtFrom source).imp ?_
  intro n words init test update body l loop same counts plain decimal step
  obtain ⟨hstart, hbound⟩ := words same counts
  exact CountingLoop.faithful_of_builtFrom counts hstart (hbound plain) decimal step

/-- The clause that sets the variable to the start. -/
def CountingLoop.initClause (loop : CountingLoop) (l : Location) : Option Node :=
  some (.assign loop.name .assign (some loop.start) l)

/-- The clause that compares the variable with the bound. -/
def CountingLoop.testClause (loop : CountingLoop) (op : BinOp) (l l' : Location) : Option Node :=
  some (.binary op (.identifier loop.name l) loop.bound l')

/-- The loop `for(i=9;i>=n-2;i-=3)`. -/
def countdown : CountingLoop :=
  ⟨"i", .literal "9" .int ⟨1, 7⟩,
    .binary .sub (.identifier "n" ⟨1, 12⟩) (.literal "2" .int ⟨1, 14⟩) ⟨1, 13⟩, true, -3⟩

def countdownUpdate : Node := .assign "i" .subAssign (some (.literal "3" .int ⟨1, 19⟩)) ⟨1, 16⟩

/-- Here the end is a difference, and the step does not divide the distance. -/
theorem parse_loops_faithful_countdown :
    (parseTokens (tokenize "for(i=9;i>=n-2;i-=3)f();").tokens).tree =
        .program [.forLoop (countdown.initClause ⟨1, 5⟩) (countdown.testClause .ge ⟨1, 9⟩ ⟨1, 10⟩)
          (some countdownUpdate) (.call "f" [] ⟨1, 21⟩) ⟨1, 1⟩] ∧
      CountingLoop.of? (countdown.initClause ⟨1, 5⟩) (countdown.testClause .ge ⟨1, 9⟩ ⟨1, 10⟩) (some countdownUpdate) =
        some countdown ∧
      countdown.rangeArguments = "9, n - 2 - 1, -3" ∧
      (∃ stop, countdown.Faithful (countdown.initClause ⟨1, 5⟩) (countdown.testClause .ge ⟨1, 9⟩ ⟨1, 10⟩)
        (some countdownUpdate) .ge countdownUpdate stop) ∧
      Turns (BinOp.ge.Holds · (1 - 2)) (countdownUpdate.Updates (.ofNames fun _ => 1) "i") 9 [9, 6, 3, 0] := by
  have tree : (parseTokens (tokenize "for(i=9;i>=n-2;i-=3)f();").tokens).tree =
      .program [.forLoop (countdown.initClause ⟨1, 5⟩) (countdown.testClause .ge ⟨1, 9⟩ ⟨1, 10⟩)
        (some countdownUpdate) (.call "f" [] ⟨1, 21⟩) ⟨1, 1⟩] := by cbv
  have value : (Node.literal "3" .int ⟨1, 19⟩).intValue? = some 3 := Text.readInt64?_toString 3
  have steps : CountingLoop.step? "i" countdownUpdate = some (-3) := by
    rw [countdownUpdate, CountingLoop.step?, Option.bind_some, value]
    rfl
  have counts : CountingLoop.of? (countdown.initClause ⟨1, 5⟩) (countdown.testClause .ge ⟨1, 9⟩ ⟨1, 10⟩)
      (some countdownUpdate) = some countdown := by
    simp [CountingLoop.of?, CountingLoop.initClause, CountingLoop.testClause, CountingLoop.start?,
      CountingLoop.inclusive?, countdown, steps]
  have leaf {n : Node} (plain : n.Plain) (none : n.children = []) : n.Everywhere Node.Plain :=
    .mk plain (by simp [none])
  have bound : countdown.bound.Everywhere Node.Plain := by
    refine .mk trivial (List.forall_mem_cons.mpr ⟨?_, List.forall_mem_singleton.mpr (leaf trivial rfl)⟩)
    exact leaf (show "n" ∉ reserved by decide) rfl
  have step : ∀ u ∈ some countdownUpdate, ∀ e ∈ u.valuePlaces, e.IsDecimal := by
    rintro u ⟨⟩
    exact List.forall_mem_singleton.mpr ⟨3, rfl⟩
  have all := parse_loops_faithful "for(i=9;i>=n-2;i-=3)f();"
  rw [tree] at all
  have first := all.child List.mem_cons_self
  obtain ⟨op, u, stop, faithful⟩ := first.here _ _ _ _ _ countdown rfl counts bound (fun _ => trivial) step
  obtain ⟨l, l', compares⟩ := faithful.compares
  obtain ⟨rfl, -⟩ := Node.binary.inj (Option.some.inj compares)
  obtain rfl := Option.some.inj faithful.updates
  refine ⟨tree, counts, by decide +kernel, ⟨stop, faithful⟩, ?_⟩
  -- At `n = 1` the loop compares with -1, and its range ends at -2.
  have atBound : (Arithmetic.ofNames fun _ => 1).value countdown.bound.formula = some (1 - 2) :=
    Arithmetic.sub _ rfl (Arithmetic.number _ 2)
  obtain ⟨finish, atStop, -, turns⟩ := faithful.members _ 9 _ (Arithmetic.number _ 9) atBound
  obtain rfl : finish = 1 - 2 - 1 := Option.some.inj (atStop.symm.trans (faithful.ends.value _ atBound))
  exact (turns _).mpr (by decide)

/-- The loops `for(i=0;i<=010;i++)` and `for(i=9;i>=not;i--)`. -/
def octalBound : CountingLoop := ⟨"i", .literal "0" .int ⟨1, 7⟩, .literal "010" .int ⟨1, 12⟩, true, 1⟩

def reservedBound : CountingLoop :=
  ⟨"i", .literal "9" .int ⟨1, 30⟩, .identifier "not" ⟨1, 35⟩, true, -1⟩

/-- The octal bound 8 is taken for 10, and the bound `not` is an operator where it is read. -/
theorem loops_misread :
    (parseTokens (tokenize "for(i=0;i<=010;i++)f();for(i=9;i>=not;i--)f();").tokens).tree =
        .program [.forLoop (octalBound.initClause ⟨1, 5⟩) (octalBound.testClause .le ⟨1, 9⟩ ⟨1, 10⟩)
            (some (.assign "i" .increment none ⟨1, 16⟩)) (.call "f" [] ⟨1, 20⟩) ⟨1, 1⟩,
          .forLoop (reservedBound.initClause ⟨1, 28⟩) (reservedBound.testClause .ge ⟨1, 32⟩ ⟨1, 33⟩)
            (some (.assign "i" .decrement none ⟨1, 39⟩)) (.call "f" [] ⟨1, 43⟩) ⟨1, 24⟩] ∧
      CountingLoop.of? (octalBound.initClause ⟨1, 5⟩) (octalBound.testClause .le ⟨1, 9⟩ ⟨1, 10⟩)
          (some (.assign "i" .increment none ⟨1, 16⟩)) = some octalBound ∧
      CountingLoop.of? (reservedBound.initClause ⟨1, 28⟩) (reservedBound.testClause .ge ⟨1, 32⟩ ⟨1, 33⟩)
          (some (.assign "i" .decrement none ⟨1, 39⟩)) = some reservedBound ∧
      octalBound.rangeArguments = "0, 11" ∧ Nat.ofDigitChars 8 "010".toList 0 = 8 ∧
      (∀ A, Turns (BinOp.le.Holds · 8) ((Node.assign "i" .increment none ⟨1, 16⟩).Updates A "i") 0
        [0, 1, 2, 3, 4, 5, 6, 7, 8]) ∧
      (Range.mk 0 11 1).members = [0, 1, 2, 3, 4, 5, 6, 7, 8, 9, 10] ∧
      reservedBound.stop = "not - 1" ∧
      ∀ f, Derives (wordsOf (tokenize "not - 1").tokens) f → f = .not (.minus (.number "1")) := by
  have words : wordsOf (tokenize "not - 1").tokens = [ident "not", op "-", (.number, "1")] := by decide +kernel
  have derived : Derives [ident "not", op "-", (.number, "1")] (.not (.minus (.number "1"))) := by
    have minus : Tier (Nested 0) 1 [op "-", (.number, "1")] (.minus (.number "1")) := .mark (.operand (.number "1"))
    have negated : Tier (Nested 0) 5 _ _ := .mark (.operand (minus.mono (by decide)))
    exact ⟨1, negated.mono (by decide)⟩
  have turns (A : Arithmetic) : Turns (BinOp.le.Holds · 8)
      ((Node.assign "i" .increment none ⟨1, 16⟩).Updates A "i") 0 [0, 1, 2, 3, 4, 5, 6, 7, 8] := by
    have steps : (Node.assign "i" .increment none ⟨1, 16⟩).Steps octalBound.name octalBound.step :=
      .increment none _
    exact (@CountingLoop.turns_iff octalBound .le _ steps rfl (List.forall_mem_nil _) A 0 8 _).mpr (by decide)
  refine ⟨by cbv, by cbv, by cbv, by decide +kernel, by decide, turns, by decide, by decide +kernel,
    fun f other => ?_⟩
  rw [words] at other
  exact derives_unique other derived

end MiniC
