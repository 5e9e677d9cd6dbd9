/-
# What the clauses of a counting loop do

The first clause sets the variable, the second compares it with the bound and the third
steps it. What numbers the start and the bound are is left open: it is only used that
decimal numerals, the minus, sums and differences have the values that they have
everywhere (`Arithmetic`). Numbers are not bounded.

If the loop counts, then its test asks whether the end of a range is not reached, and its
update adds the step, so the turns of the loop are the members of the range
(`CountingLoop.turns_iff`). The end is the bound, or one further if the bound is reached.

A literal is read in decimal, whatever its first digit is. So this holds of a literal
that is printed as it was read, without zeros in front (`Node.IsDecimal`).

Key definitions: `Arithmetic`, `BinOp.Holds`, `BinOp.stop`, `Node.Sets`, `Node.Updates`,
`Node.Steps`, `Node.IsDecimal`.
Key theorems: `CountingLoop.clauses_of_of?`, `CountingLoop.turns_iff`.
-/
import MiniC.Emit.Counting
import MiniC.Proofs.Counting.Range
import MiniC.Proofs.Indented
import MiniC.Proofs.Numeral
import MiniC.Proofs.Shape

namespace MiniC

/-! ### Numbers -/

/-- Which formulas are numbers, and which numbers they are. -/
structure Arithmetic where
  value : Formula → Option Int
  number (n : Nat) : value (.number (toString n)) = some (n : Int)
  minus {f : Formula} {a : Int} : value f = some a → value (.minus f) = some (-a)
  add {f g : Formula} {a b : Int} : value f = some a → value g = some b → value (.binary .add f g) = some (a + b)
  sub {f g : Formula} {a b : Int} : value f = some a → value g = some b → value (.binary .sub f g) = some (a - b)

/-- The value of a sum, difference or product of numerals and names. -/
def Formula.eval (names : String → Int) : Formula → Option Int
  | .number text => (Text.readNat? text.toList).map Int.ofNat
  | .name x => some (names x)
  | .minus f => do return -(← eval names f)
  | .binary .add f g => do return (← eval names f) + (← eval names g)
  | .binary .sub f g => do return (← eval names f) - (← eval names g)
  | .binary .mul f g => do return (← eval names f) * (← eval names g)
  | _ => none

/-- The names stand for given numbers. -/
def Arithmetic.ofNames (names : String → Int) : Arithmetic where
  value := Formula.eval names
  number n := by rw [Formula.eval, Text.readNat?_toString, Option.map_some, Int.ofNat_eq_natCast]
  minus hf := by simp [Formula.eval, hf]
  add hf hg := by simp [Formula.eval, hf, hg]
  sub hf hg := by simp [Formula.eval, hf, hg]

/-- The comparison holds between the numbers. -/
def BinOp.Holds : BinOp → Int → Int → Prop
  | .eq, a, b => a = b
  | .ne, a, b => a ≠ b
  | .lt, a, b => a < b
  | .le, a, b => a ≤ b
  | .gt, a, b => b < a
  | .ge, a, b => b ≤ a
  | _, _, _ => False

/-- Where counting ends that goes on while the comparison with the bound holds: at the
bound, or one further if the bound is reached. -/
def BinOp.stop : BinOp → Int → Int
  | .le, bound => bound + 1
  | .ge, bound => bound - 1
  | _, bound => bound

namespace Node

/-- The statement sets the variable to the value. -/
inductive Sets (x : String) : Node → Node → Prop
  | declare (type : String) (value : Node) (l : Location) : Sets x (.declare x type (some value) l) value
  | assign (value : Node) (l : Location) : Sets x (.assign x .assign (some value) l) value

/-- The statement changes the variable from one number to the other. -/
inductive Updates (A : Arithmetic) (x : String) : Node → Int → Int → Prop
  | increment (value : Option Node) (l : Location) (v : Int) :
    Updates A x (.assign x .increment value l) v (v + 1)
  | decrement (value : Option Node) (l : Location) (v : Int) :
    Updates A x (.assign x .decrement value l) v (v - 1)
  | add {e : Node} {k : Int} (l : Location) (v : Int) : A.value e.formula = some k →
    Updates A x (.assign x .addAssign (some e) l) v (v + k)
  | sub {e : Node} {k : Int} (l : Location) (v : Int) : A.value e.formula = some k →
    Updates A x (.assign x .subAssign (some e) l) v (v - k)

/-- An integer literal is written as its number is printed. -/
def IsDecimal : Node → Prop
  | .literal text .int _ => ∃ n : Nat, text = toString n
  | _ => True

end Node

namespace Text

/-- No sign is read from the text of a number. -/
theorem readSigned?_toString (n : Nat) : readSigned? (toString n).toList = some (n : Int) := by
  have digit : ∀ c ∈ (toString n).toList, c.isDigit := fun c => isDigit_of_mem_toString
  unfold readSigned?
  split
  · next digits same => exact absurd (digit '+' (by rw [same]; exact List.mem_cons_self)) (by decide)
  · next digits same => exact absurd (digit '-' (by rw [same]; exact List.mem_cons_self)) (by decide)
  · rw [readNat?_toString]
    rfl

theorem readInt64?_toString (n : Nat) :
    readInt64? (toString n).toList = if fitsInt64 n then some (n : Int) else none := by
  rw [readInt64?, readSigned?_toString, Option.filter_some]

theorem fitsInt64_iff (n : Int) : fitsInt64 n ↔ -9223372036854775808 ≤ n ∧ n ≤ 9223372036854775807 := by
  rw [fitsInt64, Bool.and_eq_true, decide_eq_true_eq, decide_eq_true_eq]
  exact Iff.rfl

end Text

theorem Node.fitsInt64_of_intValue? {e : Node} {k : Int} (h : e.intValue? = some k) : Text.fitsInt64 k := by
  unfold intValue? at h
  split at h
  · exact (Option.filter_eq_some_iff.mp h).2
  · cases h

/-- A literal with a value is the text of the value. -/
theorem Node.eq_literal_of_intValue? {e : Node} (decimal : e.IsDecimal) {k : Int} (h : e.intValue? = some k) :
    ∃ (n : Nat) (l : Location), e = .literal (toString n) .int l ∧ k = n := by
  unfold intValue? at h
  split at h
  · next text l =>
    obtain ⟨n, rfl⟩ := decimal
    rw [Text.readInt64?_toString] at h
    split at h
    · exact ⟨n, l, rfl, (Option.some.inj h).symm⟩
    · cases h
  · cases h

theorem Arithmetic.value_of_intValue? (A : Arithmetic) {e : Node} (decimal : e.IsDecimal) {k : Int}
    (h : e.intValue? = some k) : A.value e.formula = some k := by
  obtain ⟨n, l, rfl, rfl⟩ := Node.eq_literal_of_intValue? decimal h
  exact A.number n

/-- The statement is an update by this step. -/
inductive Node.Steps (x : String) : Node → Int → Prop
  | increment (value : Option Node) (l : Location) : Steps x (.assign x .increment value l) 1
  | decrement (value : Option Node) (l : Location) : Steps x (.assign x .decrement value l) (-1)
  | add {e : Node} {k : Int} (l : Location) : e.intValue? = some k → 0 < k →
    Steps x (.assign x .addAssign (some e) l) k
  | sub {e : Node} {k : Int} (l : Location) : e.intValue? = some k → 0 < k →
    Steps x (.assign x .subAssign (some e) l) (-k)

namespace Node.Steps

variable {x : String} {u : Node} {step : Int}

theorem ne_zero (h : u.Steps x step) : step ≠ 0 := by
  cases h <;> omega

/-- The step is a word, also one that was negated. -/
theorem fits (h : u.Steps x step) : Text.fitsInt64 step := by
  cases h with
  | increment | decrement => rfl
  | add _ value _ => exact fitsInt64_of_intValue? value
  | sub _ value pos =>
    have fits := (Text.fitsInt64_iff _).mp (fitsInt64_of_intValue? value)
    exact (Text.fitsInt64_iff _).mpr (by omega)

theorem updates_iff (h : u.Steps x step) (A : Arithmetic) (decimal : ∀ e ∈ u.valuePlaces, e.IsDecimal)
    {v w : Int} : u.Updates A x v w ↔ w = v + step := by
  cases h with
  | increment value l =>
    constructor
    · rintro ⟨⟩
      rfl
    · rintro rfl
      exact .increment value l v
  | decrement value l =>
    constructor
    · rintro ⟨⟩
      rfl
    · rintro rfl
      exact .decrement value l v
  | @add e k l value _ =>
    have known := A.value_of_intValue? (decimal e (by simp [valuePlaces])) value
    constructor
    · rintro (_ | _ | ⟨_, _, other⟩)
      rw [known] at other
      rw [Option.some.inj other]
    · rintro rfl
      exact .add l v known
  | @sub e k l value _ =>
    have known := A.value_of_intValue? (decimal e (by simp [valuePlaces])) value
    constructor
    · rintro (_ | _ | _ | ⟨_, _, other⟩)
      rw [known] at other
      rw [← Option.some.inj other, Int.sub_eq_add_neg]
    · rintro rfl
      exact .sub l v known

end Node.Steps

namespace CountingLoop

variable {init test update : Option Node} {loop : CountingLoop} {op : BinOp} {u : Node}

theorem sets_of_start? {n value : Node} {x : String} (h : start? n = some (x, value)) : n.Sets x value := by
  unfold start? at h
  split at h
  · obtain ⟨rfl, rfl⟩ := Prod.mk.inj (Option.some.inj h)
    exact .declare _ _ _
  · obtain ⟨rfl, rfl⟩ := Prod.mk.inj (Option.some.inj h)
    exact .assign _ _
  · cases h

theorem steps_of_step? {x : String} {step : Int} (h : step? x u = some step) : u.Steps x step := by
  unfold step? at h
  split at h
  · next target op value l =>
    dsimp only at h
    have size {k : Int} (h : (value.bind Node.intValue?).filter (fun k => 0 < k) = some k) :
        ∃ e, value = some e ∧ e.intValue? = some k ∧ 0 < k := by
      obtain ⟨found, pos⟩ := Option.filter_eq_some_iff.mp h
      obtain ⟨e, rfl, known⟩ := Option.bind_eq_some_iff.mp found
      exact ⟨e, rfl, known, by simpa using pos⟩
    split at h
    · next same =>
      subst same
      split at h
      · cases h
        exact .increment value l
      · cases h
        exact .decrement value l
      · obtain ⟨e, rfl, known, pos⟩ := size h
        exact .add l known pos
      · obtain ⟨k, found, rfl⟩ := Option.map_eq_some_iff.mp h
        obtain ⟨e, rfl, known, pos⟩ := size found
        exact .sub l known pos
      · cases h
    · cases h
  · cases h

/-- The clauses of a loop that counts. -/
theorem clauses_of_of? (h : of? init test update = some loop) :
    ∃ n op l l' u, init = some n ∧ n.Sets loop.name loop.start ∧
      test = some (.binary op (.identifier loop.name l) loop.bound l') ∧
      update = some u ∧ u.Steps loop.name loop.step ∧ inclusive? op loop.step = some loop.inclusive := by
  simp only [of?, bind, Option.bind_eq_some_iff] at h
  obtain ⟨n, rfl, ⟨x, value⟩, started, e, rfl, h⟩ := h
  split at h
  · next op tested l bound l' =>
    split at h
    · next same =>
      subst same
      simp only [Option.bind_eq_some_iff] at h
      obtain ⟨u, rfl, step, stepped, inclusive, fits, found⟩ := h
      obtain rfl := Option.some.inj found
      exact ⟨n, op, l, l', u, rfl, sets_of_start? started, rfl, rfl, steps_of_step? stepped, fits⟩
    · cases h
  · cases h

theorem holds_iff {inclusive : Bool} {step : Int} (h : inclusive? op step = some inclusive) (start bound v : Int) :
    op.Holds v bound ↔ (Range.mk start (op.stop bound) step).Before v := by
  unfold inclusive? at h
  show _ ↔ if 0 < step then v < op.stop bound else op.stop bound < v
  by_cases up : 0 < step
  · rw [if_pos up] at h ⊢
    split at h
    · exact Iff.rfl
    · exact Int.lt_add_one_iff.symm
    · cases h
  · rw [if_neg up] at h ⊢
    split at h
    · exact Iff.rfl
    · show bound ≤ v ↔ bound - 1 < v
      omega
    · cases h

/-- **The turns of a counting loop are the members of its range.** -/
theorem turns_iff (steps : u.Steps loop.name loop.step) (tests : inclusive? op loop.step = some loop.inclusive)
    (decimal : ∀ e ∈ u.valuePlaces, e.IsDecimal) (A : Arithmetic) (start bound : Int) {vs : List Int} :
    Turns (op.Holds · bound) (u.Updates A loop.name) start vs ↔
      vs = (Range.mk start (op.stop bound) loop.step).members :=
  Range.turns_iff (r := ⟨start, op.stop bound, loop.step⟩) steps.ne_zero (holds_iff tests start bound)
    fun _ _ => steps.updates_iff A decimal

end CountingLoop
end MiniC
