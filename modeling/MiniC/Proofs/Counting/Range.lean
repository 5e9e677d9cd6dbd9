/-
# Ranges and the turns of a loop

A range has a start, an end and a step that is not 0. Its members are the numbers
`start + step * i` for `i = 0, 1, …` that have not reached the end, up or down as the
step goes (`Range.lt_size_iff`).

A loop tests its variable before each turn and updates it behind each. If the test asks
whether the end is not reached, and the update adds the step, then the values that the
variable has in the turns are the members of the range, and the loop ends with them
(`Range.turns_iff`). It does not matter whether the step divides the distance.

Key definitions: `Range`, `Range.members`, `Turns`.
Key theorems: `Range.lt_size_iff`, `Range.turns_iff`.
-/
namespace MiniC

structure Range where
  start : Int
  stop : Int
  step : Int
  deriving DecidableEq

namespace Range

/-- The number has not reached the end. -/
def Before (r : Range) (x : Int) : Prop := if 0 < r.step then x < r.stop else r.stop < x

/-- The number of steps from the start to the end, the last one taken whole. -/
def size (r : Range) : Nat :=
  if 0 < r.step then (-((r.start - r.stop) / r.step)).toNat else (-((r.stop - r.start) / -r.step)).toNat

def members (r : Range) : List Int := (List.range r.size).map fun (i : Nat) => r.start + r.step * i

/-- The range from the second member on. -/
def next (r : Range) : Range := { r with start := r.start + r.step }

/-- A distance `-a` holds more than `i` steps of size `k`, the last one whole or not. -/
theorem lt_ceil_iff {a k : Int} (pos : 0 < k) (i : Nat) : i < (-(a / k)).toNat ↔ a + k * i < 0 := by
  calc i < (-(a / k)).toNat
    _ ↔ a / k < -i := by omega
    _ ↔ a < -i * k := Int.ediv_lt_iff_lt_mul pos
    _ ↔ a + k * i < 0 := by rw [Int.neg_mul, Int.mul_comm]; omega

variable {r : Range}

theorem lt_size_iff (h : r.step ≠ 0) (i : Nat) : i < r.size ↔ r.Before (r.start + r.step * i) := by
  rw [size, Before]
  by_cases up : 0 < r.step
  · rw [if_pos up, if_pos up, lt_ceil_iff up]
    omega
  · have down : 0 < -r.step := by omega
    rw [if_neg up, if_neg up, lt_ceil_iff down, Int.neg_mul]
    omega

instance (x : Int) : Decidable (r.Before x) := by unfold Before; infer_instance

theorem size_pos_iff (h : r.step ≠ 0) : 0 < r.size ↔ r.Before r.start := by
  simpa using lt_size_iff h 0

theorem size_next (h : r.step ≠ 0) : r.next.size = r.size - 1 := by
  have shifted (i : Nat) : i < r.next.size ↔ i + 1 < r.size := by
    have place : r.start + r.step + r.step * i = r.start + r.step * (i + 1 : Nat) := by
      rw [Int.natCast_succ, Int.mul_add]
      omega
    rw [lt_size_iff h, ← place]
    exact lt_size_iff (r := r.next) h i
  have below := shifted (r.size - 1)
  have above := shifted r.next.size
  omega

theorem members_eq_nil (h : r.step ≠ 0) (reached : ¬r.Before r.start) : r.members = [] := by
  have none : r.size = 0 := Nat.eq_zero_of_not_pos (mt (size_pos_iff h).mp reached)
  rw [members, none, List.range_zero, List.map_nil]

theorem members_eq_cons (h : r.step ≠ 0) (before : r.Before r.start) :
    r.members = r.start :: r.next.members := by
  obtain ⟨n, hn⟩ : ∃ n, r.size = n + 1 := ⟨r.size - 1, by have := (size_pos_iff h).mpr before; omega⟩
  have rest : r.next.size = n := by rw [size_next h, hn, Nat.add_sub_cancel]
  rw [members, members, rest, hn, List.range_succ_eq_map, List.map_cons, List.map_map]
  congr 1
  · simp
  · refine List.map_congr_left fun i _ => ?_
    show r.start + r.step * (i + 1 : Nat) = r.start + r.step + r.step * i
    rw [Int.natCast_succ, Int.mul_add]
    omega

end Range

/-- The values of a loop's variable in the turns of the loop, which starts with `v`. -/
inductive Turns (test : Int → Prop) (update : Int → Int → Prop) : Int → List Int → Prop
  | done {v : Int} : ¬test v → Turns test update v []
  | turn {v w : Int} {vs : List Int} :
    test v → update v w → Turns test update w vs → Turns test update v (v :: vs)

/-- **A loop that counts towards an end takes the values of the range**, and no others. -/
theorem Range.turns_iff {r : Range} (h : r.step ≠ 0) {test : Int → Prop} {update : Int → Int → Prop}
    (tests : ∀ v, test v ↔ r.Before v) (updates : ∀ v w, update v w ↔ w = v + r.step) {vs : List Int} :
    Turns test update r.start vs ↔ vs = r.members := by
  constructor
  · intro turns
    generalize hv : r.start = v at turns
    induction turns generalizing r with
    | done reached =>
      subst hv
      exact (members_eq_nil h (fun before => reached ((tests _).mpr before))).symm
    | turn inside updated _ ih =>
      subst hv
      rw [members_eq_cons h ((tests _).mp inside),
        ← ih (r := r.next) h tests updates ((updates _ _).mp updated).symm]
  · intro same
    induction vs generalizing r with
    | nil =>
      refine .done fun inside => ?_
      rw [members_eq_cons h ((tests _).mp inside)] at same
      cases same
    | cons v vs ih =>
      by_cases before : r.Before r.start
      · rw [members_eq_cons h before] at same
        obtain ⟨rfl, rest⟩ := List.cons.inj same
        exact .turn ((tests _).mpr before) ((updates _ _).mpr rfl) (ih (r := r.next) h tests updates rest)
      · rw [members_eq_nil h before] at same
        cases same

end MiniC
