/-
# Numerals are read back

A number is printed with decimal digits, and they denote the number again
(`readNat?_toString`).

Key theorems: `Text.valueFrom_eq`, `Text.readWord_eq`, `Text.readNat?_toString`.
-/
import MiniC.Proofs.Scan
import MiniC.Text.Numeral

namespace MiniC
namespace Text

theorem valueFrom_eq (n : Nat) (digits : List Char) : valueFrom n digits = Nat.ofDigitChars 10 digits n :=
  Nat.ofDigitChars_eq_foldl.symm

theorem readNat?_eq_some_iff {cs : List Char} {n : Nat} :
    readNat? cs = some n ↔ cs ≠ [] ∧ (∀ c ∈ cs, c.isDigit) ∧ Nat.ofDigitChars 10 cs 0 = n := by
  rw [readNat?, valueFrom_eq]
  by_cases digits : cs ≠ [] ∧ ∀ c ∈ cs, c.isDigit
  · rw [if_pos (by simpa using digits), Option.some.injEq]
    exact ⟨fun same => ⟨digits.1, digits.2, same⟩, fun h => h.2.2⟩
  · rw [if_neg (by simpa using digits)]
    exact ⟨fun h => (by cases h), fun h => absurd ⟨h.1, h.2.1⟩ digits⟩

/-- The precision that digits ask for is their number, if a word holds it. -/
theorem readWord_eq {digits : List Char} (all : ∀ c ∈ digits, c.isDigit) :
    readWord digits =
      if Nat.ofDigitChars 10 digits 0 < UInt64.size then Nat.ofDigitChars 10 digits 0 else 0 := by
  rw [readWord]
  by_cases none : digits = []
  · subst none
    rfl
  · rw [readNat?_eq_some_iff.mpr ⟨none, all, rfl⟩]

theorem toString_digits (n : Nat) : (toString n).toList = Nat.toDigits 10 n := Nat.toList_repr

theorem isDigit_of_mem_toString {n : Nat} {c : Char} (h : c ∈ (toString n).toList) : c.isDigit := by
  rw [toString_digits] at h
  exact Nat.isDigit_of_mem_toDigits (by decide) (by decide) h

/-- The digits of a printed number denote the number. -/
theorem readNat?_toString (n : Nat) : readNat? (toString n).toList = some n := by
  refine readNat?_eq_some_iff.mpr ⟨?_, fun c => isDigit_of_mem_toString, ?_⟩
  · rw [toString_digits]
    exact Nat.toDigits_ne_nil
  · rw [toString_digits, Nat.ofDigitChars_ten_toDigits]

theorem readWord_toString {n : Nat} (h : n < UInt64.size) : readWord (toString n).toList = n := by
  rw [readWord, readNat?_toString]
  exact if_pos h

end Text
end MiniC
