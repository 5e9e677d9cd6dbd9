/-
# Decimal numerals

Whole numbers are written in decimal digits, integers with an optional sign. The
readers take a whole text or nothing, and nothing out of the range of a 64-bit
word.

Key definitions: `readNat?`, `readInt64?`, `fitsInt64`.
-/
namespace MiniC
namespace Text

/-- The value of a row of digits read after `n`. -/
def valueFrom (n : Nat) (digits : List Char) : Nat :=
  digits.foldl (fun value c => 10 * value + (c.toNat - '0'.toNat)) n

/-- The number that a text of one or more digits denotes. -/
def readNat? (cs : List Char) : Option Nat :=
  if cs ≠ [] && cs.all Char.isDigit then some (valueFrom 0 cs) else none

/-- The number is a signed word of 64 bits. -/
def fitsInt64 (n : Int) : Bool := Int64.minValue.toInt ≤ n && n ≤ Int64.maxValue.toInt

/-- The signed number that digits behind an optional sign denote. -/
def readSigned? : List Char → Option Int
  | '+' :: digits => (readNat? digits).map Int.ofNat
  | '-' :: digits => (readNat? digits).map fun n => -(Int.ofNat n)
  | digits => (readNat? digits).map Int.ofNat

/-- The 64-bit integer that a text denotes. -/
def readInt64? (cs : List Char) : Option Int :=
  (readSigned? cs).filter fun n => fitsInt64 n

/-- The number of an unsigned 64-bit word that digits denote, and 0 for no digits
or too large a number. -/
def readWord (digits : List Char) : Nat :=
  match readNat? digits with
  | some n => if n < UInt64.size then n else 0
  | none => 0

end Text
end MiniC
