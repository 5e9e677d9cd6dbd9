/-
# Format strings

The format of a `printf` or `scanf` is cut into text, percent escapes `%%` and
conversion markers. A marker is a percent sign, flags and a width, an optional
precision, length modifiers and a letter. A backslash keeps the character behind
it as text, and a percent sign that starts no marker is text.

Key definitions: `Marker`, `Segment`, `Marker.read?`, `Format.segments`,
`Format.conversions`, `Format.plainText`.
Key theorems: `Marker.raw_append_of_read?`.
-/
import MiniC.Text.Numeral

namespace MiniC

/-- The kind of value that a marker takes. -/
inductive Conversion where
  | integer
  | float
  | string
  | char
  deriving DecidableEq

def Conversion.name : Conversion → String
  | integer => "Integer"
  | float => "Float"
  | string => "String"
  | char => "Char"

def Conversion.ofLetter? (letter : Char) : Option Conversion :=
  if letter ∈ ['d', 'i', 'u'] then some integer
  else if letter ∈ ['f', 'F', 'e', 'E', 'g', 'G'] then some float
  else if letter = 's' then some string
  else if letter = 'c' then some char
  else none

/-- A conversion marker by its parts: flag characters with the digits of the width,
the digits of the precision if a point starts one, length modifiers, the letter. -/
structure Marker where
  flags : List Char
  digits : Option (List Char)
  modifiers : List Char
  letter : Char
  deriving DecidableEq

namespace Marker

/-- The marker as it was written. -/
def raw (m : Marker) : List Char :=
  '%' :: m.flags ++ m.digits.elim [] ('.' :: ·) ++ m.modifiers ++ [m.letter]

/-- The precision asked for; no digits, or more than a 64-bit word holds, ask for 0. -/
def precision (m : Marker) : Option Nat := m.digits.map Text.readWord

/-- What the letter stands for, if it is a known one. -/
def conversion? (m : Marker) : Option Conversion := Conversion.ofLetter? m.letter

/-- What the marker takes; an unknown letter takes an integer. -/
def conversion (m : Marker) : Conversion := m.conversion?.getD .integer

def isFlag (c : Char) : Bool := ['-', '+', ' ', '#', '0'].contains c

def isLengthModifier (c : Char) : Bool := ['h', 'l', 'L', 'q', 'j', 'z', 't'].contains c

/-- Flag characters and the digits of a width, and what follows. -/
def readFlags (cs : List Char) : List Char × List Char :=
  let rest := cs.dropWhile isFlag
  (cs.takeWhile isFlag ++ rest.takeWhile Char.isDigit, rest.dropWhile Char.isDigit)

/-- The digits of a precision, if a point starts one, and what follows. -/
def readPrecision : List Char → Option (List Char) × List Char
  | '.' :: cs => (some (cs.takeWhile Char.isDigit), cs.dropWhile Char.isDigit)
  | cs => (none, cs)

/-- The marker whose percent sign stands right before the text, and what follows. -/
def read? (cs : List Char) : Option (Marker × List Char) :=
  let flags := readFlags cs
  let digits := readPrecision flags.2
  match digits.2.dropWhile isLengthModifier with
  | [] => none
  | letter :: rest =>
    if letter.isAlpha then
      some (⟨flags.1, digits.1, digits.2.takeWhile isLengthModifier, letter⟩, rest)
    else none

theorem readFlags_append (cs : List Char) : (readFlags cs).1 ++ (readFlags cs).2 = cs := by
  simp [readFlags, List.takeWhile_append_dropWhile]

theorem readPrecision_append (cs : List Char) :
    (readPrecision cs).1.elim [] ('.' :: ·) ++ (readPrecision cs).2 = cs := by
  unfold readPrecision
  split
  next cs => simp [List.takeWhile_append_dropWhile]
  next => rfl

/-- Nothing is lost: the marker and what follows make up the text. -/
theorem raw_append_of_read? {cs rest : List Char} {m : Marker} (h : read? cs = some (m, rest)) :
    m.raw ++ rest = '%' :: cs := by
  unfold read? at h
  dsimp only at h
  split at h
  next => simp at h
  next letter rest' eq =>
    split at h
    next =>
      obtain ⟨rfl, rfl⟩ := Prod.mk.inj (Option.some.inj h)
      have modifiers := List.takeWhile_append_dropWhile (p := isLengthModifier)
        (l := (readPrecision (readFlags cs).2).2)
      rw [eq] at modifiers
      simp only [raw, List.cons_append, List.append_assoc, List.nil_append, List.cons.injEq, true_and]
      rw [modifiers, readPrecision_append, readFlags_append]
    next => simp at h

/-- Reading a marker takes at least its letter. -/
theorem read?_shorter {cs rest : List Char} {m : Marker} (h : read? cs = some (m, rest)) :
    rest.length < cs.length := by
  have all := congrArg List.length (raw_append_of_read? h)
  simp only [raw, List.length_append, List.length_cons, List.length_nil] at all
  omega

end Marker

/-- A part of a format string. -/
inductive Segment where
  | text (chars : List Char)
  | percent
  | marker (m : Marker)
  deriving DecidableEq

namespace Format

/-- Puts text in front, into the text that stands there already if there is some. -/
def prependText (chars : List Char) : List Segment → List Segment
  | .text more :: segments => .text (chars ++ more) :: segments
  | segments => .text chars :: segments

/-- The segments of a format string. -/
def segments : List Char → List Segment
  | [] => []
  | c :: cs =>
    if c = '\\' then
      match cs with
      | [] => [.text [c]]
      | escaped :: cs => prependText [c, escaped] (segments cs)
    else if c = '%' then
      if cs.head? = some '%' then .percent :: segments cs.tail
      else
        match _found : Marker.read? cs with
        | some (m, rest) => .marker m :: segments rest
        | none => prependText [c] (segments cs)
    else prependText [c] (segments cs)
termination_by cs => cs.length
decreasing_by
  · simp only [List.length_cons]
    omega
  · simp only [List.length_tail, List.length_cons]
    omega
  · have := Marker.read?_shorter _found
    simp only [List.length_cons]
    omega
  · simp
  · simp

/-- What the markers of a format take, in order. -/
def conversions (format : String) : List Conversion :=
  (segments format.toList).filterMap fun
    | .marker m => some m.conversion
    | _ => none

/-- The format as it prints with no arguments: `%%` is a percent sign and markers
stay as they are. -/
def plainText (format : String) : String :=
  String.join ((segments format.toList).map fun
    | .text chars => String.ofList chars
    | .percent => "%"
    | .marker m => String.ofList m.raw)

end Format

end MiniC
