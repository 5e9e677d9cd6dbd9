/-
# The source pane

The source with line numbers, coloured line by line without regard to the lines
before. A comment runs to the end of its line, and so does a directive that
nothing but blanks stand before; literals run to their quote or the end of the
line; the rest is words and single characters. Numbers of lines with a diagnostic
stand out.

Key definitions: `Highlight.spans`, `drawSource`.
-/
import MiniC.Text.Alphanumeric
import MiniC.Text.Lines
import MiniC.Text.Pad
import MiniC.Token
import MiniC.Token.Piece
import MiniC.View.Pane

namespace MiniC

namespace Highlight

def isWordChar (c : Char) : Bool := Text.isAlphanumeric c || c = '_'

/-- A comment of either form starts with `c` before `cs`. -/
def startsComment (c : Char) (cs : List Char) : Bool :=
  c = '/' && (cs.head? = some '/' || cs.head? = some '*')

/-- The style of a word, `isCall` telling whether a parenthesis follows. -/
def wordStyle (word : String) (isCall : Bool) : Style :=
  if isTypeKeyword word then .ink Theme.typeName
  else if word = "printf" || word = "scanf" || isCall then .ink Theme.call
  else if isKeyword word then .boldInk Theme.keyword
  else if word.toList.head?.any Char.isDigit then .ink Theme.numberLiteral
  else .ink Theme.text

/-- The style of a word by what follows it. Right before a comment or a literal a
word has no style. -/
def styleBefore (word : String) : List Char → Style
  | [] => wordStyle word false
  | c :: cs =>
    if startsComment c cs || Piece.isQuote c then .plain else wordStyle word (c = '(')

/-- The style of a character that is part of no word. -/
def symbolStyle (c : Char) : Style :=
  if ['\x7b', '\x7d', '(', ')', '[', ']'].contains c then .ink Theme.accent else .ink Theme.text

/-- A literal in quotes. -/
def literalSpan (quote : Char) (raw : List Char) (closed : Bool) : Span :=
  ⟨String.ofList (Piece.literal quote raw closed).chars, .ink Theme.stringLiteral⟩

/-- The coloured parts of what is left of a line, `atStart` telling whether only
blanks stand before it. -/
def spans (atStart : Bool) : List Char → List Span
  | [] => []
  | c :: cs =>
    if startsComment c cs || (c = '#' && atStart) then
      [⟨String.ofList (c :: cs), .ink Theme.muted⟩]
    else if Piece.isQuote c then
      let body := Piece.literalBody c cs
      literalSpan c body.1 body.2.1 :: spans false body.2.2
    else if isWordChar c then
      let word := String.ofList (c :: cs.takeWhile isWordChar)
      let rest := cs.dropWhile isWordChar
      ⟨word, styleBefore word rest⟩ :: spans false rest
    else ⟨String.ofList [c], symbolStyle c⟩ :: spans (atStart && Text.isBlank c) cs
termination_by cs => cs.length
decreasing_by
  · have all := congrArg List.length (Piece.literalBody_chars c cs)
    simp only [List.length_append, List.length_cons] at all ⊢
    omega
  · have := (List.dropWhile_sublist isWordChar (l := cs)).length_le
    simp only [List.length_cons]
    omega
  · simp

/-- The coloured parts of a line. -/
def line (text : String) : List Span := spans true text.toList

end Highlight

/-- A row of the source pane. -/
def sourceRow (marked : List Nat) (number : Nat) (text : String) : List Span :=
  let style := if marked.contains number then .boldInk Theme.error else .ink Theme.muted
  ⟨Text.padLeft 4 (toString number) ++ " ", style⟩ :: Highlight.line text

/-- Draws the source pane; `marked` are the numbers of lines with a diagnostic. -/
def drawSource {σ : Type} [Terminal σ] (s : σ) (a : Area) (focused : Bool) (source : String)
    (marked : List Nat) (offset : Nat) : σ × Nat :=
  let lines := Text.lines source
  let offset := clampOffset lines.length (visibleHeight a) offset
  let rows := (window lines.zipIdx (visibleHeight a) offset).map fun (text, index) =>
    sourceRow marked (index + 1) text
  (Terminal.drawParagraph s { lines := rows, frame := some (paneFrame " Source " focused) } a, offset)

end MiniC
