/-
# Lines of code are read word by word

The text of some lines is their texts, each behind its indentation and before a
newline (`layout_text`). It is read row after row: `Covers` is the reading of a text
over any number of rows, with the words on the way and without the newlines between
them, and the words of a text that is covered are what the parser gets
(`Covers.tokens`).

Line texts are put together from parts. Most parts are read as their words only
before what cannot extend them (`ReadsAs`); those that end in a blank, a delimiter or
an operator of two characters are read as their words before everything (`Firm`).

Key definitions: `Covers`, `Firm`, `Line.chars`, `LinesRead`.
Key theorems: `layout_text`, `Covers.tokens`, `keyword_readsAs`, `LinesRead.line`, `LinesRead.append`.
-/
import MiniC.Emit.Layout
import MiniC.Proofs.Factorization
import MiniC.Proofs.Rendering

namespace MiniC

open Lexeme

/-! ### The text of some lines -/

/-- The rows of a text, each ended by a newline, are the text with a newline behind. -/
theorem rows_chars (cs : List Char) : (Text.rows cs).flatMap (· ++ ['\n']) = cs ++ ['\n'] := by
  fun_induction Text.rows cs with
  | case1 => rfl
  | case2 cs ih => rw [List.flatMap_cons, ih]; rfl
  | case3 c cs _ none ih => rw [none] at ih; simp at ih
  | case4 c cs _ row more some ih =>
    rw [some] at ih
    rw [List.flatMap_cons] at ih ⊢
    rw [List.cons_append, List.cons_append, ih]
    rfl

/-- The characters of a line with the newline behind it. -/
def Line.chars (l : Line) : List Char := (indentation l.depth ++ l.text).toList ++ ['\n']

theorem Line.rows_join (l : Line) : l.rows.flatMap (fun row => (row ++ "\n").toList) = l.chars := by
  have each (row : List Char) : (String.ofList row ++ "\n").toList = row ++ ['\n'] := by simp
  rw [Line.rows, List.flatMap_map]
  simp only [each]
  exact rows_chars _

theorem push_lines (ls : List Line) (output : List String) :
    (ls.map Item.line).foldl Layout.push output = (ls.flatMap Line.rows).reverse ++ output := by
  induction ls generalizing output with
  | nil => rfl
  | cons l ls ih =>
    rw [List.map_cons, List.foldl_cons, ih, Layout.push, List.flatMap_cons, List.reverse_append,
      List.append_assoc]

theorem layout_text (ls : List Line) : (Layout.text (ls.map .line)).toList = ls.flatMap Line.chars := by
  have rows : Layout.rows (ls.map .line) = ls.flatMap Line.rows := by
    rw [Layout.rows, push_lines, List.append_nil, List.reverse_reverse]
  rw [Layout.text, rows, String.toList_join, List.flatMap_map, List.flatMap_assoc]
  exact congrArg (ls.flatMap ·) (funext Line.rows_join)

/-! ### Reading over several rows -/

/-- The text `cs` starts with pieces that spell `ls` in one or more rows and goes on
with `rest`. -/
def Covers (cs : List Char) (ls : List Lexeme) (rest : List Char) : Prop :=
  ∃ ps, pieces cs = ps ++ pieces rest ∧ (ps.filterMap Piece.word?).filter (·.1 ≠ .newline) = ls ∧
    ∀ p ∈ ps, p.problem? = none

theorem Scans.covers {cs rest : List Char} {ls : List Lexeme} (h : Scans cs ls rest) : Covers cs ls rest := by
  have kinds := h.kinds
  obtain ⟨ps, cut, rfl, fine⟩ := h
  refine ⟨ps, cut, List.filter_eq_self.mpr fun l hl => ?_, fun p hp => (fine p hp).1⟩
  simpa using (kinds l hl).1

namespace Covers

variable {cs ds rest : List Char} {ls ms : List Lexeme}

theorem refl (cs : List Char) : Covers cs [] cs := (Scans.refl cs).covers

theorem trans (h : Covers cs ls ds) (h' : Covers ds ms rest) : Covers cs (ls ++ ms) rest := by
  obtain ⟨ps, hps, rfl, fine⟩ := h
  obtain ⟨qs, hqs, rfl, fine'⟩ := h'
  refine ⟨ps ++ qs, ?_, by rw [List.filterMap_append, List.filter_append], ?_⟩
  · rw [hps, hqs, List.append_assoc]
  · intro p hp
    rcases List.mem_append.mp hp with hp | hp
    · exact fine p hp
    · exact fine' p hp

theorem newline (rest : List Char) : Covers ('\n' :: rest) [] rest := by
  refine ⟨[.newline], ?_, rfl, by simp [Piece.problem?]⟩
  rw [pieces]
  rfl

end Covers

theorem Piece.word?_kind {p : Piece} {l : Lexeme} (h : p.word? = some l) : l.1 ≠ .endOfInput := by
  cases p with
  | word letters =>
    obtain rfl : _ = l := by simpa [Piece.word?, Piece.lexeme?] using h
    dsimp only
    split <;> decide
  | _ => simp [Piece.word?, Piece.lexeme?] at h <;> simp [← h]

/-- The parser gets the words of the text, without newlines. -/
theorem wordsOf_tokenize (source : String) :
    wordsOf (tokenize source).tokens = (wordsIn source.toList).filter (·.1 ≠ .newline) := by
  have commute : wordsOf (tokenize source).tokens =
      (((tokenize source).tokens.map Token.lexeme).filter (·.1 ≠ .newline)).takeWhile (·.1 ≠ .endOfInput) := by
    rw [wordsOf, List.filter_map, List.takeWhile_map]
    rfl
  have before : ∀ l ∈ (wordsIn source.toList).filter (·.1 ≠ .newline), decide (l.1 ≠ .endOfInput) = true := by
    intro l hl
    obtain ⟨p, -, word⟩ := List.mem_filterMap.mp (List.mem_filter.mp hl).1
    simpa using Piece.word?_kind word
  rw [commute, tokenize_words, List.filter_append, List.takeWhile_append_of_pos before]
  simp

/-- A text that is read to its end has no other words. -/
theorem Covers.tokens {source : String} {ls : List Lexeme} (h : Covers source.toList ls []) :
    wordsOf (tokenize source).tokens = ls ∧ (tokenize source).diagnostics = [] := by
  obtain ⟨ps, cut, rfl, fine⟩ := h
  rw [pieces_nil, List.append_nil] at cut
  exact ⟨by rw [wordsOf_tokenize, wordsIn, cut], tokenize_clean fun p hp => fine p (cut ▸ hp)⟩

/-! ### Parts of a line -/

/-- The text is read as these words, whatever follows. -/
def Firm (text : String) (ls : List Lexeme) : Prop :=
  ∀ rest, Scans (text.toList ++ rest) ls rest

/-- The text starts with a character that cannot extend a name or number. -/
def Separates (text : String) : Prop := StartsWith (fun c => Piece.isWordChar c = false ∧ c ≠ '.') text

theorem Firm.empty : Firm "" [] := Scans.refl

theorem Firm.blank : Firm " " [] := blank_scans

theorem Firm.delimiter {c : Char} (h : c ∈ Piece.delimiterChars) :
    Firm (String.ofList [c]) [punct (String.ofList [c])] := by
  intro rest
  rw [String.toList_ofList]
  exact .piece (Piece.next_delimiter h) rfl (by simp)

theorem Firm.append {a b : String} {ls ms : List Lexeme} (h : Firm a ls) (h' : Firm b ms) :
    Firm (a ++ b) (ls ++ ms) := by
  intro rest
  rw [String.toList_append, List.append_assoc]
  exact (h _).trans (h' rest)

theorem Firm.readsAs {text : String} {ls : List Lexeme} (h : Firm text ls) : ReadsAs text ls :=
  fun _ => h _

/-- Behind a firm text another one is read as it is alone. -/
theorem Firm.before {a b : String} {ls ms : List Lexeme} (h : Firm a ls) (h' : ReadsAs b ms) :
    ReadsAs (a ++ b) (ls ++ ms) := by
  intro rest ends
  rw [String.toList_append, List.append_assoc]
  exact (h _).trans (h' ends)

/-- A firm text that separates completes the reading of what stands before it. -/
theorem ReadsAs.firm {a b : String} {ls ms : List Lexeme} (h : ReadsAs a ls) (h' : Firm b ms)
    (separates : Separates b) : Firm (a ++ b) (ls ++ ms) := by
  intro rest
  obtain ⟨c, cs, hb, other, dot⟩ := separates
  rw [String.toList_append, List.append_assoc]
  refine (h ?_).trans (h' rest)
  rw [hb]
  exact ends_of c _ other dot

theorem keywords_spelled : keywords.all fun text =>
    text.toList.head?.any Piece.isLetter && text.toList.tail.all Piece.isWordChar := by decide

/-- A keyword is read as such before everything that cannot extend it. -/
theorem keyword_readsAs {text : String} (h : text ∈ keywords) : ReadsAs text [keyword text] := by
  have spelled := List.all_eq_true.mp keywords_spelled text h
  intro rest ends
  cases chars : text.toList with
  | nil => simp [chars] at spelled
  | cons c cs =>
    obtain ⟨letter, all⟩ : Piece.isLetter c ∧ ∀ d ∈ cs, Piece.isWordChar d := by
      simpa [chars] using spelled
    obtain ⟨taken, left⟩ := takeWhile_append_stop all fun d hd => (ends d hd).1
    have first : Piece.next c (cs ++ rest) = (.word text.toList, rest) := by
      rw [next_word letter, taken, left, chars]
    have word : (Piece.word text.toList).word? = some (keyword text) := by
      have reserved : isKeyword text = true := by simpa [isKeyword] using h
      simp [Piece.word?, Piece.lexeme?, String.ofList_toList, reserved, keyword]
    have scanned := Scans.piece first rfl (by simp)
    rw [word] at scanned
    exact scanned

/-! ### Lines -/

/-- The lines are read as these words. -/
def LinesRead (lines : List Line) (ls : List Lexeme) : Prop :=
  ∀ rest, Covers (lines.flatMap Line.chars ++ rest) ls rest

namespace LinesRead

variable {lines more : List Line} {ls ms : List Lexeme}

theorem nil : LinesRead [] [] := Covers.refl

theorem append (h : LinesRead lines ls) (h' : LinesRead more ms) : LinesRead (lines ++ more) (ls ++ ms) := by
  intro rest
  rw [List.flatMap_append, List.append_assoc]
  exact (h _).trans (h' rest)

theorem indentation_scans (depth : Nat) (rest : List Char) :
    Scans ((indentation depth).toList ++ rest) [] rest := by
  rw [indentation, String.toList_ofList]
  induction 4 * depth with
  | zero => exact .refl rest
  | succ n ih =>
    rw [List.replicate_succ, List.cons_append]
    exact (blank_scans _).trans ih

theorem line {text : String} (depth : Nat) (h : Firm text ls) : LinesRead [⟨depth, text⟩] ls := by
  intro rest
  have row := (indentation_scans depth (text.toList ++ '\n' :: rest)).trans (h _)
  have ended := row.covers.trans (Covers.newline rest)
  rw [List.nil_append, List.append_nil] at ended
  simpa [Line.chars] using ended

/-- A line in front of others. -/
theorem cons {text : String} (depth : Nat) (h : Firm text ls) (h' : LinesRead more ms) :
    LinesRead (⟨depth, text⟩ :: more) (ls ++ ms) :=
  (line depth h).append h'

/-- What the parser gets from the text of some lines. -/
theorem tokens (h : LinesRead lines ls) :
    wordsOf (tokenize (Layout.text (lines.map .line))).tokens = ls ∧
      (tokenize (Layout.text (lines.map .line))).diagnostics = [] := by
  have whole := h []
  rw [List.append_nil, ← layout_text] at whole
  exact whole.tokens

end LinesRead

end MiniC
