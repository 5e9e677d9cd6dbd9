/-
# Reading a text word by word

`Scans cs ls rest` says that the text `cs` starts with pieces whose words are `ls`
and goes on with `rest`; no piece among them is faulty or ends the line. What
follows is part of the statement because a piece takes as much as its class
allows. Such readings are put one behind the other (`Scans.trans`), and one that
reaches the end of a text gives its tokens (`Scans.tokens`).

A name or number that is read as one token alone is read as this token before
everything that cannot extend it (`LexesAs.scans_name`, `LexesAs.scans_number`),
and an escaped text between quotes is read as one string (`scans_literal`).

Key definitions: `Piece.word?`, `Scans`, `LexesAs`, `Ends`, `Text.paired`.
Key theorems: `Scans.tokens`, `LexesAs.scans_name`, `LexesAs.scans_number`, `scans_literal`.
-/
import Mathlib.Data.List.TakeWhile
import MiniC.Proofs.Lexeme
import MiniC.Text.Quoted
import MiniC.Token.Lexer

namespace MiniC

open Lexeme

/-- The word that a piece gives. -/
def Piece.word? (p : Piece) : Option Lexeme :=
  p.lexeme?.map fun (kind, text) => (kind, String.ofList text)

/-- The words of a text. -/
def wordsIn (cs : List Char) : List Lexeme := (pieces cs).filterMap Piece.word?

/-- The text `cs` starts with pieces that spell `ls` and goes on with `rest`. -/
def Scans (cs : List Char) (ls : List Lexeme) (rest : List Char) : Prop :=
  ∃ ps, pieces cs = ps ++ pieces rest ∧ ps.filterMap Piece.word? = ls ∧
    ∀ p ∈ ps, p.problem? = none ∧ p ≠ .newline

namespace Scans

variable {cs ds rest : List Char} {ls ms : List Lexeme}

theorem refl (cs : List Char) : Scans cs [] cs :=
  ⟨[], rfl, rfl, by simp⟩

theorem trans (h : Scans cs ls ds) (h' : Scans ds ms rest) : Scans cs (ls ++ ms) rest := by
  obtain ⟨ps, hps, rfl, fine⟩ := h
  obtain ⟨qs, hqs, rfl, fine'⟩ := h'
  refine ⟨ps ++ qs, ?_, List.filterMap_append, ?_⟩
  · rw [hps, hqs, List.append_assoc]
  · intro p hp
    rcases List.mem_append.mp hp with hp | hp
    · exact fine p hp
    · exact fine' p hp

theorem piece {c : Char} {p : Piece} (h : Piece.next c cs = (p, rest)) (fine : p.problem? = none)
    (inLine : p ≠ .newline) : Scans (c :: cs) p.word?.toList rest := by
  refine ⟨[p], ?_, ?_, by simpa using ⟨fine, inLine⟩⟩
  · rw [pieces, h, List.singleton_append]
  · cases hw : p.word? <;> simp [hw]

end Scans

/-! ### From pieces to tokens -/

theorem place_pieces (l : Location) (ps : List Piece) : (place l ps).map Prod.fst = ps := by
  induction ps generalizing l with
  | nil => rfl
  | cons p ps ih => rw [place, List.map_cons, ih]

theorem token?_lexeme (p : Piece) (l : Location) : (p.token? l).map Token.lexeme = p.word? := by
  rw [Piece.token?, Piece.word?, Option.map_map]
  rfl

theorem tokenize_words (source : String) :
    (tokenize source).tokens.map Token.lexeme = wordsIn source.toList ++ [(.endOfInput, "")] := by
  have words (placed : List (Piece × Location)) :
      (placed.filterMap fun p => p.1.token? p.2).map Token.lexeme =
        (placed.map Prod.fst).filterMap Piece.word? := by
    rw [List.map_filterMap, List.filterMap_map]
    exact congrArg (List.filterMap · placed) (funext fun p => token?_lexeme p.1 p.2)
  calc (tokenize source).tokens.map Token.lexeme
    _ = ((place .start (pieces source.toList)).filterMap fun p => p.1.token? p.2).map Token.lexeme ++
          [(.endOfInput, "")] := List.map_append
    _ = wordsIn source.toList ++ [(.endOfInput, "")] := by rw [words, place_pieces, wordsIn]

theorem tokenize_clean {source : String} (h : ∀ p ∈ pieces source.toList, p.problem? = none) :
    (tokenize source).diagnostics = [] := by
  refine List.filterMap_eq_nil_iff.mpr fun (p, l) hp => ?_
  have piece : p ∈ pieces source.toList := by
    rw [← place_pieces .start (pieces source.toList)]
    exact List.mem_map_of_mem hp
  show p.diagnostic? l = none
  rw [Piece.diagnostic?, h p piece, Option.map_none]

theorem pieces_nil : pieces [] = [] := by
  rw [pieces]

/-- A text that is read to its end has no other tokens. -/
theorem Scans.tokens {source : String} {ls : List Lexeme} (h : Scans source.toList ls []) :
    (tokenize source).tokens.map Token.lexeme = ls ++ [(.endOfInput, "")] ∧
      (tokenize source).diagnostics = [] := by
  obtain ⟨ps, hps, rfl, fine⟩ := h
  rw [pieces_nil, List.append_nil] at hps
  exact ⟨by rw [tokenize_words, wordsIn, hps], tokenize_clean fun p hp => (fine p (hps ▸ hp)).1⟩

/-- The words on the way are no newlines and no end of input. -/
theorem Scans.kinds {cs rest : List Char} {ls : List Lexeme} (h : Scans cs ls rest) :
    ∀ l ∈ ls, l.1 ≠ .newline ∧ l.1 ≠ .endOfInput := by
  obtain ⟨ps, -, rfl, fine⟩ := h
  intro l hl
  obtain ⟨p, hp, hword⟩ := List.mem_filterMap.mp hl
  obtain ⟨-, inLine⟩ := fine p hp
  cases p with
  | newline => exact absurd rfl inLine
  | word letters =>
    obtain rfl : _ = l := by simpa [Piece.word?, Piece.lexeme?] using hword
    dsimp only
    split <;> decide
  | _ => simp [Piece.word?, Piece.lexeme?] at hword <;> simp [← hword]

/-! ### Texts that are one token -/

/-- Read alone, the text is this word and nothing else. -/
def LexesAs (text : String) (l : Lexeme) : Prop :=
  (tokenize text).tokens.map Token.lexeme = [l, (.endOfInput, "")]

instance (text : String) (l : Lexeme) : Decidable (LexesAs text l) :=
  inferInstanceAs (Decidable (_ = _))

theorem length_le_of_mem_pieces {cs : List Char} {p : Piece} (h : p ∈ pieces cs) :
    p.chars.length ≤ cs.length := by
  fun_induction pieces cs with
  | case1 => simp at h
  | case2 c cs ih =>
    rcases List.mem_cons.mp h with rfl | h
    · have total := congrArg List.length (Piece.next_chars c cs)
      rw [List.length_append] at total
      omega
    · have shorter := Piece.next_shorter c cs
      exact Nat.le_trans (ih h) (Nat.le_of_lt shorter)

/-- A piece that covers the whole text is the first one, and nothing follows it. -/
theorem next_of_covers {c : Char} {cs : List Char} {p : Piece} (h : p ∈ pieces (c :: cs))
    (covers : p.chars = c :: cs) : Piece.next c cs = (p, []) := by
  rw [pieces] at h
  rcases List.mem_cons.mp h with rfl | later
  · have whole := Piece.next_chars c cs
    rw [covers] at whole
    exact Prod.ext rfl (List.append_right_eq_self.mp whole)
  · have fits := length_le_of_mem_pieces later
    have shorter := Piece.next_shorter c cs
    rw [covers] at fits
    omega

/-- The piece of a text that is one word. -/
theorem LexesAs.piece {text : String} {l : Lexeme} (h : LexesAs text l) :
    ∃ p ∈ pieces text.toList, p.word? = some l := by
  have words : wordsIn text.toList = [l] := by
    rw [LexesAs, tokenize_words] at h
    have split : wordsIn text.toList ++ [(.endOfInput, "")] = [l] ++ [(.endOfInput, "")] := h
    exact List.append_cancel_right split
  have member : l ∈ wordsIn text.toList := by rw [words]; exact List.mem_cons_self
  exact List.mem_filterMap.mp member

/-- A text whose first piece is all of it is the word of this piece. -/
theorem LexesAs.of_next {text : String} {l : Lexeme} (c : Char) (cs : List Char) {p : Piece}
    (chars : text.toList = c :: cs) (whole : Piece.next c cs = (p, [])) (word : p.word? = some l) :
    LexesAs text l := by
  have cut : pieces text.toList = [p] := by rw [chars, pieces, whole, pieces_nil]
  rw [LexesAs, tokenize_words, wordsIn, cut, List.filterMap_cons_some word]
  rfl

/-! ### Names and numbers -/

theorem isLetter_range {c : Char} (h : Piece.isLetter c) :
    65 ≤ c.toNat ∧ c.toNat ≤ 90 ∨ 97 ≤ c.toNat ∧ c.toNat ≤ 122 ∨ c.toNat = 95 := by
  have cases : ((decide (c.val ≥ 'A'.val ∧ c.val ≤ 'Z'.val) ||
      decide (c.val ≥ 'a'.val) && decide (c.val ≤ 'z'.val)) || decide (c = '_')) = true := h
  simp only [Bool.or_eq_true, Bool.and_eq_true, decide_eq_true_eq, ge_iff_le, UInt32.le_iff_toNat_le] at cases
  rcases cases with (upper | lower) | rfl
  · exact .inl upper
  · exact .inr (.inl lower)
  · exact .inr (.inr rfl)

theorem isDigit_range {c : Char} (h : c.isDigit) : 48 ≤ c.toNat ∧ c.toNat ≤ 57 := by
  simp only [Char.isDigit, Bool.and_eq_true, decide_eq_true_eq, ge_iff_le, UInt32.le_iff_toNat_le] at h
  exact h

theorem not_isBlank {c : Char} (low : 33 ≤ c.toNat) (high : c.toNat ≤ 126) : ¬Text.isBlank c := by
  simp only [Text.isBlank, Bool.or_eq_true, Bool.and_eq_true, decide_eq_true_eq, beq_iff_eq]
  omega

theorem isQuote_iff {c : Char} : Piece.isQuote c ↔ c = '"' ∨ c = '\'' := by
  simp [Piece.isQuote]

/-- No operator or delimiter starts a word or a number. -/
theorem symbol_class {c : Char} (h : c ∈ Piece.operatorChars ++ Piece.delimiterChars) :
    Piece.isLetter c = false ∧ c.isDigit = false := by
  have all : (Piece.operatorChars ++ Piece.delimiterChars).all
      fun c => !Piece.isLetter c && !c.isDigit := by decide
  simpa using List.all_eq_true.mp all c h

/-- A letter or digit starts a word or a number. -/
theorem next_alphanumeric {motive : Piece × List Char → Prop} {c : Char} {cs : List Char}
    (h : Piece.isLetter c ∨ c.isDigit)
    (word : Piece.isLetter c → motive (.word (c :: cs.takeWhile Piece.isWordChar), cs.dropWhile Piece.isWordChar))
    (number : c.isDigit → motive (.number (Piece.numberBody (c :: cs)).1, (Piece.numberBody (c :: cs)).2)) :
    motive (Piece.next c cs) := by
  have range : 48 ≤ c.toNat ∧ c.toNat ≤ 122 := by
    rcases h with letter | digit
    · have := isLetter_range letter
      omega
    · have := isDigit_range digit
      omega
  have noSymbol : ¬c ∈ Piece.operatorChars ++ Piece.delimiterChars := by
    intro symbol
    have none := symbol_class symbol
    rcases h with letter | digit
    · exact Bool.eq_false_iff.mp none.1 letter
    · exact Bool.eq_false_iff.mp none.2 digit
  apply Piece.next_cases
  case word => exact word
  case number => exact number
  case newline => rintro rfl; exact absurd h (by decide)
  case blank => exact fun _ blank => absurd blank (not_isBlank (by omega) (by omega))
  case lineComment => rintro _ rfl; exact absurd h (by decide)
  case blockComment => rintro _ rfl; exact absurd h (by decide)
  case literal =>
    intro quote
    rcases isQuote_iff.mp quote with rfl | rfl <;> exact absurd h (by decide)
  case operator => exact fun symbol => absurd (List.mem_append_left _ (by simpa using symbol)) noSymbol
  case delimiter => exact fun symbol => absurd (List.mem_append_right _ (by simpa using symbol)) noSymbol
  case unknown => exact fun _ _ _ noDigit noLetter => absurd h (not_or.mpr ⟨noLetter, noDigit⟩)

theorem not_isDigit_of_isLetter {c : Char} (letter : Piece.isLetter c) : ¬c.isDigit := by
  intro digit
  have := isLetter_range letter
  have := isDigit_range digit
  omega

theorem next_word {c : Char} (h : Piece.isLetter c) (cs : List Char) :
    Piece.next c cs = (.word (c :: cs.takeWhile Piece.isWordChar), cs.dropWhile Piece.isWordChar) :=
  next_alphanumeric (motive := (· = _)) (.inl h) (fun _ => rfl)
    fun digit => absurd digit (not_isDigit_of_isLetter h)

theorem next_number {c : Char} (h : c.isDigit) (cs : List Char) :
    Piece.next c cs = (.number (Piece.numberBody (c :: cs)).1, (Piece.numberBody (c :: cs)).2) :=
  next_alphanumeric (motive := (· = _)) (.inr h)
    (fun letter => absurd h (not_isDigit_of_isLetter letter)) fun _ => rfl

theorem next_quote {c : Char} (h : Piece.isQuote c) (cs : List Char) :
    Piece.next c cs = (.literal c (Piece.literalBody c cs).1 (Piece.literalBody c cs).2.1,
      (Piece.literalBody c cs).2.2) := by
  rcases isQuote_iff.mp h with rfl | rfl
  · rfl
  · rfl

/-- Only a letter starts a word. -/
theorem isLetter_of_next {c : Char} {cs letters rest : List Char}
    (h : Piece.next c cs = (.word letters, rest)) : Piece.isLetter c := by
  have first : (Piece.next c cs).1 = .word letters := by rw [h]
  revert first
  apply Piece.next_cases (motive := fun r => r.1 = .word letters → Piece.isLetter c)
  case word => exact fun letter _ => letter
  all_goals simp

/-- Only a digit starts a number. -/
theorem isDigit_of_next {c : Char} {cs digits rest : List Char}
    (h : Piece.next c cs = (.number digits, rest)) : c.isDigit := by
  have first : (Piece.next c cs).1 = .number digits := by rw [h]
  revert first
  apply Piece.next_cases (motive := fun r => r.1 = .number digits → c.isDigit)
  case number => exact fun digit _ => digit
  all_goals simp

/-- What may follow a name or number: no character that could be part of either. -/
def Ends (rest : List Char) : Prop :=
  ∀ c ∈ rest.head?, Piece.isWordChar c = false ∧ c ≠ '.'

theorem takeWhile_append_stop {p : Char → Bool} {cs rest : List Char} (all : ∀ c ∈ cs, p c)
    (stop : ∀ c ∈ rest.head?, p c = false) :
    (cs ++ rest).takeWhile p = cs ∧ (cs ++ rest).dropWhile p = rest := by
  have nothing : rest.takeWhile p = [] ∧ rest.dropWhile p = rest := by
    cases rest with
    | nil => exact ⟨rfl, rfl⟩
    | cons c rest =>
      have no := stop c rfl
      exact ⟨by simp [no], by simp [no]⟩
  rw [List.takeWhile_append_of_pos all, List.dropWhile_append_of_pos all, nothing.1, nothing.2,
    List.append_nil]
  exact ⟨rfl, rfl⟩

/-- A piece that is a word of this spelling. -/
theorem piece_of_ident {p : Piece} {x : String} (h : p.word? = some (ident x)) :
    p = .word x.toList := by
  cases p with
  | word letters =>
    simp only [Piece.word?, Piece.lexeme?, Option.map_some, Option.some.injEq] at h
    obtain ⟨-, rfl⟩ := Prod.mk.inj h
    rw [String.toList_ofList]
  | _ => simp [Piece.word?, Piece.lexeme?, ident] at h

theorem piece_of_number {p : Piece} {text : String} (h : p.word? = some (.number, text)) :
    p = .number text.toList := by
  cases p with
  | number digits =>
    obtain rfl : String.ofList digits = text := by simpa [Piece.word?, Piece.lexeme?] using h
    rw [String.toList_ofList]
  | word letters =>
    simp only [Piece.word?, Piece.lexeme?, Option.map_some, Option.some.injEq] at h
    obtain ⟨kind, -⟩ := Prod.mk.inj h
    split at kind <;> simp at kind
  | _ => simp [Piece.word?, Piece.lexeme?] at h

/-- The first character of a text that is one piece, and the piece. -/
theorem next_of_text {text : String} {p : Piece} (h : p ∈ pieces text.toList)
    (covers : p.chars = text.toList) : ∃ c cs, text.toList = c :: cs ∧ Piece.next c cs = (p, []) := by
  cases hx : text.toList with
  | nil =>
    rw [hx, pieces_nil] at h
    simp at h
  | cons c cs =>
    rw [hx] at h covers
    exact ⟨c, cs, rfl, next_of_covers h covers⟩

/-- A name that is one token alone: a letter and characters of words. -/
theorem LexesAs.name_chars {x : String} (h : LexesAs x (ident x)) :
    ∃ c cs, x.toList = c :: cs ∧ Piece.isLetter c ∧ (∀ d ∈ cs, Piece.isWordChar d) ∧
      (Piece.word x.toList).word? = some (ident x) := by
  obtain ⟨p, hp, word⟩ := h.piece
  obtain rfl := piece_of_ident word
  obtain ⟨c, cs, hx, whole⟩ := next_of_text hp rfl
  have letter := isLetter_of_next whole
  rw [next_word letter] at whole
  exact ⟨c, cs, hx, letter, List.dropWhile_eq_nil_iff.mp (Prod.mk.inj whole).2, word⟩

/-- Such a name is read as its token before everything that cannot extend it. -/
theorem LexesAs.scans_name {x : String} {rest : List Char} (h : LexesAs x (ident x)) (ends : Ends rest) :
    Scans (x.toList ++ rest) [ident x] rest := by
  obtain ⟨c, cs, hx, letter, all, word⟩ := h.name_chars
  obtain ⟨taken, left⟩ := takeWhile_append_stop all fun d hd => (ends d hd).1
  have first : Piece.next c (cs ++ rest) = (.word x.toList, rest) := by
    rw [next_word letter, taken, left, hx]
  have scanned := Scans.piece first rfl (by simp)
  rw [word] at scanned
  rw [hx]
  exact scanned

theorem numberBody_append {cs rest : List Char} (h : Piece.numberBody cs = (cs, [])) (ends : Ends rest) :
    Piece.numberBody (cs ++ rest) = (cs, rest) := by
  have stop : ∀ c ∈ rest.head?, c.isDigit = false := fun c hc => by
    have other := (ends c hc).1
    simp only [Piece.isWordChar, Char.isAlphanum, Bool.or_eq_false_iff] at other
    exact other.1.2
  unfold Piece.numberBody at h
  split at h
  · next tail point =>
    obtain ⟨parts, nothing⟩ := Prod.mk.inj h
    have digits : ∀ c ∈ cs.takeWhile Char.isDigit, c.isDigit := fun c => List.mem_takeWhile_imp
    have fraction : ∀ c ∈ tail, c.isDigit := List.dropWhile_eq_nil_iff.mp nothing
    have dot : ∀ c ∈ ('.' :: (tail ++ rest)).head?, c.isDigit = false := by simp
    rw [List.takeWhile_eq_self_iff.mpr fraction] at parts
    obtain ⟨before, behind⟩ := takeWhile_append_stop digits dot
    obtain ⟨tailTaken, tailLeft⟩ := takeWhile_append_stop fraction stop
    have regroup : cs ++ rest = cs.takeWhile Char.isDigit ++ '.' :: (tail ++ rest) :=
      calc cs ++ rest = (cs.takeWhile Char.isDigit ++ '.' :: tail) ++ rest := by rw [parts]
        _ = cs.takeWhile Char.isDigit ++ '.' :: (tail ++ rest) := by rw [List.append_assoc, List.cons_append]
    simp only [Piece.numberBody, regroup, before, behind, tailTaken, tailLeft, parts]
  · obtain ⟨all, nothing⟩ := Prod.mk.inj h
    have digits : ∀ c ∈ cs, c.isDigit := List.takeWhile_eq_self_iff.mp all
    obtain ⟨taken, left⟩ := takeWhile_append_stop digits stop
    simp only [Piece.numberBody, taken, left]
    split
    · exact absurd rfl (ends '.' (by simp)).2
    · rfl

/-- A number that is one token alone starts with a digit. -/
theorem LexesAs.number_chars {text : String} (h : LexesAs text (.number, text)) :
    ∃ c cs, text.toList = c :: cs ∧ c.isDigit ∧ Piece.numberBody (c :: cs) = (c :: cs, []) := by
  obtain ⟨p, hp, word⟩ := h.piece
  obtain rfl := piece_of_number word
  obtain ⟨c, cs, hx, whole⟩ := next_of_text hp rfl
  have digit := isDigit_of_next whole
  rw [next_number digit, hx] at whole
  obtain ⟨digits, nothing⟩ := Prod.mk.inj whole
  exact ⟨c, cs, hx, digit, Prod.ext (Piece.number.inj digits) nothing⟩

/-- Such a number is read as its token before everything that cannot extend it. -/
theorem LexesAs.scans_number {text : String} {rest : List Char} (h : LexesAs text (.number, text))
    (ends : Ends rest) : Scans (text.toList ++ rest) [(.number, text)] rest := by
  obtain ⟨c, cs, hx, digit, body⟩ := h.number_chars
  have first : Piece.next c (cs ++ rest) = (.number text.toList, rest) := by
    rw [next_number digit, ← List.cons_append, numberBody_append body ends, hx]
  have scanned := Scans.piece first rfl (by simp)
  rw [hx]
  simpa [Piece.word?, Piece.lexeme?, String.ofList_toList] using scanned

/-! ### Strings -/

/-- Every backslash of the raw text has a character behind it. -/
def Text.paired : List Char → Bool
  | [] => true
  | c :: cs =>
    if c = '\\' then
      match cs with
      | [] => false
      | _ :: cs => paired cs
    else paired cs

namespace Text

variable {quote c : Char} (cs : List Char)

theorem escape_pair : escape quote ('\\' :: c :: cs) = '\\' :: c :: escape quote cs := by
  rw [escape.eq_def]
  simp

theorem escape_quote (ne : quote ≠ '\\') : escape quote (quote :: cs) = '\\' :: quote :: escape quote cs := by
  rw [escape.eq_def]
  simp [ne]

theorem escape_other (plain : c ≠ '\\') (ne : c ≠ quote) : escape quote (c :: cs) = c :: escape quote cs := by
  rw [escape.eq_def]
  simp [plain, ne]

end Text

namespace Piece

variable {quote c : Char} (cs : List Char)

theorem literalBody_quote : literalBody quote (quote :: cs) = ([], true, cs) := by
  rw [literalBody.eq_def]
  simp

theorem literalBody_pair (ne : quote ≠ '\\') : literalBody quote ('\\' :: c :: cs) =
    ('\\' :: c :: (literalBody quote cs).1, (literalBody quote cs).2) := by
  rw [literalBody.eq_def]
  simp [ne.symm]

theorem literalBody_other (plain : c ≠ '\\') (ne : c ≠ quote) : literalBody quote (c :: cs) =
    (c :: (literalBody quote cs).1, (literalBody quote cs).2) := by
  rw [literalBody.eq_def]
  simp [plain, ne]

end Piece

/-- An escaped text ends at the quote behind it. -/
theorem literalBody_escape {quote : Char} (ne : quote ≠ '\\') (raw rest : List Char)
    (h : Text.paired raw) :
    Piece.literalBody quote (Text.escape quote raw ++ quote :: rest) =
      (Text.escape quote raw, true, rest) := by
  fun_induction Text.paired raw with
  | case1 => exact Piece.literalBody_quote rest
  | case2 => simp at h
  | case3 escaped cs ih =>
    rw [Text.escape_pair, List.cons_append, List.cons_append, Piece.literalBody_pair _ ne, ih h]
  | case4 c cs plain ih =>
    by_cases isQuote : c = quote
    · subst isQuote
      rw [Text.escape_quote _ ne, List.cons_append, List.cons_append, Piece.literalBody_pair _ ne, ih h]
    · rw [Text.escape_other _ plain isQuote, List.cons_append, Piece.literalBody_other _ plain isQuote, ih h]

/-- A quoted text is one string. -/
theorem scans_literal {quote : Char} (isQuote : Piece.isQuote quote) {raw : List Char}
    (h : Text.paired raw) (rest : List Char) :
    Scans (quote :: Text.escape quote raw ++ quote :: rest)
      [(.string, String.ofList (Text.escape quote raw))] rest := by
  have ne : quote ≠ '\\' := by
    rintro rfl
    exact absurd isQuote (by decide)
  have body := literalBody_escape ne raw rest h
  have first : Piece.next quote (Text.escape quote raw ++ quote :: rest) =
      (.literal quote (Text.escape quote raw) true, rest) := by
    rw [next_quote isQuote, body]
  exact Scans.piece first rfl (by simp)

end MiniC
