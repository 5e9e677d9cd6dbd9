/-
# What a literal denotes

Raw text holds escape sequences as they were written. How many characters a sequence
takes and what it stands for differs from language to language, and the tables are
long; here they are a parameter (`Escapes`). Of it only this is used: a sequence goes
on over letters and digits alone, and the sequences of the newline and of the double
quote are what they are everywhere.

Then a bare quote may get its backslash without a change of what is denoted
(`decode_escape`), and text is read apart where its backslashes have their partners and
no letter or digit follows (`decode_append`).

Key definitions: `Escapes`, `Escapes.standard`, `decode`, `Denotes`.
Key theorems: `decode_escape`, `decode_append`, `denotes_quote`, `not_denotes_of_dangling`.
-/
import MiniC.Proofs.Format.Segmentation
import MiniC.Proofs.Provenance

namespace MiniC
namespace Text

/-- The escape sequences of a language: a backslash, a character, and some of the letters
and digits that follow it. -/
structure Escapes where
  /-- How many characters of a run of letters and digits belong to the sequence before it. -/
  extent : Char → List Char → Nat
  /-- What the character behind the backslash and those further ones stand for. -/
  meaning : Char → List Char → List Char
  newline : (∀ run, extent 'n' run = 0) ∧ meaning 'n' [] = ['\n']
  quote : (∀ run, extent '"' run = 0) ∧ meaning '"' [] = ['"']

namespace Escapes

variable (e : Escapes) (c : Char) (cs : List Char)

/-- How many characters of `cs` belong to the sequence that `c` starts. -/
def size : Nat := min (e.extent c (cs.takeWhile Char.isAlphanum)) (cs.takeWhile Char.isAlphanum).length

def isOctal (c : Char) : Bool := '0' ≤ c && c ≤ '7'

/-- Letters for control characters and numbers of up to three octal digits; every other
character stands for itself. -/
def standard : Escapes where
  extent c run := if isOctal c then min 2 (run.takeWhile isOctal).length else 0
  meaning c more :=
    if isOctal c then [Char.ofNat (Nat.ofDigitChars 8 (c :: more) 0)]
    else if c = 'n' then ['\n']
    else if c = 't' then ['\t']
    else if c = 'r' then ['\r']
    else [c]
  newline := ⟨fun _ => rfl, rfl⟩
  quote := ⟨fun _ => rfl, rfl⟩

end Escapes

/-- The characters that raw text denotes. -/
def decode (e : Escapes) : List Char → List Char
  | [] => []
  | c :: cs =>
    if c = '\\' then
      match cs with
      | [] => [c]
      | letter :: cs =>
        e.meaning letter (cs.take (e.size letter cs)) ++ decode e (cs.drop (e.size letter cs))
    else c :: decode e cs
termination_by cs => cs.length
decreasing_by
  · simp only [List.length_cons, List.length_drop]
    omega
  · simp

section

variable {e : Escapes} {c : Char} (cs : List Char)

theorem decode_pair : decode e ('\\' :: c :: cs) =
    e.meaning c (cs.take (e.size c cs)) ++ decode e (cs.drop (e.size c cs)) := by
  rw [decode, if_pos rfl]

theorem decode_plain (plain : c ≠ '\\') : decode e (c :: cs) = c :: decode e cs := by
  rw [decode.eq_def]
  dsimp only
  rw [if_neg plain]

theorem decode_newline : decode e ('\\' :: 'n' :: cs) = '\n' :: decode e cs := by
  rw [decode_pair, Escapes.size, e.newline.1, Nat.zero_min, List.take_zero, List.drop_zero, e.newline.2,
    List.singleton_append]

theorem decode_quote : decode e ('\\' :: '"' :: cs) = '"' :: decode e cs := by
  rw [decode_pair, Escapes.size, e.quote.1, Nat.zero_min, List.take_zero, List.drop_zero, e.quote.2,
    List.singleton_append]

end

/-! ### A sequence and what stands behind it -/

theorem alphanum_plain {c : Char} (h : c.isAlphanum) : c ≠ '\\' ∧ c ≠ '"' := by
  constructor <;> (rintro rfl; exact absurd h (by decide))

/-- Text is a run of letters and digits and something else. -/
theorem run_split (cs : List Char) : ∃ run rest, cs = run ++ rest ∧ (∀ c ∈ run, c.isAlphanum) ∧
    ∀ c ∈ rest.head?, c.isAlphanum = false := by
  refine ⟨cs.takeWhile Char.isAlphanum, cs.dropWhile Char.isAlphanum, List.takeWhile_append_dropWhile.symm,
    fun c hc => List.mem_takeWhile_imp hc, fun c hc => ?_⟩
  have stopped := List.head?_dropWhile_not Char.isAlphanum cs
  rw [Option.mem_def.mp hc] at stopped
  exact Bool.eq_false_iff.mpr (by simpa using stopped)

/-- The size of a sequence is found in the run alone. -/
theorem size_run (e : Escapes) (c : Char) {run rest : List Char} (isRun : ∀ c ∈ run, c.isAlphanum)
    (stop : ∀ c ∈ rest.head?, c.isAlphanum = false) :
    e.size c (run ++ rest) = min (e.extent c run) run.length := by
  rw [Escapes.size, (takeWhile_append_stop isRun stop).1]

theorem size_le (e : Escapes) (c : Char) (cs : List Char) : e.size c cs ≤ cs.length := by
  have run := (List.takeWhile_sublist Char.isAlphanum (l := cs)).length_le
  rw [Escapes.size]
  omega

theorem escape_run {run : List Char} (isRun : ∀ c ∈ run, c.isAlphanum) (rest : List Char) :
    escape '"' (run ++ rest) = run ++ escape '"' rest := by
  induction run with
  | nil => rfl
  | cons c run ih =>
    obtain ⟨first, more⟩ := List.forall_mem_cons.mp isRun
    obtain ⟨plain, ne⟩ := alphanum_plain first
    rw [List.cons_append, escape_other _ plain ne, ih more, List.cons_append]

theorem backslash_stop (cs : List Char) : ∀ c ∈ ('\\' :: cs).head?, c.isAlphanum = false := by
  rintro c ⟨⟩
  rfl

/-- Escaping puts no letter and no digit in front. -/
theorem escape_stop {rest : List Char} (stop : ∀ c ∈ rest.head?, c.isAlphanum = false) :
    ∀ c ∈ (escape '"' rest).head?, c.isAlphanum = false := by
  cases rest with
  | nil => exact stop
  | cons d ds =>
    by_cases isBackslash : d = '\\'
    · subst isBackslash
      cases ds with
      | nil =>
        rw [escape, if_pos rfl]
        exact backslash_stop _
      | cons escaped ds =>
        rw [escape_pair]
        exact backslash_stop _
    by_cases isQuote : d = '"'
    · rw [isQuote, escape_quote _ (by decide)]
      exact backslash_stop _
    · rw [escape_other _ isBackslash isQuote]
      exact stop

/-- **A bare quote may be escaped.** The sequences stay, and none of them loses or gains
a character. -/
theorem decode_escape (e : Escapes) (cs : List Char) : decode e (escape '"' cs) = decode e cs := by
  fun_induction decode e cs with
  | case1 => rw [escape, decode]
  | case2 => rw [escape, if_pos rfl, decode, if_pos rfl]
  | case3 letter cs ih =>
    obtain ⟨run, rest, rfl, isRun, stop⟩ := run_split cs
    have size := size_run e letter isRun stop
    have size' := size_run e letter isRun (escape_stop stop)
    have short : min (e.extent letter run) run.length ≤ run.length := Nat.min_le_right _ _
    have kept : ∀ c ∈ run.drop (min (e.extent letter run) run.length), c.isAlphanum :=
      fun c hc => isRun c (List.mem_of_mem_drop hc)
    rw [size, List.drop_append_of_le_length short, escape_run kept] at ih
    rw [escape_pair, escape_run isRun, decode_pair, size', size, List.take_append_of_le_length short,
      List.take_append_of_le_length short, List.drop_append_of_le_length short,
      List.drop_append_of_le_length short, ih]
  | case4 c cs plain ih =>
    by_cases isQuote : c = '"'
    · rw [isQuote, escape_quote _ (by decide), decode_quote, ih]
    · rw [escape_other _ plain isQuote, decode_plain _ plain, ih]

/-- Dropping a part of a run leaves the partners together. -/
theorem paired_drop (e : Escapes) (c : Char) {cs : List Char} (h : paired cs) :
    paired (cs.drop (e.size c cs)) := by
  obtain ⟨run, rest, rfl, isRun, stop⟩ := run_split cs
  have free {l : List Char} (sub : l ⊆ run) : paired l :=
    paired_of_free fun c hc => (alphanum_plain (isRun c (sub hc))).1
  rw [size_run e c isRun stop, List.drop_append_of_le_length (Nat.min_le_right _ _),
    paired_append (free (List.drop_subset _ _))]
  rwa [paired_append (free (List.Subset.refl run))] at h

/-- **Text is read apart** where the first part has its partners and what follows cannot
go on a sequence. -/
theorem decode_append (e : Escapes) {cs ds : List Char} (h : paired cs)
    (stop : ∀ c ∈ ds.head?, c.isAlphanum = false) : decode e (cs ++ ds) = decode e cs ++ decode e ds := by
  fun_induction decode e cs with
  | case1 => rfl
  | case2 => cases h
  | case3 letter cs ih =>
    have closed : paired cs := by simpa [paired] using h
    have size : e.size letter (cs ++ ds) = e.size letter cs := by
      rw [Escapes.size, Escapes.size, (Marker.dropWhile_append_stop stop cs).1]
    have short := size_le e letter cs
    rw [List.cons_append, List.cons_append, decode_pair, size, List.take_append_of_le_length short,
      List.drop_append_of_le_length short, ih (paired_drop e letter closed), List.append_assoc]
  | case4 c cs plain ih =>
    rw [paired_plain plain] at h
    rw [List.cons_append, decode_plain _ plain, ih h, List.cons_append]

/-! ### Literals -/

/-- The text is one closed literal in double quotes, and it denotes the characters. -/
def Denotes (e : Escapes) (literal : String) (chars : List Char) : Prop :=
  ∃ raw : String, literal = "\"" ++ raw ++ "\"" ∧
    (tokenize literal).tokens.map Token.lexeme = [(.string, raw), (.endOfInput, "")] ∧
    (tokenize literal).diagnostics = [] ∧ decode e raw.toList = chars

theorem toList_quote (raw : String) : (quote raw).toList = '"' :: (escape '"' raw.toList ++ ['"']) := by
  simp [quote, escapeQuotes]

/-- Quoted raw text denotes what it denoted. -/
theorem denotes_quote (e : Escapes) {raw : String} (h : paired raw.toList) :
    Denotes e (quote raw) (decode e raw.toList) := by
  have scanned : Scans (quote raw).toList [(.string, escapeQuotes raw)] [] := by
    rw [toList_quote]
    exact scans_literal (by decide) h []
  obtain ⟨words, clean⟩ := scanned.tokens
  exact ⟨escapeQuotes raw, rfl, words, clean, by rw [escapeQuotes, String.toList_ofList, decode_escape]⟩

/-- Without its partner, the last backslash stays the last character. -/
theorem escape_dangling {cs : List Char} (h : paired cs = false) :
    ∃ front, Piece.Raw '"' front ∧ escape '"' cs = front ++ ['\\'] := by
  fun_induction paired cs with
  | case1 => cases h
  | case2 => exact ⟨[], .nil, by simp [escape]⟩
  | case3 escaped cs ih =>
    obtain ⟨front, raw, same⟩ := ih h
    exact ⟨'\\' :: escaped :: front, .escaped raw, by rw [escape_pair, same]; rfl⟩
  | case4 c cs plain ih =>
    obtain ⟨front, raw, same⟩ := ih h
    by_cases isQuote : c = '"'
    · exact ⟨'\\' :: '"' :: front, .escaped raw, by rw [isQuote, escape_quote _ (by decide), same]; rfl⟩
    · exact ⟨c :: front, .plain isQuote plain raw, by rw [escape_other _ plain isQuote, same]; rfl⟩

/-- A backslash without a partner takes the closing quote, and the literal has none. -/
theorem not_denotes_of_dangling (e : Escapes) {raw : String} (h : paired raw.toList = false)
    (chars : List Char) : ¬Denotes e (quote raw) chars := by
  rintro ⟨_, -, -, clean, -⟩
  obtain ⟨front, isRaw, same⟩ := escape_dangling h
  have body : Piece.next '"' (escape '"' raw.toList ++ ['"']) =
      (.literal '"' (front ++ ['\\', '"']) false, []) := by
    have rest : Piece.literalBody '"' ['\\', '"'] = (['\\', '"'], false, []) := by
      rw [Piece.literalBody_pair _ (by decide), Piece.literalBody]
    have text : escape '"' raw.toList ++ ['"'] = front ++ ['\\', '"'] := by simp [same]
    rw [next_quote (by decide), text, isRaw.literalBody_append (by decide), rest]
  have unclosed : Piece.literal '"' (front ++ ['\\', '"']) false ∈ pieces (quote raw).toList := by
    rw [toList_quote, pieces, body]
    exact List.mem_cons_self
  exact absurd (@closed_of_reports (quote raw) (by simp [clean]) _ unclosed) (by simp [Piece.isClosed])

theorem piece_of_string {p : Piece} {text : String} (h : p.word? = some (.string, text)) :
    ∃ delimiter closed, p = .literal delimiter text.toList closed := by
  cases p with
  | literal delimiter raw closed =>
    obtain rfl : String.ofList raw = text := by simpa [Piece.word?, Piece.lexeme?] using h
    exact ⟨delimiter, closed, by rw [String.toList_ofList]⟩
  | word letters =>
    simp only [Piece.word?, Piece.lexeme?, Option.map_some, Option.some.injEq] at h
    obtain ⟨kind, -⟩ := Prod.mk.inj h
    split at kind <;> cases kind
  | _ => simp [Piece.word?, Piece.lexeme?] at h

theorem paired_of_raw {delimiter : Char} {raw : List Char} (h : Piece.Raw delimiter raw) : paired raw := by
  induction h with
  | nil => rfl
  | plain _ plain _ ih => rwa [paired_plain plain]
  | escaped _ ih => simpa [paired] using ih

/-- Without a report, each backslash in a string has its partner. -/
theorem paired_of_token {source : String} (clean : (tokenize source).diagnostics = []) {t : Token}
    (h : t ∈ (tokenize source).tokens) (string : t.kind = .string) : paired t.spelling.toList := by
  obtain ⟨p, hp, word⟩ := piece_of_token h (by rw [string]; decide)
  have closed := @closed_of_reports source (by simp [clean]) p hp
  rw [Token.lexeme, string] at word
  obtain ⟨delimiter, ended, rfl⟩ := piece_of_string word
  obtain rfl : ended = true := closed
  obtain ⟨rest, formed⟩ := pieces_formed hp
  generalize t.spelling.toList = text at formed ⊢
  cases formed with
  | literal _ raw => exact paired_of_raw raw

end Text
end MiniC
