/-
# Quoting raw text again

The raw text of a string token is written between double quotes again. A literal in
single quotes may hold bare double quotes, and these get a backslash; what was escaped
stays. Whether a character is escaped is told by the backslashes right before it: it is
the second of a pair if their number is odd (`IsSecond`), for the first of them starts a
pair whatever stands before it.

Escaping is the insertion of a backslash before each delimiter that is not the second of
a pair (`escape_eq_inserted`), unless the delimiter is the backslash itself, for which nothing
is inserted (`escape_backslash`). A second pass finds nothing to do (`escape_escape`), and the
reader of literals gives the escaped text back (`pieces_quote`).

Key definitions: `Text.IsSecond`, `Text.inserted`.
Key theorems: `Text.paired_iff`, `Text.escape_eq_inserted`, `Text.escape_escape`, `Text.pieces_quote`,
`Text.requoted_tokens`.
-/
import MiniC.Proofs.Literal

namespace MiniC
namespace Text

/-! ### Pairs -/

/-- Behind this text stands the second character of a pair: the number of backslashes at
its end is odd. -/
def IsSecond (before : List Char) : Prop := (before.reverse.takeWhile (· = '\\')).length % 2 = 1

instance (before : List Char) : Decidable (IsSecond before) := inferInstanceAs (Decidable (_ = _))

theorem isSecond_concat (before : List Char) (c : Char) :
    IsSecond (before ++ [c]) ↔ c = '\\' ∧ ¬IsSecond before := by
  unfold IsSecond
  rw [List.reverse_concat]
  by_cases isBackslash : c = '\\'
  · rw [List.takeWhile_cons_of_pos (by simpa using isBackslash), List.length_cons]
    simp only [isBackslash, true_and]
    omega
  · rw [List.takeWhile_cons_of_neg (by simpa using isBackslash)]
    simp [isBackslash]

/-- A backslash without a partner takes the character that comes next. -/
theorem paired_concat (before : List Char) (c : Char) :
    paired (before ++ [c]) ↔ ¬(c = '\\' ∧ paired before) := by
  fun_induction paired before with
  | case1 => by_cases h : c = '\\' <;> simp [paired, h]
  | case2 => simp [paired]
  | case3 escaped cs ih => simpa [paired] using ih
  | case4 d cs plain ih => rwa [List.cons_append, paired_plain plain]

/-- The backslashes have their partners if the number of them at the end is even. -/
theorem paired_iff (cs : List Char) : paired cs ↔ ¬IsSecond cs := by
  induction cs using List.reverseRecOn with
  | nil => simp [paired, IsSecond]
  | append_singleton before c ih => rw [paired_concat, isSecond_concat, ih]

/-! ### Escaping as insertion -/

/-- The text with a backslash before each `delimiter` that is not the second of a pair.
Each character is looked at together with the text before it. -/
def inserted (delimiter : Char) (cs : List Char) : List Char :=
  (cs.inits.zip cs).flatMap fun p => if p.2 = delimiter ∧ ¬IsSecond p.1 then ['\\', p.2] else [p.2]

/-- The characters behind `before`, each with all that stands in front of it. -/
theorem inits_cons_append (before : List Char) (c : Char) (cs : List Char) :
    ((c :: cs).inits.map (before ++ ·)).zip (c :: cs) =
      (before, c) :: (cs.inits.map ((before ++ [c]) ++ ·)).zip cs := by
  simp [Function.comp_def]

theorem escape_eq_inserted_behind {delimiter : Char} (ne : delimiter ≠ '\\') {before : List Char}
    (closed : ¬IsSecond before) (cs : List Char) :
    escape delimiter cs = ((cs.inits.map (before ++ ·)).zip cs).flatMap fun p =>
      if p.2 = delimiter ∧ ¬IsSecond p.1 then ['\\', p.2] else [p.2] := by
  fun_induction escape delimiter cs generalizing before with
  | case1 => simp
  | case2 => simp [ne.symm]
  | case3 escaped cs ih =>
    have opened : IsSecond (before ++ ['\\']) := (isSecond_concat before '\\').mpr ⟨rfl, closed⟩
    have behind : ¬IsSecond (before ++ ['\\'] ++ [escaped]) := by
      rw [isSecond_concat]
      exact fun second => second.2 opened
    rw [inits_cons_append, inits_cons_append, List.flatMap_cons, List.flatMap_cons, ← ih behind]
    simp [ne.symm, opened]
  | case4 cs _ ih =>
    have behind : ¬IsSecond (before ++ [delimiter]) := by simp [isSecond_concat, ne]
    rw [inits_cons_append, List.flatMap_cons, ← ih behind]
    simp [closed]
  | case5 c cs plain other ih =>
    have behind : ¬IsSecond (before ++ [c]) := by simp [isSecond_concat, plain]
    rw [inits_cons_append, List.flatMap_cons, ← ih behind]
    simp [other]

theorem escape_eq_inserted {delimiter : Char} (ne : delimiter ≠ '\\') (cs : List Char) :
    escape delimiter cs = inserted delimiter cs := by
  have start : ¬IsSecond [] := by decide
  simpa [inserted] using escape_eq_inserted_behind ne start cs

/-- A backslash delimits nothing: it is always part of a pair, or the last character. -/
theorem escape_backslash (cs : List Char) : escape '\\' cs = cs := by
  fun_induction escape '\\' cs with
  | case1 => rfl
  | case2 => rfl
  | case3 escaped cs ih => rw [ih]
  | case4 cs plain => exact absurd rfl plain
  | case5 c cs _ _ ih => rw [ih]

/-- **Escaping is done once.** -/
theorem escape_escape (delimiter : Char) (cs : List Char) :
    escape delimiter (escape delimiter cs) = escape delimiter cs := by
  fun_induction escape delimiter cs with
  | case1 => rw [escape]
  | case2 => rw [escape, if_pos rfl]
  | case3 escaped cs ih => rw [escape_pair, ih]
  | case4 cs _ ih => rw [escape_pair, ih]
  | case5 c cs plain other ih => rw [escape_other _ plain other, ih]

/-! ### Reading a quoted text -/

/-- A quoted text is one closed literal. -/
theorem pieces_quote {raw : String} (h : paired raw.toList) :
    pieces (quote raw).toList = [.literal '"' (escape '"' raw.toList) true] := by
  have body := literalBody_escape (by decide : '"' ≠ '\\') raw.toList [] h
  rw [toList_quote, pieces, next_quote (by decide), body, pieces]

theorem tokenize_quote {raw : String} (h : paired raw.toList) :
    (tokenize (quote raw)).tokens =
        [⟨.string, some (escapeQuotes raw), .start⟩, .endAt (Location.start.after (quote raw).toList)] ∧
      (tokenize (quote raw)).diagnostics = [] := by
  unfold tokenize
  rw [pieces_quote h]
  exact ⟨rfl, rfl⟩

/-- The end of a literal is missing only where a report says so. -/
theorem paired_of_ended {source : String}
    (ended : ∀ d ∈ (tokenize source).diagnostics, d.message ≠ LexicalProblem.unterminatedLiteral.message)
    {t : Token} (h : t ∈ (tokenize source).tokens) (string : t.kind = .string) : paired t.spelling.toList := by
  obtain ⟨p, hp, word⟩ := piece_of_token h (by rw [string]; decide)
  rw [Token.lexeme, string] at word
  obtain ⟨delimiter, closed, rfl⟩ := piece_of_string word
  cases closed with
  | true =>
    obtain ⟨rest, formed⟩ := pieces_formed hp
    generalize t.spelling.toList = text at formed ⊢
    cases formed with
    | literal _ raw => exact paired_of_raw raw
  | false =>
    rw [← place_pieces .start (pieces source.toList)] at hp
    obtain ⟨⟨q, l⟩, placed, rfl⟩ := List.mem_map.mp hp
    have reported : (⟨.lexer, LexicalProblem.unterminatedLiteral.message, l⟩ : Diagnostic) ∈
        (tokenize source).diagnostics := List.mem_filterMap.mpr ⟨_, placed, rfl⟩
    exact absurd rfl (ended _ reported)

/-- **Text that is quoted again is one literal.** If no literal of the source text lacks its
end, each string token, from whichever quotes, has raw text at whose end no backslash is left
without a partner, and quoted again it is read as one string token with the escaped text,
then the end of the input, and nothing is reported. For every text and every delimiter but
the backslash, escaping inserts a backslash before each delimiter that is not the second of a
pair and changes nothing else. A backslash starts a pair itself, so nothing is inserted for
it. To escape again changes nothing, whatever the delimiter. -/
theorem requoted_tokens (source : String)
    (ended : ∀ d ∈ (tokenize source).diagnostics, d.message ≠ LexicalProblem.unterminatedLiteral.message) :
    (∀ t ∈ (tokenize source).tokens, t.kind = .string → ¬IsSecond t.spelling.toList ∧
      (tokenize (quote t.spelling)).tokens = [⟨.string, some (escapeQuotes t.spelling), .start⟩,
        .endAt (Location.start.after (quote t.spelling).toList)] ∧
      (tokenize (quote t.spelling)).diagnostics = []) ∧
    ∀ (delimiter : Char) (raw : List Char),
      escape delimiter (escape delimiter raw) = escape delimiter raw ∧
      escape delimiter raw = if delimiter = '\\' then raw else inserted delimiter raw := by
  refine ⟨fun t member string => ?_, fun delimiter raw => ⟨escape_escape delimiter raw, ?_⟩⟩
  · have closed := paired_of_ended ended member string
    exact ⟨(paired_iff _).mp closed, tokenize_quote closed⟩
  · by_cases isBackslash : delimiter = '\\'
    · rw [if_pos isBackslash, isBackslash, escape_backslash]
    · rw [if_neg isBackslash, escape_eq_inserted isBackslash]

/-- A backslash that starts a pair is not the second of one, and yet none is inserted
before it. -/
theorem escape_ne_inserted :
    ¬IsSecond [] ∧ escape '\\' ['\\', 'x'] = ['\\', 'x'] ∧ inserted '\\' ['\\', 'x'] = ['\\', '\\', 'x'] := by
  decide

/-- The text of a literal in single quotes: a bare double quote, an escaped one, and a
backslash with its partner at the end. -/
def mixedQuotes : String := "a\"b\\\"\\\\"

theorem requoted_tokens_mixed :
    (∀ d ∈ (tokenize ("'" ++ mixedQuotes ++ "' /*")).diagnostics,
        d.message ≠ LexicalProblem.unterminatedLiteral.message) ∧
      (⟨.string, some mixedQuotes, .start⟩ : Token) ∈ (tokenize ("'" ++ mixedQuotes ++ "' /*")).tokens ∧
      (tokenize (quote mixedQuotes)).tokens = [⟨.string, some "a\\\"b\\\"\\\\", .start⟩, .endAt ⟨1, 11⟩] := by
  have ended : ∀ d ∈ (tokenize ("'" ++ mixedQuotes ++ "' /*")).diagnostics,
      d.message ≠ LexicalProblem.unterminatedLiteral.message := by decide +kernel
  have member : (⟨.string, some mixedQuotes, .start⟩ : Token) ∈
      (tokenize ("'" ++ mixedQuotes ++ "' /*")).tokens := by decide +kernel
  have escaped : escapeQuotes mixedQuotes = "a\\\"b\\\"\\\\" := by decide +kernel
  have finish : Location.start.after (quote mixedQuotes).toList = ⟨1, 11⟩ := by decide +kernel
  have quoted := ((requoted_tokens _ ended).1 _ member rfl).2.1
  rw [Token.spelling, Option.getD_some, escaped, finish] at quoted
  exact ⟨ended, member, quoted⟩

end Text
end MiniC
