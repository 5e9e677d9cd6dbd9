/-
# Colouring loses no character

The parts of a line were defined by what is left of it. Here a walk by position finds
them: it keeps the index of the next character and the word it is in, takes texts by
byte offsets, and jumps over an escaped character even if there is none. Every look-up
and every cut of the walk can fail, and so can the count of its turns. None of them
does, and what comes out are the parts (`scan_eq`). Put together again the parts are
the line.

Key definitions: `cut`, `turn`, `scan`, `Walk.Leads`.
Key theorems: `turn_leads`, `walk_leads`, `scan_eq`, `spans_text`, `line_lossless`.
-/
import MiniC.View.Source

namespace MiniC
namespace Highlight

/-! ### Parts of a line by byte offsets -/

/-- The part of the line between two byte offsets; there is none if one of them is behind the
end or inside a character, or if they are in the wrong order. -/
def cut (line : String) (start stop : Nat) : Option String :=
  if valid : (String.Pos.Raw.mk start).IsValid line ∧ (String.Pos.Raw.mk stop).IsValid line ∧ start ≤ stop then
    some (String.extract (line.pos ⟨start⟩ valid.1) (line.pos ⟨stop⟩ valid.2.1))
  else none

theorem cut_append {line : String} (before text after : String) (split : line = before ++ text ++ after) :
    cut line before.utf8ByteSize (before ++ text).utf8ByteSize = some text := by
  have start : (String.Pos.Raw.mk before.utf8ByteSize).IsValid line :=
    String.Pos.Raw.isValid_iff_exists_append.mpr ⟨before, text ++ after, by rw [split, String.append_assoc], rfl⟩
  have stop : (String.Pos.Raw.mk (before ++ text).utf8ByteSize).IsValid line :=
    String.Pos.Raw.isValid_iff_exists_append.mpr ⟨before ++ text, after, split, rfl⟩
  have order : before.utf8ByteSize ≤ (before ++ text).utf8ByteSize := by
    rw [String.utf8ByteSize_append]
    exact Nat.le_add_right _ _
  have bytes : line.toByteArray = before.toByteArray ++ (text.toByteArray ++ after.toByteArray) := by
    rw [split, String.toByteArray_append, String.toByteArray_append, ByteArray.append_assoc]
  rw [cut, dif_pos ⟨start, stop, order⟩, Option.some.injEq, ← String.toByteArray_inj, String.toByteArray_extract,
    String.offset_pos, String.offset_pos, bytes, String.utf8ByteSize_append]
  calc (before.toByteArray ++ (text.toByteArray ++ after.toByteArray)).extract before.utf8ByteSize
        (before.utf8ByteSize + text.utf8ByteSize)
      = (before.toByteArray ++ (text.toByteArray ++ after.toByteArray)).extract (before.toByteArray.size + 0)
          (before.toByteArray.size + text.toByteArray.size) := by
        rw [String.size_toByteArray, String.size_toByteArray, Nat.add_zero]
    _ = (text.toByteArray ++ after.toByteArray).extract 0 text.toByteArray.size := ByteArray.extract_append_size_add
    _ = text.toByteArray := ByteArray.extract_append_eq_left rfl

/-- Characters with their byte offsets, counted from `start`. -/
def offsets (start : Nat) : List Char → List (Nat × Char)
  | [] => []
  | c :: cs => (start, c) :: offsets (start + c.utf8Size) cs

theorem length_offsets (start : Nat) (cs : List Char) : (offsets start cs).length = cs.length := by
  induction cs generalizing start with
  | nil => rfl
  | cons c cs ih => rw [offsets, List.length_cons, ih, List.length_cons]

/-- Behind `before` stands the next character, at as many bytes as `before` has. -/
theorem offsets_append (start : Nat) (before cs : List Char) :
    (offsets start (before ++ cs))[before.length]? =
      cs.head?.map fun c => (start + (String.ofList before).utf8ByteSize, c) := by
  induction before generalizing start with
  | nil => cases cs <;> simp [offsets]
  | cons b before ih =>
    rw [List.cons_append, offsets, List.length_cons, List.getElem?_cons_succ, ih]
    simp [String.ofList_cons, Nat.add_assoc]

/-! ### A walk by position -/

/-- How far a walk has come: the position of the next character, the word that was begun, and
the parts before it. -/
structure Walk where
  position : Nat
  word : String
  spans : List Span

namespace Walk

/-- The walk with the word ended, if one was begun. -/
def flush (w : Walk) (style : Style) : Walk :=
  if w.word = "" then w else { w with word := "", spans := w.spans ++ [⟨w.word, style⟩] }

/-- The walk behind one more part. -/
def past (w : Walk) (position : Nat) (text : String) (style : Style) : Walk :=
  { w with position, spans := w.spans ++ [⟨text, style⟩] }

end Walk

section

variable (line : String) (chars : List (Nat × Char))

/-- Where a literal's end is looked for, from `k` on: at its quote, or behind the line. A backslash
takes the next character with it, be there one or not. -/
def literalEnd (quote : Char) (k : Nat) : Option Nat :=
  if k < chars.length then
    chars[k]?.bind fun found =>
      if found.2 = quote then some k
      else if found.2 = '\\' then literalEnd quote (k + 2)
      else literalEnd quote (k + 1)
  else some k
termination_by chars.length - k

/-- The character at this offset starts a directive. -/
def startsDirective (offset : Nat) (c : Char) : Option Bool :=
  if c = '#' then (cut line 0 offset).map fun before => before.toList.all Text.isBlank else some false

/-- The walk behind the character `c` at `offset`, or behind the comment or the literal that starts there. -/
def pass (w : Walk) (offset : Nat) (c : Char) (comment : Bool) : Option Walk :=
  if comment then
    (cut line offset line.utf8ByteSize).map fun text => (w.flush .plain).past chars.length text (.ink Theme.muted)
  else if Piece.isQuote c then
    (literalEnd chars c (w.position + 1)).bind fun k =>
      let stop := min (k + 1) chars.length
      (cut line offset ((chars[stop]?.map Prod.fst).getD line.utf8ByteSize)).map fun text =>
        (w.flush .plain).past stop text (.ink Theme.stringLiteral)
  else if isWordChar c then some { w with position := w.position + 1, word := w.word.push c }
  else some ((w.flush (wordStyle w.word (c = '('))).past (w.position + 1) (String.ofList [c]) (symbolStyle c))

/-- One turn of the walk, at the character `c` at `offset`. -/
def turn (w : Walk) (offset : Nat) (c : Char) : Option Walk :=
  (startsDirective line offset c).bind fun directive =>
    pass line chars w offset c (startsComment c (chars[w.position + 1]?.map Prod.snd).toList || directive)

/-- The walk to the end of the line, in at most so many turns. -/
def walk : Nat → Walk → Option Walk
  | 0, w => if w.position < chars.length then none else some w
  | turns + 1, w =>
    if w.position < chars.length then
      chars[w.position]?.bind fun found => (turn line chars w found.1 found.2).bind (walk turns)
    else some w

end

/-- The parts of a line that a walk finds, in at most one turn for each character. -/
def scan (line : String) : Option (List Span) :=
  let chars := offsets 0 line.toList
  (walk line chars chars.length ⟨0, "", []⟩).map fun w => (w.flush (wordStyle w.word false)).spans

/-! ### Words -/

/-- The blank characters by their codes. -/
def blankCodes : List Nat :=
  List.range' 0x9 5 ++ List.range' 0x2000 11 ++
    [0x20, 0x85, 0xA0, 0x1680, 0x2028, 0x2029, 0x202F, 0x205F, 0x3000]

theorem mem_blankCodes {c : Char} (blank : Text.isBlank c) : c.toNat ∈ blankCodes := by
  simp only [Text.isBlank, Bool.or_eq_true, Bool.and_eq_true, decide_eq_true_eq, beq_iff_eq] at blank
  simp only [blankCodes, List.mem_append, List.mem_range'_1, List.mem_cons, List.not_mem_nil, or_false]
  omega

section

variable {word cs : List Char} {atStart : Bool} {c : Char}

/-- No blank is part of a word. -/
theorem isBlank_of_isWordChar (wordChar : isWordChar c) : Text.isBlank c = false := by
  cases blank : Text.isBlank c with
  | false => rfl
  | true =>
    have apart : (blankCodes.all fun n => !isWordChar (Char.ofNat n)) = true := by decide +kernel
    have := List.all_eq_true.mp apart _ (mem_blankCodes blank)
    rw [Char.ofNat_toNat, wordChar] at this
    cases this

/-- The characters that a comment, a directive or a literal starts with. -/
def marks : List Char := ['/', '#', '"', '\'']

theorem isWordChar_of_mark (mark : c ∈ marks) : isWordChar c = false := by
  have apart : (marks.all fun mark => !isWordChar mark) = true := by decide +kernel
  simpa using List.all_eq_true.mp apart c mark

theorem not_mark_of_isWordChar (letter : isWordChar c) : c ∉ marks := fun mark => by
  simp [isWordChar_of_mark mark] at letter

theorem isBlank_of_mark (mark : c ∈ marks) : Text.isBlank c = false := by
  have apart : (marks.all fun mark => !Text.isBlank mark) = true := by decide
  simpa using List.all_eq_true.mp apart c mark

theorem mark_of_comment (comment : startsComment c cs || (c = '#' && atStart)) : c ∈ marks := by
  simp only [startsComment, Bool.or_eq_true, Bool.and_eq_true, decide_eq_true_eq] at comment
  rcases comment with ⟨rfl, -⟩ | ⟨rfl, -⟩ <;> decide

theorem mark_of_quote (quote : Piece.isQuote c) : c ∈ marks := by
  rcases (by simpa [Piece.isQuote] using quote : c = '"' ∨ c = '\'') with rfl | rfl <;> decide

/-- The part of a word, if there is one. -/
def wordSpan (word : List Char) (style : Style) : List Span :=
  if word = [] then [] else [⟨String.ofList word, style⟩]

/-- The parts of what is left of a line when the letters of `word` were read before it. -/
def pending (word : List Char) (atStart : Bool) (cs : List Char) : List Span :=
  if word = [] then spans atStart cs
  else
    let whole := String.ofList (word ++ cs.takeWhile isWordChar)
    ⟨whole, styleBefore whole (cs.dropWhile isWordChar)⟩ :: spans false (cs.dropWhile isWordChar)

theorem pending_none : pending [] atStart cs = spans atStart cs := if_pos rfl

theorem pending_end : pending word atStart [] = wordSpan word (wordStyle (String.ofList word) false) := by
  unfold pending wordSpan
  split
  · rw [spans]
  · simp [spans, styleBefore]

/-- A letter goes to the word before it, or starts one. -/
theorem pending_letter (letter : isWordChar c) (inside : Bool) :
    pending word atStart (c :: cs) = pending (word ++ [c]) inside cs := by
  by_cases none : word = []
  · have unmarked := not_mark_of_isWordChar letter
    have comment : ¬(startsComment c cs || (c = '#' && atStart)) := fun h => unmarked (mark_of_comment h)
    have quote : ¬Piece.isQuote c := fun h => unmarked (mark_of_quote h)
    rw [none, pending_none, spans, if_neg comment, if_neg quote, if_pos letter]
    rfl
  · rw [pending, if_neg none, pending, if_neg (by simp), List.takeWhile_cons_of_pos letter,
      List.dropWhile_cons_of_pos letter]
    simp

/-- Any other character ends the word. -/
theorem pending_break (other : isWordChar c = false) (begun : word ≠ [] → atStart = false) :
    pending word atStart (c :: cs) =
      wordSpan word (styleBefore (String.ofList word) (c :: cs)) ++ spans atStart (c :: cs) := by
  unfold pending wordSpan
  split
  · rfl
  · next some =>
    have other : ¬isWordChar c := by simp [other]
    rw [List.takeWhile_cons_of_neg other, List.dropWhile_cons_of_neg other, List.append_nil, begun some]
    rfl

/-- A comment or a directive takes the rest; a word right before it has no style. -/
theorem pending_comment (comment : startsComment c cs || (c = '#' && atStart)) (begun : word ≠ [] → atStart = false) :
    pending word atStart (c :: cs) =
      wordSpan word .plain ++ [⟨String.ofList (c :: cs), .ink Theme.muted⟩] := by
  have plain : wordSpan word (styleBefore (String.ofList word) (c :: cs)) = wordSpan word .plain := by
    -- Before a directive there are only blanks, so the word is one before a comment.
    by_cases none : word = []
    · rw [wordSpan, wordSpan, if_pos none, if_pos none]
    · have starts : startsComment c cs := by simpa [begun none] using comment
      rw [styleBefore, if_pos (by simp [starts])]
  rw [pending_break (isWordChar_of_mark (mark_of_comment comment)) begun, plain, spans, if_pos comment]

/-- A literal runs to its end; a word right before it has no style. -/
theorem pending_literal (comment : ¬(startsComment c cs || (c = '#' && atStart))) (quote : Piece.isQuote c)
    (begun : word ≠ [] → atStart = false) :
    pending word atStart (c :: cs) =
      wordSpan word .plain ++ literalSpan c (Piece.literalBody c cs).1 (Piece.literalBody c cs).2.1 ::
        spans false (Piece.literalBody c cs).2.2 := by
  rw [pending_break (isWordChar_of_mark (mark_of_quote quote)) begun, styleBefore, if_pos (by simp [quote]), spans,
    if_neg comment, if_pos quote]

/-- Any other character stands for itself and gives the word before it its style. -/
theorem pending_symbol (comment : ¬(startsComment c cs || (c = '#' && atStart))) (quote : ¬Piece.isQuote c)
    (other : isWordChar c = false) (begun : word ≠ [] → atStart = false) :
    pending word atStart (c :: cs) =
      wordSpan word (wordStyle (String.ofList word) (c = '(')) ++
        ⟨String.ofList [c], symbolStyle c⟩ :: spans (atStart && Text.isBlank c) cs := by
  have styled : ¬(startsComment c cs || Piece.isQuote c) := by
    simp only [Bool.or_eq_true, not_or] at comment ⊢
    exact ⟨comment.1, quote⟩
  rw [pending_break other begun, styleBefore, if_neg styled, spans, if_neg comment, if_neg quote,
    if_neg (by simp [other])]

end

/-! ### What one turn does -/

theorem Walk.flush_eq (position : Nat) (word : List Char) (found : List Span) (style : Style) :
    flush ⟨position, String.ofList word, found⟩ style = ⟨position, String.ofList [], found ++ wordSpan word style⟩ := by
  by_cases none : word = []
  · simp [flush, wordSpan, none]
  · have some : String.ofList word ≠ "" := fun h => none (by simpa using congrArg String.toList h)
    simp [flush, wordSpan, none, some]

theorem literalEnd_behind {chars : List (Nat × Char)} {quote : Char} {k : Nat} (behind : chars.length ≤ k) :
    literalEnd chars quote k = some k := by
  rw [literalEnd, if_neg (Nat.not_lt.mpr behind)]

theorem literalEnd_at (quote : Char) (start : Nat) (before : List Char) (c : Char) (cs : List Char) :
    literalEnd (offsets start (before ++ c :: cs)) quote before.length =
      if c = quote then some before.length
      else if c = '\\' then literalEnd (offsets start (before ++ c :: cs)) quote (before.length + 2)
      else literalEnd (offsets start (before ++ c :: cs)) quote (before.length + 1) := by
  rw [literalEnd, if_pos (by simp [length_offsets]), offsets_append]
  rfl

/-- The end of a literal is looked for inside the line and found where its text ends. -/
theorem literalEnd_eq (quote : Char) (start : Nat) (before cs : List Char) :
    ∃ k, literalEnd (offsets start (before ++ cs)) quote before.length = some k ∧
      min (k + 1) (before ++ cs).length + (Piece.literalBody quote cs).2.2.length = (before ++ cs).length := by
  fun_induction Piece.literalBody quote cs generalizing before with
  | case1 => exact ⟨before.length, literalEnd_behind (by simp [length_offsets]), by simp⟩
  | case2 rest =>
    refine ⟨before.length, ?_, by simp; omega⟩
    rw [literalEnd_at, if_pos rfl]
  | case3 different =>
    -- A backslash at the end of the line: the search goes on behind the line, and stops.
    refine ⟨before.length + 2, ?_, by simp⟩
    rw [literalEnd_at, if_neg different, if_pos rfl, literalEnd_behind (by simp [length_offsets])]
  | case4 escaped rest raw different ih =>
    obtain ⟨k, found, ends⟩ := ih (before ++ ['\\', escaped])
    refine ⟨k, ?_, by simpa using ends⟩
    rw [literalEnd_at, if_neg different, if_pos rfl]
    simpa using found
  | case5 c rest different unescaped raw ih =>
    obtain ⟨k, found, ends⟩ := ih (before ++ [c])
    refine ⟨k, ?_, by simpa using ends⟩
    rw [literalEnd_at, if_neg different, if_neg unescaped]
    simpa using found

section

variable {line : String} {done cs word : List Char} {c : Char} {found : List Span}

theorem eq_ofList (split : line.toList = cs) : line = String.ofList cs := by
  rw [← split, String.ofList_toList]

theorem cut_between (done text rest : List Char) (split : line.toList = done ++ (text ++ rest)) :
    cut line (String.ofList done).utf8ByteSize (String.ofList (done ++ text)).utf8ByteSize =
      some (String.ofList text) := by
  rw [String.ofList_append]
  exact cut_append _ _ (String.ofList rest) (by simp [eq_ofList split, String.append_assoc])

/-- The byte offset that a walk takes from a position, at the end of the line too. -/
theorem offset_at (split : line.toList = done ++ cs) :
    ((offsets 0 line.toList)[done.length]?.map Prod.fst).getD line.utf8ByteSize =
      (String.ofList done).utf8ByteSize := by
  rw [split, offsets_append]
  cases cs with
  | nil => simp [eq_ofList split]
  | cons c cs => simp

theorem startsDirective_at (split : line.toList = done ++ c :: cs) :
    startsDirective line (String.ofList done).utf8ByteSize c = some (c = '#' && done.all Text.isBlank) := by
  have before : cut line 0 (String.ofList done).utf8ByteSize = some (String.ofList done) :=
    cut_between [] done (c :: cs) split
  unfold startsDirective
  split
  · next hash => simp [before, hash]
  · next other => simp [other]

theorem startsComment_at (split : line.toList = done ++ c :: cs) :
    startsComment c ((offsets 0 line.toList)[done.length + 1]?.map Prod.snd).toList = startsComment c cs := by
  have next := offsets_append 0 (done ++ [c]) cs
  rw [List.append_assoc, List.singleton_append, ← split, List.length_append, List.length_singleton] at next
  rw [next]
  cases cs <;> rfl

/-- A walk that has come behind the characters `done`. -/
def Walk.before (done word : List Char) (found : List Span) : Walk := ⟨done.length, String.ofList word, found⟩

/-- The turn at the character behind `done`. -/
def turnAt (line : String) (done word : List Char) (found : List Span) (c : Char) : Option Walk :=
  turn line (offsets 0 line.toList) (.before done word found) (String.ofList done).utf8ByteSize c

theorem turnAt_eq (split : line.toList = done ++ c :: cs) :
    turnAt line done word found c =
      pass line (offsets 0 line.toList) ⟨done.length, String.ofList word, found⟩ (String.ofList done).utf8ByteSize c
        (startsComment c cs || (c = '#' && done.all Text.isBlank)) := by
  rw [turnAt, turn, startsDirective_at split, Option.bind_some, Walk.before, startsComment_at split]

theorem turn_comment (split : line.toList = done ++ c :: cs)
    (comment : startsComment c cs || (c = '#' && done.all Text.isBlank)) :
    turnAt line done word found c =
      some (.before (done ++ c :: cs) []
        (found ++ wordSpan word .plain ++ [⟨String.ofList (c :: cs), .ink Theme.muted⟩])) := by
  have text : cut line (String.ofList done).utf8ByteSize line.utf8ByteSize = some (String.ofList (c :: cs)) := by
    have := cut_between done (c :: cs) [] (by rw [split, List.append_nil])
    rwa [← eq_ofList split] at this
  rw [turnAt_eq split, pass, if_pos comment, text, Option.map_some, Walk.flush_eq, length_offsets, split]
  rfl

/-- The text of a literal and what follows it. -/
theorem literal_chars (quote : Char) (cs : List Char) :
    (Piece.literal quote (Piece.literalBody quote cs).1 (Piece.literalBody quote cs).2.1).chars ++
      (Piece.literalBody quote cs).2.2 = quote :: cs :=
  congrArg (quote :: ·) (Piece.literalBody_chars quote cs)

theorem turn_literal (split : line.toList = done ++ c :: cs)
    (comment : ¬(startsComment c cs || (c = '#' && done.all Text.isBlank))) (quote : Piece.isQuote c) :
    turnAt line done word found c =
      some (.before (done ++ (Piece.literal c (Piece.literalBody c cs).1 (Piece.literalBody c cs).2.1).chars) []
        (found ++ wordSpan word .plain ++
          [literalSpan c (Piece.literalBody c cs).1 (Piece.literalBody c cs).2.1])) := by
  generalize body : (Piece.literal c (Piece.literalBody c cs).1 (Piece.literalBody c cs).2.1).chars = text
  have covers : text ++ (Piece.literalBody c cs).2.2 = c :: cs := by rw [← body, literal_chars]
  obtain ⟨k, ends, stop⟩ := literalEnd_eq c 0 (done ++ [c]) cs
  rw [List.append_assoc, List.singleton_append, ← split, List.length_append, List.length_singleton] at ends
  -- The search counts characters and the cut bytes: both stop behind the text of the literal.
  have stop : min (k + 1) (offsets 0 line.toList).length = (done ++ text).length := by
    have := congrArg List.length covers
    rw [length_offsets, split]
    simp only [List.length_append, List.length_cons, List.length_nil] at stop this ⊢
    omega
  have after : line.toList = done ++ text ++ (Piece.literalBody c cs).2.2 := by rw [List.append_assoc, covers, split]
  rw [turnAt_eq split, pass, if_neg comment, if_pos quote, ends, Option.bind_some]
  simp only [stop]
  rw [offset_at after, cut_between done text _ (by rw [covers, split]), Option.map_some, Walk.flush_eq, ← body]
  rfl

theorem turn_letter (split : line.toList = done ++ c :: cs) (letter : isWordChar c) :
    turnAt line done word found c = some (.before (done ++ [c]) (word ++ [c]) found) := by
  have unmarked := not_mark_of_isWordChar letter
  rw [turnAt_eq split, pass, if_neg fun h => unmarked (mark_of_comment h), if_neg fun h => unmarked (mark_of_quote h),
    if_pos letter]
  simp [Walk.before, String.ofList_append]

theorem turn_symbol (split : line.toList = done ++ c :: cs)
    (comment : ¬(startsComment c cs || (c = '#' && done.all Text.isBlank))) (quote : ¬Piece.isQuote c)
    (other : isWordChar c = false) :
    turnAt line done word found c =
      some (.before (done ++ [c]) []
        (found ++ wordSpan word (wordStyle (String.ofList word) (c = '(')) ++
          [⟨String.ofList [c], symbolStyle c⟩])) := by
  rw [turnAt_eq split, pass, if_neg comment, if_neg quote, if_neg (by simp [other]), Walk.flush_eq, Walk.before,
    List.length_append, List.length_singleton]
  rfl

end

/-! ### The whole walk -/

/-- The walk stands before `cs`, the end of the line, and what it has found and what is pending make up `result`. -/
inductive Walk.Leads (line : String) (result : List Span) (cs : List Char) : Walk → Prop where
  | intro (done word : List Char) (found : List Span) (split : line.toList = done ++ cs)
      (begun : word ≠ [] → done.all Text.isBlank = false)
      (rest : found ++ pending word (done.all Text.isBlank) cs = result) :
      Leads line result cs (.before done word found)

/-- A turn succeeds, and brings the walk nearer to the end of the line with the same parts to come out. -/
theorem turn_leads {line : String} {done word cs : List Char} {c : Char} {found : List Span}
    (split : line.toList = done ++ c :: cs) (begun : word ≠ [] → done.all Text.isBlank = false) :
    ∃ w rest, turnAt line done word found c = some w ∧ rest.length ≤ cs.length ∧
      Walk.Leads line (found ++ pending word (done.all Text.isBlank) (c :: cs)) rest w := by
  by_cases comment : startsComment c cs || (c = '#' && done.all Text.isBlank)
  · refine ⟨_, [], turn_comment split comment, Nat.zero_le _,
      .intro _ _ _ (by rw [split, List.append_nil]) (by simp) ?_⟩
    rw [pending_comment comment begun, pending_none, spans, List.append_nil, List.append_assoc]
  by_cases quote : Piece.isQuote c
  · have shorter := congrArg List.length (Piece.literalBody_chars c cs)
    rw [List.length_append] at shorter
    refine ⟨_, (Piece.literalBody c cs).2.2, turn_literal split comment quote, by omega,
      .intro _ _ _ (by rw [split, List.append_assoc, literal_chars]) (by simp) ?_⟩
    rw [pending_literal comment quote begun, pending_none]
    simp [Piece.chars, isBlank_of_mark (mark_of_quote quote)]
  by_cases letter : isWordChar c
  · refine ⟨_, cs, turn_letter split letter, Nat.le_refl _, .intro _ _ _ (by simp [split]) (fun _ => ?_) ?_⟩
    · simp [isBlank_of_isWordChar letter]
    · rw [← pending_letter letter]
  · have other : isWordChar c = false := by simpa using letter
    refine ⟨_, cs, turn_symbol split comment quote other, Nat.le_refl _, .intro _ _ _ (by simp [split]) (by simp) ?_⟩
    rw [pending_symbol comment quote other begun, pending_none]
    simp

theorem walk_behind {line : String} (turns : Nat) {w : Walk} (behind : line.toList.length ≤ w.position) :
    walk line (offsets 0 line.toList) turns w = some w := by
  have : ¬w.position < (offsets 0 line.toList).length := by
    rw [length_offsets]
    exact Nat.not_lt.mpr behind
  cases turns <;> exact if_neg this

theorem walk_turn {line : String} {done cs : List Char} {c : Char} (split : line.toList = done ++ c :: cs) (turns : Nat)
    (word : List Char) (found : List Span) :
    walk line (offsets 0 line.toList) (turns + 1) (.before done word found) =
      (turnAt line done word found c).bind (walk line (offsets 0 line.toList) turns) := by
  have inside : done.length < (offsets 0 line.toList).length := by simp [length_offsets, split]
  have next : (offsets 0 line.toList)[done.length]? = some ((String.ofList done).utf8ByteSize, c) := by
    simpa [split] using offsets_append 0 done (c :: cs)
  rw [walk, Walk.before, if_pos inside, next]
  rfl

/-- A walk with a turn for each character that is left comes to the end of the line. -/
theorem walk_leads {line : String} {result : List Span} {cs : List Char} {w : Walk} (leads : w.Leads line result cs)
    {turns : Nat} (enough : cs.length ≤ turns) :
    ∃ last, walk line (offsets 0 line.toList) turns w = some last ∧ last.Leads line result [] := by
  induction turns generalizing cs w with
  | zero =>
    obtain rfl : cs = [] := List.length_eq_zero_iff.mp (Nat.le_zero.mp enough)
    obtain ⟨done, word, found, split, begun, rest⟩ := leads
    exact ⟨_, walk_behind 0 (by simp [split, Walk.before]), .intro done word found split begun rest⟩
  | succ turns ih =>
    obtain ⟨done, word, found, split, begun, rest⟩ := leads
    cases cs with
    | nil => exact ⟨_, walk_behind _ (by simp [split, Walk.before]), .intro done word found split begun rest⟩
    | cons c cs =>
      obtain ⟨w, rest', turned, shorter, leads⟩ := turn_leads split begun
      rw [rest] at leads
      rw [walk_turn split, turned, Option.bind_some]
      exact ih leads (Nat.le_trans shorter (Nat.le_of_succ_le_succ enough))

/-- The walk by position finds the parts of the line. -/
theorem scan_eq (line : String) : scan line = some (Highlight.line line) := by
  have start : Walk.Leads line (Highlight.line line) line.toList (.before [] [] []) :=
    .intro [] [] [] rfl (fun h => absurd rfl h) pending_none
  obtain ⟨last, walked, leads⟩ := walk_leads start (Nat.le_of_eq (length_offsets 0 line.toList).symm)
  obtain ⟨done, word, found, split, begun, rest⟩ := leads
  rw [pending_end] at rest
  have flushed : ((Walk.before done word found).flush (wordStyle (String.ofList word) false)).spans =
      found ++ wordSpan word (wordStyle (String.ofList word) false) := by rw [Walk.before, Walk.flush_eq]
  calc scan line = some ((Walk.before done word found).flush (wordStyle (String.ofList word) false)).spans :=
        congrArg (Option.map fun w : Walk => (w.flush (wordStyle w.word false)).spans) walked
    _ = some (Highlight.line line) := by rw [flushed, rest]

/-! ### The text of the parts -/

theorem spans_text (atStart : Bool) (cs : List Char) :
    String.join ((spans atStart cs).map Span.text) = String.ofList cs := by
  fun_induction spans atStart cs with
  | case1 => rfl
  | case2 atStart c cs comment => simp
  | case3 atStart c cs comment quote body ih =>
    rw [List.map_cons, String.join_cons, ih, ← literal_chars c cs, String.ofList_append]
    rfl
  | case4 atStart c cs comment quote letter word rest ih =>
    rw [List.map_cons, String.join_cons, ih, ← String.ofList_append, List.cons_append, List.takeWhile_append_dropWhile]
  | case5 atStart c cs comment quote other ih =>
    rw [List.map_cons, String.join_cons, ih, ← String.ofList_append, List.singleton_append]

theorem spans_nonempty (atStart : Bool) (cs : List Char) : ∀ s ∈ spans atStart cs, s.text ≠ "" := by
  fun_induction spans atStart cs with
  | case1 => simp
  | case2 atStart c cs comment => simp
  | case3 atStart c cs comment quote body ih =>
    simpa [literalSpan, Piece.chars] using ih
  | case4 atStart c cs comment quote letter word rest ih =>
    simpa [word] using ih
  | case5 atStart c cs comment quote other ih =>
    simpa using ih

/-- Colouring comes to the end of every line with no look-up out of bounds and no cut inside a
character, and its parts are the line, with none of them empty. -/
theorem line_lossless (text : String) :
    scan text = some (line text) ∧ String.join ((line text).map Span.text) = text ∧
      ∀ part ∈ line text, part.text ≠ "" := by
  refine ⟨scan_eq text, ?_, spans_nonempty true text.toList⟩
  rw [line, spans_text, String.ofList_toList]

/-- A word of more bytes than letters, then a literal that nothing but a backslash ends. -/
theorem line_lossless_unclosed :
    scan "größe\"ä\\" = some [⟨"größe", .plain⟩, ⟨"\"ä\\", .ink Theme.stringLiteral⟩] ∧
      String.join ((line "größe\"ä\\").map Span.text) = "größe\"ä\\" ∧ "\"ä\\" ≠ "" := by
  have parts : line "größe\"ä\\" = [⟨"größe", .plain⟩, ⟨"\"ä\\", .ink Theme.stringLiteral⟩] := by decide +kernel
  obtain ⟨scanned, joined, nonempty⟩ := line_lossless "größe\"ä\\"
  exact ⟨parts ▸ scanned, joined, nonempty ⟨"\"ä\\", .ink Theme.stringLiteral⟩ (by simp [parts])⟩

end Highlight
end MiniC
