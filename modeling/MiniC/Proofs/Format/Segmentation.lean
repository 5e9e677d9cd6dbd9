/-
# A format has one segmentation

What may stand as a marker is said part by part: flag characters and the digits of a
width, a point with digits or none, length modifiers, a letter that is no modifier
(`Marker.Formed`). Reading a marker gives such parts, and every marker that stands at
the front of a text is the one that is read there (`Marker.read?_of_formed`).

The text of a format is read in backslash pairs. A percent sign outside of a pair is
text if neither a percent escape nor a marker starts at it (`Format.Opens`,
`Format.Plain`), and this depends on what stands behind the text. A format is segmented
if its texts are such texts, its markers are formed and no two texts stand side by side
(`Format.Segmented`). Each rule determines what `segments` does, so there is one
segmentation of each format and it is the one that is found (`Format.segmented_iff`).

Key definitions: `Marker.Formed`, `Format.Opens`, `Format.Plain`, `Format.Segmented`.
Key theorems: `Marker.read?_of_formed`, `Format.segmented_iff`, `Format.segments_exact`.
-/
import MiniC.Proofs.Emission.Inline
import MiniC.Proofs.Numeral

namespace MiniC

/-! ### Markers -/

namespace Marker

/-- The parts of a marker are of the classes that the grammar has for them. -/
structure Formed (m : Marker) : Prop where
  flags : ∃ signs width, m.flags = signs ++ width ∧ (∀ c ∈ signs, isFlag c) ∧ ∀ c ∈ width, c.isDigit
  digits : ∀ ds ∈ m.digits, ∀ c ∈ ds, c.isDigit
  modifiers : ∀ c ∈ m.modifiers, isLengthModifier c
  alpha : m.letter.isAlpha
  /-- A length modifier is never the letter of a marker, since the modifiers take it. -/
  noModifier : isLengthModifier m.letter = false

/-- The marker behind its percent sign. -/
def body (m : Marker) : List Char :=
  m.flags ++ (m.digits.elim [] ('.' :: ·) ++ (m.modifiers ++ [m.letter]))

theorem raw_eq (m : Marker) : m.raw = '%' :: m.body := by
  simp [raw, body]

theorem isAlpha_of_isLengthModifier {c : Char} (h : isLengthModifier c) : c.isAlpha := by
  have all : ['h', 'l', 'L', 'q', 'j', 'z', 't'].all Char.isAlpha := by decide
  exact List.all_eq_true.mp all c (List.contains_iff_mem.mp h)

/-- A letter is of no class that a marker has before its letters. -/
theorem letter_apart {c : Char} (h : c.isAlpha) :
    isFlag c = false ∧ c.isDigit = false ∧ c ≠ '.' ∧ c ≠ '%' ∧ c ≠ '\\' := by
  have range := isLetter_range (c := c) (by rw [Piece.isLetter, h, Bool.true_or])
  have ne (d : Char) (out : ¬(65 ≤ d.toNat ∧ d.toNat ≤ 90 ∨ 97 ≤ d.toNat ∧ d.toNat ≤ 122 ∨ d.toNat = 95)) :
      c ≠ d := by
    rintro rfl
    exact out range
  have notDigit : c.isDigit = false := by
    by_contra digit
    have := isDigit_range (c := c) (by simpa using digit)
    omega
  refine ⟨?_, notDigit, ne '.' (by decide), ne '%' (by decide), ne '\\' (by decide)⟩
  simp [isFlag, ne '-' (by decide), ne '+' (by decide), ne ' ' (by decide), ne '#' (by decide), ne '0' (by decide)]

/-- What follows stops a run of characters, whether the run takes all of the text or not. -/
theorem dropWhile_append_stop {p : Char → Bool} {rest : List Char} (stop : ∀ c ∈ rest.head?, p c = false) :
    ∀ cs : List Char, (cs ++ rest).takeWhile p = cs.takeWhile p ∧ (cs ++ rest).dropWhile p = cs.dropWhile p ++ rest
  | [] => by
    have nothing := takeWhile_append_stop (List.forall_mem_nil (p · = true)) stop
    simpa using nothing
  | c :: cs => by
    have ih := dropWhile_append_stop stop cs
    by_cases hc : p c
    · simp [hc, ih]
    · simp [hc]

theorem readFlags_append_stop {flags rest : List Char}
    (h : ∃ signs width, flags = signs ++ width ∧ (∀ c ∈ signs, isFlag c) ∧ ∀ c ∈ width, c.isDigit)
    (stop : ∀ c ∈ rest.head?, isFlag c = false ∧ c.isDigit = false) :
    readFlags (flags ++ rest) = (flags, rest) := by
  obtain ⟨signs, width, rfl, areFlags, areDigits⟩ := h
  -- Zeros that lead the width are flag characters, too: they are taken with the flags.
  have leading := dropWhile_append_stop (fun c hc => (stop c hc).1) width
  have digits : ∀ c ∈ width.dropWhile isFlag, c.isDigit :=
    fun c hc => areDigits c ((List.dropWhile_sublist _).subset hc)
  have others := takeWhile_append_stop digits fun c hc => (stop c hc).2
  simp only [readFlags, List.append_assoc, List.takeWhile_append_of_pos areFlags,
    List.dropWhile_append_of_pos areFlags, leading.1, leading.2, others.1, others.2,
    List.takeWhile_append_dropWhile]

theorem readPrecision_append_stop {digits : Option (List Char)} {rest : List Char}
    (h : ∀ ds ∈ digits, ∀ c ∈ ds, c.isDigit) (stop : ∀ c ∈ rest.head?, c.isDigit = false ∧ c ≠ '.') :
    readPrecision (digits.elim [] ('.' :: ·) ++ rest) = (digits, rest) := by
  cases digits with
  | some ds =>
    have run := takeWhile_append_stop (h ds rfl) fun c hc => (stop c hc).1
    simp [readPrecision, run.1, run.2]
  | none =>
    show readPrecision rest = (none, rest)
    unfold readPrecision
    split
    · exact absurd rfl (stop '.' rfl).2
    · rfl

/-- **A marker at the front of a text is read there**, whatever follows it. -/
theorem read?_of_formed {m : Marker} (h : m.Formed) (rest : List Char) :
    read? (m.body ++ rest) = some (m, rest) := by
  have letter := letter_apart h.alpha
  have named : ∀ c ∈ (m.modifiers ++ m.letter :: rest).head?, c.isAlpha := by
    intro c hc
    cases hm : m.modifiers with
    | nil =>
      obtain rfl : m.letter = c := by simpa [hm] using hc
      exact h.alpha
    | cons d ds =>
      obtain rfl : d = c := by simpa [hm] using hc
      exact isAlpha_of_isLengthModifier (h.modifiers d (by simp [hm]))
  have precision : ∀ c ∈ (m.digits.elim [] ('.' :: ·) ++ (m.modifiers ++ m.letter :: rest)).head?,
      isFlag c = false ∧ c.isDigit = false := by
    intro c hc
    cases hd : m.digits with
    | none => exact ⟨(letter_apart (named c (by simpa [hd] using hc))).1,
        (letter_apart (named c (by simpa [hd] using hc))).2.1⟩
    | some ds =>
      obtain rfl : '.' = c := by simpa [hd] using hc
      decide
  have first := readFlags_append_stop h.flags precision
  have second := readPrecision_append_stop h.digits fun c hc =>
    ⟨(letter_apart (named c hc)).2.1, (letter_apart (named c hc)).2.2.1⟩
  have last : ∀ c ∈ (m.letter :: rest).head?, isLengthModifier c = false := by simpa using h.noModifier
  have third := takeWhile_append_stop h.modifiers last
  have whole : m.body ++ rest =
      m.flags ++ (m.digits.elim [] ('.' :: ·) ++ (m.modifiers ++ m.letter :: rest)) := by simp [body]
  simp only [read?, whole, first, second, third.1, third.2, h.alpha, if_true]

/-- What is read has the form of a marker. -/
theorem formed_of_read? {cs rest : List Char} {m : Marker} (h : read? cs = some (m, rest)) : m.Formed := by
  unfold read? at h
  dsimp only at h
  split at h
  · cases h
  · next letter rest' eq =>
    split at h
    · next alpha =>
      obtain ⟨rfl, -⟩ := Prod.mk.inj (Option.some.inj h)
      refine ⟨⟨_, _, rfl, fun c => List.mem_takeWhile_imp, fun c => List.mem_takeWhile_imp⟩, ?_,
        fun c => List.mem_takeWhile_imp, alpha, ?_⟩
      · intro ds hds c hc
        unfold readPrecision at hds
        split at hds
        · obtain rfl := Option.some.inj hds
          exact List.mem_takeWhile_imp hc
        · cases hds
      · exact Piece.dropWhile_stops _ _ letter (by rw [eq]; rfl)
    · cases h

/-- The classes of the characters behind the percent sign. -/
theorem Formed.body_class {m : Marker} (h : m.Formed) :
    ∀ c ∈ m.body, isFlag c ∨ c.isDigit ∨ c = '.' ∨ c.isAlpha := by
  obtain ⟨signs, width, flags, areFlags, areDigits⟩ := h.flags
  intro c hc
  simp only [body, flags, List.mem_append, List.mem_singleton] at hc
  rcases hc with (hc | hc) | hc | hc | rfl
  · exact .inl (areFlags c hc)
  · exact .inr (.inl (areDigits c hc))
  · cases hd : m.digits with
    | none => simp [hd] at hc
    | some ds =>
      rw [hd] at hc
      rcases List.mem_cons.mp hc with rfl | hc
      · exact .inr (.inr (.inl rfl))
      · exact .inr (.inl (h.digits ds hd c hc))
  · exact .inr (.inr (.inr (isAlpha_of_isLengthModifier (h.modifiers c hc))))
  · exact .inr (.inr (.inr h.alpha))

/-- Neither a percent sign nor a backslash is part of the body of a marker. -/
theorem Formed.body_apart {m : Marker} (h : m.Formed) : ∀ c ∈ m.body, c ≠ '%' ∧ c ≠ '\\' := by
  intro c hc
  rcases h.body_class c hc with flag | digit | rfl | alpha
  · constructor <;> (rintro rfl; exact absurd flag (by decide))
  · constructor <;> (rintro rfl; exact absurd digit (by decide))
  · decide
  · exact (letter_apart alpha).2.2.2

end Marker

/-! ### Backslash pairs -/

theorem Text.paired_plain {c : Char} (plain : c ≠ '\\') (cs : List Char) : Text.paired (c :: cs) = Text.paired cs := by
  rw [Text.paired.eq_def]
  simp [plain]

theorem Text.paired_append {cs : List Char} (h : Text.paired cs) (ds : List Char) :
    Text.paired (cs ++ ds) = Text.paired ds := by
  fun_induction Text.paired cs with
  | case1 => rfl
  | case2 => cases h
  | case3 escaped cs ih => rw [← ih h]; simp [Text.paired]
  | case4 c cs plain ih => rw [← ih h, List.cons_append, Text.paired_plain plain]

theorem Text.paired_of_free {cs : List Char} (h : ∀ c ∈ cs, c ≠ '\\') : Text.paired cs := by
  induction cs with
  | nil => rfl
  | cons c cs ih =>
    obtain ⟨plain, free⟩ := List.forall_mem_cons.mp h
    rw [Text.paired_plain plain, ih free]

theorem Text.paired_flatMap {α : Type} {f : α → List Char} {as : List α} (h : ∀ a ∈ as, Text.paired (f a)) :
    Text.paired (as.flatMap f) := by
  induction as with
  | nil => rfl
  | cons a as ih =>
    obtain ⟨first, more⟩ := List.forall_mem_cons.mp h
    rw [List.flatMap_cons, Text.paired_append first, ih more]

theorem Marker.Formed.raw_paired {m : Marker} (h : m.Formed) : Text.paired m.raw := by
  rw [Marker.raw_eq, Text.paired_plain (by decide)]
  exact Text.paired_of_free fun c hc => (h.body_apart c hc).2

/-! ### The grammar of formats -/

namespace Format

/-- A percent escape or a marker starts the text. -/
def Opens (cs : List Char) : Prop := ['%', '%'] <+: cs ∨ ∃ m : Marker, m.Formed ∧ m.raw <+: cs

/-- Text of a format, with `after` behind it. -/
inductive Plain (after : List Char) : List Char → Prop
  | nil : Plain after []
  | pair {c : Char} {cs : List Char} : Plain after cs → Plain after ('\\' :: c :: cs)
  -- Only at the end of the format a backslash has no partner.
  | dangling : after = [] → Plain after ['\\']
  | percent {cs : List Char} : ¬Opens ('%' :: (cs ++ after)) → Plain after cs → Plain after ('%' :: cs)
  | char {c : Char} {cs : List Char} : c ≠ '\\' → c ≠ '%' → Plain after cs → Plain after (c :: cs)

/-- The first segment is text. -/
def startsWithText : List Segment → Bool
  | .text _ :: _ => true
  | _ => false

/-- The segments make up the format, each by its rule. -/
inductive Segmented : List Char → List Segment → Prop
  | nil : Segmented [] []
  | text {cs after : List Char} {ss : List Segment} : cs ≠ [] → Plain after cs → startsWithText ss = false →
    Segmented after ss → Segmented (cs ++ after) (.text cs :: ss)
  | percent {after : List Char} {ss : List Segment} :
    Segmented after ss → Segmented ('%' :: '%' :: after) (.percent :: ss)
  | marker {m : Marker} {after : List Char} {ss : List Segment} : m.Formed →
    Segmented after ss → Segmented (m.raw ++ after) (.marker m :: ss)

/-! ### The rules determine the segments -/

section

variable {c : Char} {cs after : List Char} {ss : List Segment}

theorem segments_pair (c : Char) (cs : List Char) :
    segments ('\\' :: c :: cs) = prependText ['\\', c] (segments cs) := by
  rw [segments, if_pos rfl]

theorem segments_dangling : segments ['\\'] = [.text ['\\']] := by
  rw [segments, if_pos rfl]

theorem segments_char (notBackslash : c ≠ '\\') (notPercent : c ≠ '%') (cs : List Char) :
    segments (c :: cs) = prependText [c] (segments cs) := by
  rw [segments.eq_def]
  dsimp only
  rw [if_neg notBackslash, if_neg notPercent]

theorem segments_percent (cs : List Char) : segments ('%' :: '%' :: cs) = .percent :: segments cs := by
  rw [segments, if_neg (by decide), if_pos rfl, if_pos List.head?_cons, List.tail_cons]

theorem segments_marker {m : Marker} (h : m.Formed) (cs : List Char) :
    segments (m.raw ++ cs) = .marker m :: segments cs := by
  have noPercent : (m.body ++ cs).head? ≠ some '%' := by
    intro first
    cases hb : m.body with
    | nil => simp [Marker.body] at hb
    | cons d ds =>
      obtain rfl : d = '%' := by simpa [hb] using first
      exact (h.body_apart '%' (by simp [hb])).1 rfl
  rw [Marker.raw_eq, List.cons_append, segments.eq_def]
  dsimp only
  rw [if_neg (by decide), if_pos rfl, if_neg noPercent]
  split
  · next found =>
    rw [Marker.read?_of_formed h] at found
    obtain ⟨rfl, rfl⟩ := Prod.mk.inj (Option.some.inj found)
    rfl
  · next missed =>
    rw [Marker.read?_of_formed h] at missed
    cases missed

theorem segments_sign (closed : ¬Opens ('%' :: cs)) : segments ('%' :: cs) = prependText ['%'] (segments cs) := by
  rw [segments.eq_def]
  dsimp only
  rw [if_neg (by decide), if_pos rfl]
  split
  · next percent =>
    obtain ⟨rest, rfl⟩ := List.head?_eq_some_iff.mp percent
    exact absurd (.inl ⟨rest, rfl⟩) closed
  · split
    · next m rest found =>
      exact absurd (.inr ⟨m, Marker.formed_of_read? found, rest, Marker.raw_append_of_read? found⟩) closed
    · rfl

theorem prependText_of_not_text (h : startsWithText ss = false) (cs : List Char) :
    prependText cs ss = .text cs :: ss := by
  unfold prependText
  split
  · cases h
  · rfl

/-- A text is one segment, if none follows. -/
theorem segments_plain (h : Plain after cs) (some : cs ≠ []) (apart : startsWithText (segments after) = false) :
    segments (cs ++ after) = .text cs :: segments after := by
  -- The rest of the text is either nothing or a segment that takes the front.
  have join (front : List Char) {more : List Char}
      (ih : more ≠ [] → segments (more ++ after) = .text more :: segments after) :
      prependText front (segments (more ++ after)) = .text (front ++ more) :: segments after := by
    cases more with
    | nil => rw [List.nil_append, prependText_of_not_text apart, List.append_nil]
    | cons d more => rw [ih (List.cons_ne_nil d more), prependText]
  induction h with
  | nil => exact absurd rfl some
  | @pair c cs _ ih => rw [List.cons_append, List.cons_append, segments_pair, join _ ih]; rfl
  | dangling atEnd => subst atEnd; rw [List.append_nil, segments_dangling, segments]
  | percent closed _ ih => rw [List.cons_append, segments_sign closed, join _ ih]; rfl
  | char notBackslash notPercent _ ih =>
    rw [List.cons_append, segments_char notBackslash notPercent, join _ ih]
    rfl

/-- A character or pair that may stand before every text here is text. -/
theorem Segmented.prepend (h : Segmented after ss) {front : List Char} (some : front ≠ [])
    (fits : ∀ more behind, more ++ behind = after → Plain behind more → Plain behind (front ++ more)) :
    Segmented (front ++ after) (prependText front ss) := by
  cases htext : startsWithText ss with
  | false =>
    have alone := fits [] after rfl .nil
    rw [List.append_nil] at alone
    rw [prependText_of_not_text htext]
    exact .text some alone htext h
  | true =>
    cases h with
    | @text cs behind ss _ plain apart rest =>
      rw [prependText, ← List.append_assoc]
      exact .text (by simp [some]) (fits cs behind rfl plain) apart rest
    | _ => cases htext

theorem segments_segmented (cs : List Char) : Segmented cs (segments cs) := by
  fun_induction segments cs with
  | case1 => exact .nil
  | case2 =>
    show Segmented (['\\'] ++ []) _
    exact .text (by simp) (.dangling rfl) rfl .nil
  | case3 escaped cs ih =>
    have some : ['\\', escaped] ≠ [] := List.cons_ne_nil _ _
    exact ih.prepend some fun _ _ _ plain => .pair plain
  | case4 cs percent _ ih =>
    obtain ⟨rest, rfl⟩ := List.head?_eq_some_iff.mp percent
    exact .percent ih
  | case5 cs _ m rest found _ ih =>
    rw [← Marker.raw_append_of_read? found]
    exact .marker (Marker.formed_of_read? found) ih
  | case6 cs noPercent missed _ ih =>
    have closed : ¬Opens ('%' :: cs) := by
      rintro (⟨rest, same⟩ | ⟨m, formed, rest, same⟩)
      · exact noPercent (by rw [← (List.cons.inj same).2]; rfl)
      · rw [Marker.raw_eq] at same
        have here : m.body ++ rest = cs := (List.cons.inj same).2
        rw [← here, Marker.read?_of_formed formed] at missed
        cases missed
    exact ih.prepend (List.cons_ne_nil '%' []) fun more behind same plain =>
      .percent (by rwa [← same] at closed) plain
  | case7 c cs notBackslash notPercent ih =>
    exact ih.prepend (List.cons_ne_nil c []) fun _ _ _ plain => .char notBackslash notPercent plain

/-- **A format has one segmentation**, which is the one that is found. -/
theorem segmented_iff {format : List Char} : Segmented format ss ↔ ss = segments format := by
  constructor
  · intro h
    induction h with
    | nil => rw [segments]
    | text some plain apart _ ih => subst ih; rw [segments_plain plain some apart]
    | percent _ ih => rw [segments_percent, ih]
    | marker formed _ ih => rw [segments_marker formed, ih]
  · rintro rfl
    exact segments_segmented format

/-! ### The segments by their places in the format -/

theorem Segmented.raw (h : Segmented after ss) : ss.flatMap Segment.raw = after := by
  rw [segmented_iff.mp h, segments_raw]

theorem Segmented.tail {s : Segment} (h : Segmented after (s :: ss)) : Segmented (ss.flatMap Segment.raw) ss := by
  cases h with
  | text _ _ _ rest => rwa [rest.raw]
  | percent rest => rwa [rest.raw]
  | marker _ rest => rwa [rest.raw]

/-- What stands behind some segments is segmented again. -/
theorem Segmented.behind : ∀ {before : List Segment} {format : List Char}, Segmented format (before ++ ss) →
    Segmented (ss.flatMap Segment.raw) ss
  | [], _, h => by
    have same : ss.flatMap Segment.raw = _ := h.raw
    rwa [same]
  | _ :: _, _, h => behind h.tail

theorem raw_ne_nil {s : Segment} (h : Segmented after (s :: ss)) : s.raw ≠ [] := by
  cases h with
  | text some _ _ _ => exact some
  | percent _ => exact List.cons_ne_nil _ _
  | @marker m _ _ _ _ => rw [Segment.raw, Marker.raw_eq]; exact List.cons_ne_nil _ _

theorem Plain.paired (h : Plain after cs) (some : after ≠ []) : Text.paired cs := by
  induction h with
  | nil => rfl
  | pair _ ih => simpa [Text.paired] using ih
  | dangling atEnd => exact absurd atEnd some
  | percent _ _ ih => rwa [Text.paired_plain (by decide)]
  | char notBackslash _ _ ih => rwa [Text.paired_plain notBackslash]

/-- The texts of a format have their partners if the format has them: only its last
character could lack one. -/
theorem Segmented.texts_paired (h : Segmented after ss) (closed : Text.paired after) :
    ∀ cs, .text cs ∈ ss → Text.paired cs := by
  induction h with
  | nil => simp
  | @text front behind ss _ plain _ _ ih =>
    have first : Text.paired front := by
      by_cases atEnd : behind = []
      · simpa [atEnd] using closed
      · exact plain.paired atEnd
    rw [Text.paired_append first] at closed
    intro cs member
    rcases List.mem_cons.mp member with same | later
    · obtain rfl := Segment.text.inj same
      exact first
    · exact ih closed cs later
  | percent _ ih =>
    rw [Text.paired_plain (by decide), Text.paired_plain (by decide)] at closed
    intro cs member
    exact ih closed cs (by simpa using member)
  | marker formed _ ih =>
    rw [Text.paired_append formed.raw_paired] at closed
    intro cs member
    exact ih closed cs (by simpa using member)

/-- A segment with another one behind it ends no backslash pair early. -/
theorem Segmented.paired {s next : Segment} (h : Segmented after (s :: next :: ss)) : Text.paired s.raw := by
  have more : (next :: ss).flatMap Segment.raw ≠ [] := by
    rw [List.flatMap_cons]
    exact List.append_ne_nil_of_left_ne_nil (raw_ne_nil h.tail) _
  cases h with
  | text _ plain _ rest => exact plain.paired (rest.raw ▸ more)
  | percent _ => rfl
  | marker formed _ => exact formed.raw_paired

theorem Segmented.paired_before {s : Segment} : ∀ {before : List Segment} {format : List Char},
    Segmented format (before ++ s :: ss) → Text.paired (before.flatMap Segment.raw)
  | [], _, _ => rfl
  | [first], _, h => by simpa using h.paired
  | first :: second :: before, _, h => by
    rw [List.flatMap_cons, Text.paired_append h.paired]
    exact paired_before h.tail

/-- A percent sign outside of a pair stays text only if nothing starts at it. -/
theorem Plain.closed {l r : List Char} (h : Plain after (l ++ '%' :: r)) (outside : Text.paired l) :
    ¬Opens ('%' :: (r ++ after)) := by
  fun_induction Text.paired l with
  | case1 =>
    cases h with
    | percent closed _ => exact closed
    | char _ notPercent _ => exact absurd rfl notPercent
  | case2 => cases outside
  | case3 escaped cs ih =>
    cases h with
    | pair plain => exact ih plain outside
    | char notBackslash _ _ => exact absurd rfl notBackslash
  | case4 c cs notBackslash ih =>
    rw [List.cons_append] at h
    generalize cs ++ '%' :: r = more at h ih
    cases h with
    | pair _ | dangling _ => exact absurd rfl notBackslash
    | percent _ plain => exact ih plain outside
    | char _ _ plain => exact ih plain outside

theorem Segmented.text_inv (h : Segmented after (.text cs :: ss)) :
    cs ≠ [] ∧ Plain (ss.flatMap Segment.raw) cs ∧ startsWithText ss = false := by
  cases h with
  | text some plain apart rest => exact ⟨some, rest.raw ▸ plain, apart⟩

theorem formed_of_segment {m : Marker} (h : .marker m ∈ segments cs) : m.Formed := by
  obtain ⟨before, behind, same⟩ := List.append_of_mem h
  have whole := segments_segmented cs
  rw [same] at whole
  have rest := whole.behind
  generalize (Segment.marker m :: behind).flatMap Segment.raw = format at rest
  cases rest with
  | marker formed _ => exact formed

end

/-- **Formats are cut without loss and by the grammar of markers.** The segments put
together are the format. No text is empty and no two texts stand side by side. A marker
is a percent sign, its flags and width, a point with the digits of its precision or
none, length modifiers and its letter; a precision beyond a 64-bit word counts as 0. A
percent sign in a text is the second character of a backslash pair, or neither a percent
escape nor a marker starts at it; and no segment starts inside of a pair. -/
theorem segments_exact (format : String) :
    (segments format.toList).flatMap Segment.raw = format.toList ∧
      (∀ cs, .text cs ∈ segments format.toList → cs ≠ []) ∧
      (∀ before cs ds after, segments format.toList ≠ before ++ .text cs :: .text ds :: after) ∧
      (∀ m, .marker m ∈ segments format.toList → m.Formed ∧
        m.raw = '%' :: m.flags ++ m.digits.elim [] ('.' :: ·) ++ m.modifiers ++ [m.letter] ∧
        m.precision = m.digits.map fun ds =>
          if Nat.ofDigitChars 10 ds 0 < UInt64.size then Nat.ofDigitChars 10 ds 0 else 0) ∧
      (∀ before l r after, segments format.toList = before ++ .text (l ++ '%' :: r) :: after →
        Text.paired (before.flatMap Segment.raw ++ l) = false ∨
          ¬Opens ('%' :: (r ++ after.flatMap Segment.raw))) ∧
      ∀ before s after, segments format.toList = before ++ s :: after →
        Text.paired (before.flatMap Segment.raw) := by
  have whole := segments_segmented format.toList
  refine ⟨segments_raw _, ?_, ?_, ?_, ?_, ?_⟩
  · intro cs member
    obtain ⟨before, after, same⟩ := List.append_of_mem member
    rw [same] at whole
    exact whole.behind.text_inv.1
  · intro before cs ds after same
    rw [same] at whole
    cases whole.behind.text_inv.2.2
  · intro m member
    have formed := formed_of_segment member
    refine ⟨formed, rfl, ?_⟩
    cases hd : m.digits with
    | none => simp [Marker.precision, hd]
    | some ds => simp [Marker.precision, hd, Text.readWord_eq (formed.digits ds hd)]
  · intro before l r after same
    rw [same] at whole
    rw [Text.paired_append whole.paired_before]
    cases outside : Text.paired l with
    | false => exact .inl rfl
    | true => exact .inr (whole.behind.text_inv.2.1.closed outside)
  · intro before s after same
    rw [same] at whole
    exact whole.paired_before

/-- The marker `%08.3ld`. -/
def paddedLong : Marker := ⟨['0', '8'], some ['3'], ['l'], 'd'⟩

theorem segments_exact_mixed :
    segments "\\%d%%%08.3ld% 5".toList =
        [.text ['\\', '%', 'd'], .percent, .marker paddedLong, .text ['%', ' ', '5']] ∧
      paddedLong.Formed ∧ paddedLong.precision = some 3 ∧ ¬Opens ['%', ' ', '5'] := by
  have cut : segments "\\%d%%%08.3ld% 5".toList =
      [.text ['\\', '%', 'd'], .percent, .marker paddedLong, .text ['%', ' ', '5']] := by decide +kernel
  obtain ⟨-, -, -, markers, percents, -⟩ := segments_exact "\\%d%%%08.3ld% 5"
  rw [cut] at markers percents
  have outside : ¬Text.paired ([.text ['\\', '%', 'd'], .percent, .marker paddedLong].flatMap Segment.raw ++ []) =
      false := by decide
  refine ⟨cut, (markers paddedLong (by simp)).1, by decide, ?_⟩
  exact (percents [_, _, _] [] [' ', '5'] [] rfl).resolve_left outside

end Format
end MiniC
