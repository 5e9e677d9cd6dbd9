/-
# Rewriting the markers of a format keeps its template

The formatter of the typed language has no length modifiers, one letter for all
integers and no upper-case `F`. The markers of a format are rewritten for it one by one
(`Java.normalMarker`), and the text between them stays. That the rewritten format is cut
at the same places is not a matter of the markers alone: a percent sign in a text is no
marker because of what stands behind it, and that has changed.

What stands behind a text is the end of the format or a percent sign, before and after.
No marker reaches over a percent sign, so nothing starts in a text that did not start
there before (`Format.Opens.replace`), the rewritten segments are segmented by the rules
(`Java.normal_segmented`), and there is no other segmentation.

Key definitions: `Java.normalMarker`, `Java.normal`, `Java.Keeps`.
Key theorems: `Format.Plain.replace`, `Java.segments_format`, `Java.format_keeps_template`.
-/
import MiniC.Emit.Java
import MiniC.Proofs.Format.Segmentation

namespace MiniC

/-! ### Another format behind a text -/

namespace Format

variable {cs after after' : List Char}

/-- Both formats are empty, or both start with a percent sign. -/
def StartAlike (after after' : List Char) : Prop :=
  after = [] ∧ after' = [] ∨ ∃ more more', after = '%' :: more ∧ after' = '%' :: more'

theorem StartAlike.symm (h : StartAlike after after') : StartAlike after' after := by
  rcases h with ⟨rfl, rfl⟩ | ⟨more, more', rfl, rfl⟩
  · exact .inl ⟨rfl, rfl⟩
  · exact .inr ⟨more', more, rfl, rfl⟩

/-- A list that misses `d` and starts `cs ++ d :: more` starts `cs`. -/
theorem prefix_of_not_mem {α : Type} {body cs more : List α} {d : α} (h : body <+: cs ++ d :: more)
    (free : d ∉ body) : body <+: cs := by
  obtain ⟨rest, same⟩ := h
  rcases List.append_eq_append_iff.mp same with ⟨middle, rfl, -⟩ | ⟨middle, rfl, split⟩
  · exact List.prefix_append body middle
  · cases middle with
    | nil => rw [List.append_nil]
    | cons e middle =>
      obtain ⟨rfl, -⟩ := List.cons.inj split
      exact absurd (by simp) free

theorem Opens.replace (h : Opens ('%' :: (cs ++ after))) (alike : StartAlike after after') :
    Opens ('%' :: (cs ++ after')) := by
  rcases alike with ⟨rfl, rfl⟩ | ⟨more, more', rfl, rfl⟩
  · exact h
  rcases h with escape | ⟨m, formed, marker⟩
  · left
    cases cs with
    | nil => exact ⟨more', rfl⟩
    | cons d cs =>
      obtain ⟨-, second⟩ := List.cons_prefix_cons.mp escape
      obtain ⟨rfl, -⟩ := List.cons_prefix_cons.mp second
      exact ⟨cs ++ '%' :: more', rfl⟩
  · rw [Marker.raw_eq] at marker
    obtain ⟨-, body⟩ := List.cons_prefix_cons.mp marker
    have inside : m.body <+: cs := prefix_of_not_mem body fun member => (formed.body_apart '%' member).1 rfl
    refine .inr ⟨m, formed, ?_⟩
    rw [Marker.raw_eq]
    exact List.cons_prefix_cons.mpr ⟨rfl, inside.trans (List.prefix_append cs _)⟩

theorem Plain.replace (h : Plain after cs) (alike : StartAlike after after') : Plain after' cs := by
  induction h with
  | nil => exact .nil
  | pair _ ih => exact .pair ih
  | dangling atEnd =>
    rcases alike with ⟨-, atEnd'⟩ | ⟨more, _, starts, -⟩
    · exact .dangling atEnd'
    · rw [atEnd] at starts
      cases starts
  | percent closed _ ih => exact .percent (fun opens => closed (opens.replace alike.symm)) ih
  | char notBackslash notPercent _ ih => exact .char notBackslash notPercent ih

end Format

/-! ### Markers -/

theorem Text.readWord_lt (digits : List Char) : Text.readWord digits < UInt64.size := by
  unfold Text.readWord
  split
  · split
    · assumption
    · decide
  · decide

namespace Java

open Format

/-- The marker that a marker is rewritten to. -/
def normalMarker (m : Marker) : Marker :=
  ⟨m.flags, m.precision.map fun p => (toString p).toList, [], markerLetter m⟩

/-- What the rewriting makes of a segment. -/
def normal : Segment → Segment
  | .marker m => .marker (normalMarker m)
  | s => s

theorem marker_toList (m : Marker) : (marker m).toList = (normalMarker m).raw := by
  cases hp : m.precision <;> simp [marker, Marker.raw, normalMarker, hp]

theorem format_toList (text : String) :
    (format text).toList = ((segments text.toList).map normal).flatMap Segment.raw := by
  rw [format, String.toList_join, List.flatMap_map, List.flatMap_map]
  congr 1
  funext s
  cases s with
  | text chars => exact String.toList_ofList
  | percent => rfl
  | marker m => exact marker_toList m

/-- The letter of a rewritten marker, by what the marker takes. -/
def NormalLetter (letter : Char) : Option Conversion → Char → Prop
  | some .integer, c => c = 'd'
  | some .float, c => c ∈ ['f', 'e', 'E', 'g', 'G']
  | some .string, c => c = 's'
  | some .char, c => c = 'c'
  | none, c => c = letter

/-- The second segment is the first one, rewritten. -/
def Keeps : Segment → Segment → Prop
  | .text cs, .text ds => ds = cs
  | .percent, .percent => True
  | .marker m, .marker n => n.flags = m.flags ∧ n.precision = m.precision ∧ n.conversion? = m.conversion? ∧
      n.modifiers = [] ∧ NormalLetter m.letter m.conversion? n.letter
  | _, _ => False

theorem ofLetter?_float {letter : Char} (h : Conversion.ofLetter? letter = some .float) :
    letter ∈ ['f', 'F', 'e', 'E', 'g', 'G'] := by
  by_contra other
  rw [Conversion.ofLetter?, if_neg other] at h
  split at h
  · cases h
  · split at h
    · cases h
    · split at h <;> cases h

theorem markerLetter_float {m : Marker} (h : m.conversion? = some .float) :
    markerLetter m = if m.letter = 'F' then 'f' else m.letter := by
  rw [markerLetter, h]

theorem markerLetter_normal (m : Marker) : NormalLetter m.letter m.conversion? (markerLetter m) := by
  cases hc : m.conversion? with
  | none => rw [markerLetter, hc]; rfl
  | some conversion =>
    cases conversion with
    | integer | string | char => rw [markerLetter, hc]; rfl
    | float =>
      have letter := ofLetter?_float hc
      rw [markerLetter_float hc]
      show (if m.letter = 'F' then 'f' else m.letter) ∈ ['f', 'e', 'E', 'g', 'G']
      by_cases upper : m.letter = 'F'
      · rw [if_pos upper]
        decide
      · rw [if_neg upper]
        simpa [upper] using letter

/-- A letter that is right for what the marker takes stands for the same, and is a
letter that a marker can have. -/
theorem NormalLetter.sound {letter c : Char} (h : NormalLetter letter (Conversion.ofLetter? letter) c)
    (alpha : letter.isAlpha) (noModifier : Marker.isLengthModifier letter = false) :
    Conversion.ofLetter? c = Conversion.ofLetter? letter ∧ c.isAlpha ∧ Marker.isLengthModifier c = false := by
  cases hc : Conversion.ofLetter? letter with
  | none =>
    rw [hc] at h
    obtain rfl : c = letter := h
    exact ⟨hc, alpha, noModifier⟩
  | some conversion =>
    rw [hc] at h
    cases conversion with
    | integer | string | char =>
      cases h
      decide
    | float =>
      have all : ['f', 'e', 'E', 'g', 'G'].all fun c => Conversion.ofLetter? c = some .float &&
          c.isAlpha && !Marker.isLengthModifier c := by decide
      simpa [and_assoc] using List.all_eq_true.mp all c h

theorem normalMarker_formed {m : Marker} (h : m.Formed) : (normalMarker m).Formed where
  flags := h.flags
  digits := by
    intro ds hds c hc
    obtain ⟨p, -, rfl⟩ := Option.map_eq_some_iff.mp hds
    exact Text.isDigit_of_mem_toString hc
  modifiers := by simp [normalMarker]
  alpha := ((markerLetter_normal m).sound h.alpha h.noModifier).2.1
  noModifier := ((markerLetter_normal m).sound h.alpha h.noModifier).2.2

theorem normalMarker_precision (m : Marker) : (normalMarker m).precision = m.precision := by
  cases hd : m.digits with
  | none => simp [Marker.precision, normalMarker, hd]
  | some ds =>
    rw [Marker.precision, normalMarker, Marker.precision, hd]
    exact congrArg some (Text.readWord_toString (Text.readWord_lt ds))

theorem normalMarker_conversion? {m : Marker} (h : m.Formed) : (normalMarker m).conversion? = m.conversion? :=
  ((markerLetter_normal m).sound h.alpha h.noModifier).1

/-- Rewriting a rewritten marker changes nothing. -/
theorem normalMarker_normalMarker {m : Marker} (h : m.Formed) : normalMarker (normalMarker m) = normalMarker m := by
  have letter : markerLetter (normalMarker m) = markerLetter m := by
    have again := markerLetter_normal (normalMarker m)
    have first := markerLetter_normal m
    rw [normalMarker_conversion? h] at again
    cases hc : m.conversion? with
    | none =>
      rw [hc] at again
      exact again
    | some conversion =>
      rw [hc] at again first
      cases conversion with
      | integer | string | char => exact again.trans first.symm
      | float =>
        have lower : markerLetter m ≠ 'F' := by
          intro upper
          rw [upper] at first
          have member : 'F' ∈ ['f', 'e', 'E', 'g', 'G'] := first
          exact absurd member (by decide)
        rw [markerLetter_float (by rw [normalMarker_conversion? h, hc])]
        exact if_neg lower
  have precision := normalMarker_precision m
  rw [normalMarker, letter, precision]
  rfl

/-! ### The rewritten format -/

theorem normal_startsWithText (ss : List Segment) : startsWithText (ss.map normal) = startsWithText ss := by
  cases ss with
  | nil => rfl
  | cons s ss => cases s <;> rfl

/-- Behind a text stands the end of the format or a percent sign, and so it does in the
rewritten format. -/
theorem startAlike_normal {ss : List Segment} (h : startsWithText ss = false) :
    StartAlike (ss.flatMap Segment.raw) ((ss.map normal).flatMap Segment.raw) := by
  cases ss with
  | nil => exact .inl ⟨rfl, rfl⟩
  | cons s ss =>
    right
    cases s with
    | text cs => cases h
    | percent => exact ⟨_, _, rfl, rfl⟩
    | marker m =>
      refine ⟨m.body ++ ss.flatMap Segment.raw,
        (normalMarker m).body ++ (ss.map normal).flatMap Segment.raw, ?_, ?_⟩
      · rw [List.flatMap_cons, Segment.raw, Marker.raw_eq, List.cons_append]
      · rw [List.map_cons, List.flatMap_cons, normal, Segment.raw, Marker.raw_eq, List.cons_append]

/-- The rewritten segments keep to the rules of formats. -/
theorem normal_segmented {format : List Char} {ss : List Segment} (h : Segmented format ss) :
    Segmented ((ss.map normal).flatMap Segment.raw) (ss.map normal) := by
  induction h with
  | nil => exact .nil
  | @text cs after ss some plain apart rest ih =>
    rw [← rest.raw] at plain
    exact .text some (plain.replace (startAlike_normal apart)) (by rwa [normal_startsWithText]) ih
  | percent _ ih => exact .percent ih
  | marker formed _ ih => exact .marker (normalMarker_formed formed) ih

/-- **The rewritten format has the rewritten segments.** -/
theorem segments_format (text : String) : segments (format text).toList = (segments text.toList).map normal := by
  have cut := normal_segmented (segments_segmented text.toList)
  rw [← format_toList] at cut
  exact (segmented_iff.mp cut).symm

theorem normal_keeps {text : List Char} {s : Segment} (member : s ∈ segments text) : Keeps s (normal s) := by
  cases s with
  | text cs => rfl
  | percent => trivial
  | marker m =>
    have formed := formed_of_segment member
    exact ⟨rfl, normalMarker_precision m, normalMarker_conversion? formed, rfl, markerLetter_normal m⟩

/-- **Rewriting the markers keeps the template.** The rewritten format has the same
texts and percent escapes at the same places, and in the place of each marker one with
the same flags, precision and conversion, without length modifiers and with the letter
that the formatter has. So it takes the same values, and rewriting it again changes
nothing. -/
theorem format_keeps_template (text : String) :
    List.Forall₂ Keeps (segments text.toList) (segments (format text).toList) ∧
      conversions (format text) = conversions text ∧ format (format text) = format text := by
  have cut := segments_format text
  refine ⟨?_, ?_, ?_⟩
  · rw [cut, List.forall₂_map_right_iff, List.forall₂_same]
    exact fun s member => normal_keeps member
  · rw [conversions, conversions, cut, List.filterMap_map]
    refine List.filterMap_congr fun s member => ?_
    cases s with
    | text cs => rfl
    | percent => rfl
    | marker m =>
      show some (normalMarker m).conversion = some m.conversion
      rw [Marker.conversion, normalMarker_conversion? (formed_of_segment member), Marker.conversion]
  · apply String.toList_inj.mp
    rw [format_toList, cut, format_toList, List.map_map]
    congr 1
    refine List.map_congr_left fun s member => ?_
    cases s with
    | text cs => rfl
    | percent => rfl
    | marker m => exact congrArg Segment.marker (normalMarker_normalMarker (formed_of_segment member))

end Java
end MiniC
