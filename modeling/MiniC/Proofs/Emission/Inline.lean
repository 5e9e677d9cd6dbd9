/-
# Texts that stand on one row

The layout of generated code is read off its rows: how far a row is indented, whether
it is a comment, how it ends. A line of code is one row if its text holds no newline,
its indentation is that of the line if the text starts with a visible character, and
it is told apart from a header by its last character. A text with these properties
may stand in a line of its own (`Inline`).

Names and numbers are such texts, strings are if they hold no newline, and so are all
expressions over such words, in every spelling (`render_inline`). Formats are cut into
parts and put together again without a newline coming in (`segments_raw`).

Key definitions: `OneRow`, `Inline`, `Vocabulary.inline`, `Segment.raw`.
Key theorems: `render_inline`, `Format.segments_raw`, `oneRow_range`.
-/
import MiniC.Emit.Arguments
import MiniC.Emit.Counting
import MiniC.Format
import MiniC.Proofs.Provenance
import MiniC.Proofs.Rendering

namespace MiniC

/-- The text holds no newline. -/
def OneRow (text : String) : Prop := '\n' ∉ text.toList

instance (text : String) : Decidable (OneRow text) := inferInstanceAs (Decidable (_ ∉ _))

theorem oneRow_append {a b : String} : OneRow (a ++ b) ↔ OneRow a ∧ OneRow b := by
  simp only [OneRow, String.toList_append, List.mem_append, not_or]

theorem OneRow.grouped {text : String} (h : OneRow text) (parenthesized : Bool) :
    OneRow (grouped parenthesized text) := by
  cases parenthesized with
  | false => exact h
  | true => exact oneRow_append.mpr ⟨oneRow_append.mpr ⟨by decide, h⟩, by decide⟩

/-- Texts with commas between them have every property that joining two of them so keeps. -/
theorem intercalate_of_join {P : String → Prop} (join : ∀ a b, P a → P b → P (a ++ ", " ++ b))
    {texts : List String} (none : texts = [] → P "") (h : ∀ text ∈ texts, P text) :
    P (String.intercalate ", " texts) := by
  induction texts with
  | nil => exact none rfl
  | cons text texts ih =>
    obtain ⟨first, later⟩ := List.forall_mem_cons.mp h
    cases texts with
    | nil => rwa [String.intercalate_singleton]
    | cons next more =>
      rw [String.intercalate_cons_cons]
      exact join _ _ first (ih (by simp) later)

theorem OneRow.join {a b : String} (ha : OneRow a) (hb : OneRow b) : OneRow (a ++ ", " ++ b) :=
  oneRow_append.mpr ⟨oneRow_append.mpr ⟨ha, by decide⟩, hb⟩

theorem oneRow_intercalate {texts : List String} (h : ∀ text ∈ texts, OneRow text) :
    OneRow (String.intercalate ", " texts) :=
  intercalate_of_join (fun _ _ => OneRow.join) (fun _ => by decide) h

/-- The character may start a line that is no comment. -/
def visible (c : Char) : Bool := !Text.isBlank c && c ≠ '#'

/-- The text may stand in a line of its own that is neither a comment nor a header. -/
structure Inline (text : String) : Prop where
  oneRow : OneRow text
  starts : text.toList.head?.any visible
  ends : text.toList.getLast?.any (· ≠ ':')

section

variable {p : Char → Bool}

theorem starts_append {text : String} (h : text.toList.head?.any p) (more : String) :
    (text ++ more).toList.head?.any p := by
  rw [String.toList_append, List.head?_append]
  cases hc : text.toList.head? with
  | none => rw [hc] at h; cases h
  | some c => rwa [hc] at h

theorem ends_append {text : String} (h : text.toList.getLast?.any p) (before : String) :
    (before ++ text).toList.getLast?.any p := by
  rw [String.toList_append, List.getLast?_append]
  cases hc : text.toList.getLast? with
  | none => rw [hc] at h; cases h
  | some c => rwa [hc] at h

end

namespace Inline

variable {a b text : String}

theorem noColon (h : Inline text) : text.toList.getLast? ≠ some ':' := by
  intro colon
  have ends := h.ends
  rw [colon] at ends
  cases ends

theorem before (h : Inline text) {lead : String} (oneRow : OneRow lead) (starts : lead.toList.head?.any visible) :
    Inline (lead ++ text) :=
  ⟨oneRow_append.mpr ⟨oneRow, h.oneRow⟩, starts_append starts text, ends_append h.ends lead⟩

theorem behind (h : Inline text) {more : String} (oneRow : OneRow more)
    (ends : more.toList.getLast?.any (· ≠ ':')) : Inline (text ++ more) :=
  ⟨oneRow_append.mpr ⟨h.oneRow, oneRow⟩, starts_append h.starts more, ends_append ends text⟩

theorem join (ha : Inline a) {mid : String} (oneRow : OneRow mid) (hb : Inline b) : Inline (a ++ mid ++ b) :=
  ⟨oneRow_append.mpr ⟨oneRow_append.mpr ⟨ha.oneRow, oneRow⟩, hb.oneRow⟩,
    starts_append (starts_append ha.starts mid) b, ends_append hb.ends _⟩

theorem intercalate {texts : List String} (some : texts ≠ []) (h : ∀ text ∈ texts, Inline text) :
    Inline (String.intercalate ", " texts) :=
  intercalate_of_join (fun _ _ ha hb => ha.join (by decide) hb) (fun none => absurd none some) h

theorem of_chars {c : Char} {cs : List Char} (chars : text.toList = c :: cs) (starts : visible c)
    (all : ∀ d ∈ c :: cs, d ≠ '\n' ∧ d ≠ ':') : Inline text where
  oneRow member := (all '\n' (chars ▸ member)).1 rfl
  starts := by rw [chars]; exact starts
  ends := by
    rw [chars, List.getLast?_eq_some_getLast (List.cons_ne_nil c cs)]
    simpa using (all _ (List.getLast_mem _)).2

theorem grouped (h : Inline text) (parenthesized : Bool) : Inline (grouped parenthesized text) := by
  cases parenthesized with
  | false => exact h
  | true => exact (h.before (by decide) rfl).behind (by decide) rfl

end Inline

theorem visible_of_range {c : Char} (low : 36 ≤ c.toNat) (high : c.toNat ≤ 126) : visible c := by
  have notBlank : Text.isBlank c = false := by simpa using not_isBlank (by omega) high
  have notHash : c ≠ '#' := by
    rintro rfl
    exact absurd low (by decide)
  simp [visible, notBlank, notHash]

theorem IsName.inline {x : String} (h : IsName x) : Inline x := by
  obtain ⟨c, cs, chars, letter, more⟩ := h
  have range := isLetter_range letter
  have word : Piece.isWordChar c := by rw [Piece.isWordChar_eq, letter, Bool.true_or]
  refine .of_chars chars (visible_of_range (by omega) (by omega)) fun d hd => ?_
  have wordChar : Piece.isWordChar d := by
    rcases List.mem_cons.mp hd with rfl | hd
    · exact word
    · exact more d hd
  constructor <;> (rintro rfl; exact absurd wordChar (by decide))

theorem IsNumeral.inline {text : String} (h : IsNumeral text) : Inline text := by
  obtain ⟨c, cs, chars, digit, more⟩ := h
  have range := isDigit_range digit
  refine .of_chars chars (visible_of_range (by omega) (by omega)) fun d hd => ?_
  rcases List.mem_cons.mp hd with rfl | hd
  · constructor <;> (rintro rfl; exact absurd digit (by decide))
  · rcases more d hd with digit | rfl
    · constructor <;> (rintro rfl; exact absurd digit (by decide))
    · decide

/-! ### Expressions -/

/-- Words that stand on one row. -/
def Vocabulary.inline : Vocabulary where
  name := IsName
  number text _ := IsNumeral text
  string := OneRow
  mark _ := True

theorem Node.BuiltFrom.stringText {v : Vocabulary} {e : Node} (h : e.BuiltFrom v) {text : String}
    (found : e.stringText? = some text) : v.string text := by
  cases h with
  | string _ admitted =>
    obtain rfl := Option.some.inj found
    exact admitted
  | @number _ kind _ notString _ =>
    cases kind with
    | string => exact absurd rfl notString
    | int | float => cases found
  | _ => cases found

/-- Escaping adds nothing but backslashes. -/
theorem mem_escape {delimiter c : Char} {cs : List Char} (h : c ∈ Text.escape delimiter cs) : c ∈ cs ∨ c = '\\' := by
  fun_induction Text.escape delimiter cs with
  | case1 => exact .inl h
  | case2 => exact .inl h
  | case3 escaped cs ih =>
    rcases List.mem_cons.mp h with rfl | h
    · exact .inr rfl
    rcases List.mem_cons.mp h with rfl | h
    · exact .inl (by simp)
    · exact (ih h).imp_left fun member => by simp [member]
  | case4 cs _ ih =>
    rcases List.mem_cons.mp h with rfl | h
    · exact .inr rfl
    rcases List.mem_cons.mp h with rfl | h
    · exact .inl List.mem_cons_self
    · exact (ih h).imp_left (List.mem_cons_of_mem _)
  | case5 d cs _ _ ih =>
    rcases List.mem_cons.mp h with rfl | h
    · exact .inl List.mem_cons_self
    · exact (ih h).imp_left (List.mem_cons_of_mem _)

theorem escape_oneRow {delimiter : Char} {cs : List Char} (h : '\n' ∉ cs) : '\n' ∉ Text.escape delimiter cs := by
  intro member
  rcases mem_escape member with member | backslash
  · exact h member
  · exact absurd backslash (by decide)

theorem quote_inline (s : Spelling) {raw : String} (h : OneRow raw) : Inline (s.quote raw) := by
  have delimiter : '\n' ≠ s.delimiter ∧ s.delimiter ≠ ':' ∧ visible s.delimiter := by cases s <;> decide
  refine ⟨?_, ?_, ?_⟩
  · rw [OneRow, quote_toList, List.mem_append, List.mem_cons, List.mem_singleton, not_or, not_or]
    exact ⟨⟨delimiter.1, escape_oneRow h⟩, delimiter.1⟩
  · rw [quote_toList]
    exact delimiter.2.2
  · rw [quote_toList, List.getLast?_append]
    simpa using delimiter.2.1

theorem symbol_oneRow (s : Spelling) (o : BinOp) : OneRow (s.symbol o) := by
  cases s <;> cases o <;> decide

theorem renderAll_eq_map (s : Spelling) (args : List Node) : Node.renderAll s args = args.map (Node.render s) := by
  induction args with
  | nil => rfl
  | cons a args ih => rw [Node.renderAll, ih, List.map_cons]

/-- **An expression over such words stands on one row**, in every spelling. -/
theorem render_inline (s : Spelling) {e : Node} (he : e.BuiltFrom .inline) : Inline (e.render s) := by
  induction he with
  | @number text kind l notString h =>
    cases kind with
    | string => exact absurd rfl notString
    | int | float => exact IsNumeral.inline h
  | string l h => exact quote_inline s h
  | identifier l h => exact IsName.inline h
  | @call x args l h _ ih =>
    rw [Node.render, renderAll_eq_map]
    have list : OneRow (String.intercalate ", " (args.map (Node.render s))) :=
      oneRow_intercalate (List.forall_mem_map.mpr fun a ha => (ih a ha).oneRow)
    have name : Inline x := IsName.inline h
    refine ⟨?_, starts_append (starts_append (starts_append name.starts _) _) _, ends_append rfl _⟩
    simp only [oneRow_append]
    exact ⟨⟨⟨name.oneRow, by decide⟩, list⟩, by decide⟩
  | @binary left right o l _ _ ihLeft ihRight =>
    rw [Node.render]
    have left := ihLeft.grouped (s.groups o left false)
    refine (ihRight.grouped _).before ?_ (starts_append (starts_append (starts_append left.starts _) _) _)
    simp only [oneRow_append]
    exact ⟨⟨⟨left.oneRow, by decide⟩, symbol_oneRow s o⟩, by decide⟩
  | @unary o operand l mark _ ih =>
    cases o with
    | neg =>
      rw [Node.render]
      exact (ih.grouped _).before (by decide) rfl
    | not =>
      rw [Node.render]
      exact (ih.grouped _).before (by cases s <;> decide) (by cases s <;> rfl)
    | addressOf => rwa [Node.render]

theorem assignSymbol_oneRow (o : AssignOp) : OneRow o.symbol := by
  cases o <;> decide

/-- The words of a source text whose strings hold no newline. -/
theorem admits_inline {source : String}
    (oneRow : ∀ t ∈ (tokenize source).tokens, t.kind = .string → '\n' ∉ t.spelling.toList) :
    ∀ t ∈ (tokenize source).tokens, Vocabulary.inline.Admits t.lexeme := by
  intro t ht
  rw [Token.lexeme]
  cases kind : t.kind with
  | identifier => exact tokenize_name ht kind
  | number => exact tokenize_numeral ht kind
  | string => exact oneRow t ht kind
  | _ => trivial

/-! ### Arguments -/

theorem mem_of_withConversions {α : Type} {a : α} {c : Option Conversion} {items : List α}
    {conversions : List Conversion} (h : (a, c) ∈ withConversions items conversions) : a ∈ items := by
  fun_induction withConversions items conversions with
  | case1 => cases h
  | case2 b items ih | case3 b items _ _ ih =>
    rcases List.mem_cons.mp h with same | h
    · exact List.mem_cons.mpr (.inl (Prod.mk.inj same).1)
    · exact List.mem_cons_of_mem _ (ih h)

theorem mem_of_scanTargets {args : List Node} {target : Node} {conversion : Conversion}
    (h : (target, conversion) ∈ scanTargets args) : target ∈ args := by
  obtain ⟨⟨n, c⟩, paired, same⟩ := List.mem_map.mp h
  obtain ⟨rfl, -⟩ := Prod.mk.inj same
  have member := mem_of_withConversions paired
  cases args with
  | nil => exact member
  | cons first rest =>
    dsimp only at member
    split at member
    · exact List.mem_cons_of_mem _ member
    · exact member

/-! ### Formats -/

/-- The segment as it was written. -/
def Segment.raw : Segment → List Char
  | .text chars => chars
  | .percent => ['%', '%']
  | .marker m => m.raw

namespace Format

theorem prependText_raw (chars : List Char) (segments : List Segment) :
    (prependText chars segments).flatMap Segment.raw = chars ++ segments.flatMap Segment.raw := by
  unfold prependText
  split
  · rw [List.flatMap_cons, List.flatMap_cons, Segment.raw, Segment.raw, List.append_assoc]
  · rfl

/-- The segments of a format put together again are the format. -/
theorem segments_raw (cs : List Char) : (segments cs).flatMap Segment.raw = cs := by
  fun_induction segments cs with
  | case1 => rfl
  | case2 => rfl
  | case3 escaped cs ih => rw [prependText_raw, ih]; rfl
  | case4 cs percent _ ih =>
    obtain ⟨rest, rfl⟩ := List.head?_eq_some_iff.mp percent
    rw [List.flatMap_cons, ih]
    rfl
  | case5 cs _ m rest found _ ih => rw [List.flatMap_cons, ih]; exact Marker.raw_append_of_read? found
  | case6 cs _ _ _ ih => rw [prependText_raw, ih]; rfl
  | case7 c cs _ _ ih => rw [prependText_raw, ih]; rfl

theorem mem_of_segment {cs : List Char} {segment : Segment} (h : segment ∈ segments cs) {c : Char}
    (member : c ∈ segment.raw) : c ∈ cs := by
  rw [← segments_raw cs]
  exact List.mem_flatMap.mpr ⟨segment, h, member⟩

theorem plainText_oneRow {format : String} (h : OneRow format) : OneRow (plainText format) := by
  rw [OneRow, plainText, String.toList_join, List.mem_flatMap]
  rintro ⟨text, member, newline⟩
  obtain ⟨segment, inside, rfl⟩ := List.mem_map.mp member
  have absent : '\n' ∉ segment.raw := fun here => h (mem_of_segment inside here)
  cases segment with
  | text chars => exact absent (by simpa [Segment.raw] using newline)
  | percent => exact absurd newline (by decide)
  | marker m => exact absent (by simpa [Segment.raw] using newline)

end Format

/-! ### Ranges -/

theorem nat_oneRow (n : Nat) : OneRow (toString n) := by
  show '\n' ∉ n.repr.toList
  rw [Nat.toList_repr]
  intro member
  exact absurd (Nat.isDigit_of_mem_toDigits (by decide) (by decide) member) (by decide)

theorem int_oneRow (n : Int) : OneRow (toString n) := by
  cases n with
  | ofNat n => exact nat_oneRow n
  | negSucc n => exact oneRow_append.mpr ⟨by decide, nat_oneRow (n + 1)⟩

namespace CountingLoop

theorem shifted_oneRow {bound : Node} (h : bound.BuiltFrom .inline) (delta : Int) : OneRow (shifted bound delta) := by
  unfold shifted
  split
  · exact int_oneRow _
  · have sign : OneRow (if 0 < delta then " + " else " - ") := by split <;> decide
    simp only [oneRow_append]
    exact ⟨⟨(render_inline .indented h).oneRow.grouped _, sign⟩, nat_oneRow _⟩

theorem start?_words {v : Vocabulary} {n value : Node} {x : String} (h : start? n = some (x, value))
    (made : n.MadeFrom v) : v.name x ∧ value.BuiltFrom v := by
  unfold start? at h
  split at h
  · obtain ⟨rfl, rfl⟩ := Prod.mk.inj (Option.some.inj h)
    cases made with
    | declare _ _ name init => exact ⟨name, init _ rfl⟩
    | expression built => cases built
  · obtain ⟨rfl, rfl⟩ := Prod.mk.inj (Option.some.inj h)
    cases made with
    | assign _ _ name value => exact ⟨name, value _ rfl⟩
    | expression built => cases built
  · cases h

/-- The words of a counting loop are those of its clauses. -/
theorem of?_words {v : Vocabulary} {init test update : Option Node} {loop : CountingLoop}
    (h : of? init test update = some loop) (hinit : ∀ n ∈ init, n.MadeFrom v)
    (htest : ∀ e ∈ test, e.BuiltFrom v) : v.name loop.name ∧ loop.start.BuiltFrom v ∧ loop.bound.BuiltFrom v := by
  simp only [of?, bind, Option.bind_eq_some_iff] at h
  obtain ⟨n, rfl, ⟨x, value⟩, started, e, rfl, h⟩ := h
  obtain ⟨name, start⟩ := start?_words started (hinit n rfl)
  have built := htest e rfl
  split at h
  · split at h
    · simp only [Option.bind_eq_some_iff] at h
      obtain ⟨_, -, step, -, inclusive, -, found⟩ := h
      obtain rfl := Option.some.inj found
      cases built with
      | binary _ _ _ bound => exact ⟨name, start, bound⟩
    · cases h
  · cases h

theorem rangeArguments_oneRow {loop : CountingLoop} (start : loop.start.BuiltFrom .inline)
    (bound : loop.bound.BuiltFrom .inline) : OneRow loop.rangeArguments := by
  have stop : OneRow loop.stop := by
    unfold CountingLoop.stop
    split
    · exact shifted_oneRow bound _
    · exact (render_inline .indented bound).oneRow
  have step : OneRow (if loop.step = 1 then "" else ", " ++ toString loop.step) := by
    split
    · decide
    · exact oneRow_append.mpr ⟨by decide, int_oneRow _⟩
  unfold rangeArguments
  simp only [oneRow_append]
  exact ⟨⟨⟨(render_inline .indented start).oneRow, by decide⟩, stop⟩, step⟩

end CountingLoop

end MiniC
