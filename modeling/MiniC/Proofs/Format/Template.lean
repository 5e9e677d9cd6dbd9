/-
# Templates are read back

A formatted print in the indented language is a template: literal text in which braces
are doubled, with the arguments between single braces. It is read from left to right
(`Template.read?`). A doubled brace stands for itself, any other opening brace starts a
field that the next brace has to close, and a closing brace that is not doubled stands
nowhere else, so fields neither nest nor stay open.

What is written part by part is read back part by part, whatever stands side by side, as
long as no field holds a brace (`Template.read?_written`). And a template is one closed
literal if every part of it is one for itself: the backslashes of each part have their
partners there, so no part takes a character of the next one (`Template.Settles`). The
words of a source text bring in no brace, no quote and no backslash, so only the strings
inside of a field decide whether the literal is closed.

Key definitions: `Template.Part`, `Template.read?`, `Template.parts`, `Template.filled`,
`Template.Settles`, `Template.words`.
Key theorems: `Template.read?_written`, `Template.templateBody_parts`, `Template.render_settles`,
`Template.parts_settle`, `Template.template_decodes`.
-/
import MiniC.Emit.Python
import MiniC.Proofs.Words

namespace MiniC

/-- The marker of a segment that is one. -/
def Segment.marker? : Segment → Option Marker
  | .marker m => some m
  | _ => none

namespace Template

open Text Piece

/-! ### Reading -/

/-- What a template holds: characters of its text, and fields. -/
inductive Part where
  | char (c : Char)
  | field (text : List Char)
  deriving DecidableEq

def isBrace (c : Char) : Bool := c = '\x7b' || c = '\x7d'

/-- The parts of the text between the quotes of a template. -/
def read? : List Char → Option (List Part)
  | [] => some []
  | c :: cs =>
    if isBrace c = false then (read? cs).map (.char c :: ·)
    else if cs.head? = some c then (read? cs.tail).map (.char c :: ·)
    else if c = '\x7b' ∧ (cs.dropWhile (!isBrace ·)).head? = some '\x7d' then
      (read? (cs.dropWhile (!isBrace ·)).tail).map (.field (cs.takeWhile (!isBrace ·)) :: ·)
    else none
termination_by cs => cs.length
decreasing_by
  · simp
  · simp only [List.length_tail, List.length_cons]
    omega
  · have shorter := (List.dropWhile_sublist (!isBrace ·) (l := cs)).length_le
    simp only [List.length_tail, List.length_cons]
    omega

/-- The part as it is written. -/
def Part.written : Part → List Char
  | .char c => if isBrace c then [c, c] else [c]
  | .field text => '\x7b' :: text ++ ['\x7d']

theorem read?_char {c : Char} (plain : isBrace c = false) (cs : List Char) :
    read? (c :: cs) = (read? cs).map (.char c :: ·) := by
  rw [read?, if_pos plain]

theorem read?_doubled {c : Char} (brace : isBrace c) (cs : List Char) :
    read? (c :: c :: cs) = (read? cs).map (.char c :: ·) := by
  rw [read?, if_neg (by simp [brace]), if_pos List.head?_cons, List.tail_cons]

theorem read?_field {text : List Char} (plain : ∀ c ∈ text, isBrace c = false) (cs : List Char) :
    read? ('\x7b' :: (text ++ '\x7d' :: cs)) = (read? cs).map (.field text :: ·) := by
  have notBrace : ∀ c ∈ text, (!isBrace c) = true := fun c hc => by simp [plain c hc]
  have stop : ∀ c ∈ ('\x7d' :: cs).head?, (!isBrace c) = false := by
    rintro c ⟨⟩
    rfl
  obtain ⟨taken, left⟩ := takeWhile_append_stop notBrace stop
  have single : (text ++ '\x7d' :: cs).head? ≠ some '\x7b' := by
    cases text with
    | nil => simp
    | cons c text =>
      intro first
      obtain rfl : c = '\x7b' := by simpa using first
      exact absurd (plain _ List.mem_cons_self) (by decide)
  rw [read?, if_neg (by decide), if_neg single, if_pos ⟨rfl, by rw [left]; rfl⟩, taken, left, List.tail_cons]

/-- **What is written is read back**, if no field holds a brace. -/
theorem read?_written {ps : List Part} (plain : ∀ text, .field text ∈ ps → ∀ c ∈ text, isBrace c = false) :
    read? (ps.flatMap Part.written) = some ps := by
  induction ps with
  | nil => rw [List.flatMap_nil, read?]
  | cons p ps ih =>
    have later := ih fun text member => plain text (List.mem_cons_of_mem p member)
    rw [List.flatMap_cons]
    cases p with
    | char c =>
      by_cases brace : isBrace c
      · simp [Part.written, brace, read?_doubled brace, later]
      · simp [Part.written, brace, read?_char (Bool.eq_false_iff.mpr brace), later]
    | field text =>
      have inside := plain text List.mem_cons_self
      simp [Part.written, read?_field inside, later]

/-! ### The parts of a formatted print -/

/-- The precision that the field of a marker asks for: only floats have one. -/
def precisionText (m : Marker) : String :=
  if m.conversion? = some .float then
    (m.precision.map fun p => ":." ++ toString p ++ String.ofList [m.letter.toLower]).getD ""
  else ""

/-- The text of a field, the argument in the spelling `s`. -/
def fieldText (s : Spelling) (m : Marker) (arg : Node) : String := arg.render s ++ precisionText m

/-- What a segment puts into the template; `arg?` is the argument for it, if it is a marker and
there is one left. -/
def shown (s : Spelling) (arg? : Option Node) : Segment → List Part
  | .text cs => (escape '"' cs).map .char
  | .percent => [.char '%']
  | .marker m =>
    match arg? with
    | none => m.raw.map .char
    | some arg =>
      match arg.stringText? with
      | some text => (escape '"' text.toList).map .char
      | none => [.field (fieldText s m arg).toList]

/-- The parts of a format with its arguments: each marker takes the argument whose number is
that of the markers before it. -/
def parts (s : Spelling) (segments : List Segment) (args : List Node) : List Part :=
  (segments.mapIdx fun i segment =>
    shown s args[(segments.take i).countP (·.marker?.isSome)]? segment).flatten

/-- The markers with the arguments that stand in their fields. -/
def filled (segments : List Segment) (args : List Node) : List (Marker × Node) :=
  ((segments.filterMap Segment.marker?).zip args).filter fun p => p.2.stringText?.isNone

/-- The arguments that are left behind a segment. -/
def leftBehind (segment : Segment) (args : List Node) : List Node :=
  if segment.marker?.isSome then args.tail else args

theorem parts_cons (s : Spelling) (segment : Segment) (segments : List Segment) (args : List Node) :
    parts s (segment :: segments) args =
      shown s args.head? segment ++ parts s segments (leftBehind segment args) := by
  rw [parts, parts, List.mapIdx_cons, List.flatten_cons, List.take_zero, List.countP_nil, List.head?_eq_getElem?]
  have shifted (i : Nat) : args[((segment :: segments).take (i + 1)).countP (·.marker?.isSome)]? =
      (leftBehind segment args)[(segments.take i).countP (·.marker?.isSome)]? := by
    rw [List.take_succ_cons, List.countP_cons, leftBehind]
    by_cases isMarker : segment.marker?.isSome
    · simp [isMarker]
    · simp [isMarker]
  simp only [shifted]

theorem escapeBraces_eq (cs : List Char) :
    Python.escapeBraces cs = (cs.map Part.char).flatMap Part.written := by
  rw [List.flatMap_map]
  rfl

def floatLetters : List Char := ['f', 'F', 'e', 'E', 'g', 'G']

theorem mem_floatLetters {m : Marker} (float : m.conversion? = some .float) : m.letter ∈ floatLetters := by
  unfold Marker.conversion? Conversion.ofLetter? at float
  split at float
  · cases float
  · split at float
    · next member => exact member
    · split at float
      · cases float
      · split at float <;> cases float

theorem fieldLetter_eq {m : Marker} (float : m.conversion? = some .float) :
    Python.fieldLetter m = String.ofList [m.letter.toLower] := by
  have all : floatLetters.all fun c =>
      (if c = 'e' || c = 'E' then "e" else if c = 'g' || c = 'G' then "g" else "f") = String.ofList [c.toLower] := by
    decide
  exact of_decide_eq_true (List.all_eq_true.mp all m.letter (mem_floatLetters float))

theorem field_written (m : Marker) (arg : Node) :
    (Python.field m arg).toList = (Part.field (fieldText .field m arg).toList).written := by
  unfold Python.field fieldText precisionText Part.written
  by_cases float : m.conversion? = some .float
  · cases precision : m.precision with
    | none => simp [float]
    | some p => simp [float, fieldLetter_eq float]
  · simp [float]

/-! ### Characters that mean nothing in a template -/

/-- The text holds no brace, no double quote and no backslash. -/
def Bare (text : List Char) : Prop := ∀ c ∈ text, isBrace c = false ∧ c ≠ '"' ∧ c ≠ '\\'

instance (text : List Char) : Decidable (Bare text) :=
  decidable_of_iff (text.all fun c => !isBrace c && c != '"' && c != '\\') (by simp [Bare, and_assoc])

theorem bare_append {a b : List Char} : Bare (a ++ b) ↔ Bare a ∧ Bare b := List.forall_mem_append

/-- Letters, digits and underscores are apart from these characters. -/
theorem bare_of_range {c : Char} (h : 48 ≤ c.toNat ∧ c.toNat ≤ 90 ∨ 95 ≤ c.toNat ∧ c.toNat ≤ 122) : Bare [c] := by
  have ne (d : Char) (out : ¬(48 ≤ d.toNat ∧ d.toNat ≤ 90 ∨ 95 ≤ d.toNat ∧ d.toNat ≤ 122)) : c ≠ d := by
    rintro rfl
    exact out h
  refine List.forall_mem_singleton.mpr ⟨?_, ne _ (by decide), ne _ (by decide)⟩
  simp [isBrace, ne '\x7b' (by decide), ne '\x7d' (by decide)]

theorem bare_letter {c : Char} (h : Piece.isLetter c) : Bare [c] := by
  have range := isLetter_range h
  exact bare_of_range (by omega)

theorem bare_digit {c : Char} (h : c.isDigit) : Bare [c] := by
  have range := isDigit_range h
  exact bare_of_range (by omega)

theorem bare_of_chars {text : List Char} (h : ∀ c ∈ text, Bare [c]) : Bare text :=
  fun c hc => h c hc c List.mem_cons_self

theorem bare_name {x : String} (h : IsName x) : Bare x.toList := by
  obtain ⟨c, cs, chars, letter, more⟩ := h
  rw [chars]
  refine bare_of_chars (List.forall_mem_cons.mpr ⟨bare_letter letter, fun d hd => ?_⟩)
  have word := more d hd
  rw [Piece.isWordChar_eq, Bool.or_eq_true] at word
  exact word.elim bare_letter bare_digit

theorem bare_numeral {text : String} (h : IsNumeral text) : Bare text.toList := by
  obtain ⟨c, cs, chars, digit, more⟩ := h
  rw [chars]
  refine bare_of_chars (List.forall_mem_cons.mpr ⟨bare_digit digit, fun d hd => ?_⟩)
  rcases more d hd with digit | rfl
  · exact bare_digit digit
  · decide

theorem bare_marker {m : Marker} (h : m.Formed) : Bare m.raw := by
  rw [Marker.raw_eq]
  refine bare_of_chars (List.forall_mem_cons.mpr ⟨by decide, fun c hc => ?_⟩)
  rcases h.body_class c hc with flag | digit | rfl | alpha
  · have all : ['-', '+', ' ', '#', '0'].all fun c => decide (Bare [c]) := by decide
    exact of_decide_eq_true (List.all_eq_true.mp all c (List.contains_iff_mem.mp flag))
  · exact bare_digit digit
  · decide
  · exact bare_letter (by rw [Piece.isLetter, alpha, Bool.true_or])

theorem bare_precision (m : Marker) : Bare (precisionText m).toList := by
  by_cases float : m.conversion? = some .float
  · have letters : floatLetters.all fun c => decide (Bare [c.toLower]) := by decide
    have letter := of_decide_eq_true (List.all_eq_true.mp letters m.letter (mem_floatLetters float))
    rw [precisionText, if_pos float]
    cases m.precision with
    | none => exact List.forall_mem_nil _
    | some p =>
      have digits : Bare (toString p).toList := bare_of_chars fun c hc => bare_digit (isDigit_of_mem_toString hc)
      simp only [Option.map_some, Option.getD_some, String.toList_append, String.toList_ofList, bare_append]
      exact ⟨⟨by decide, digits⟩, letter⟩
  · rw [precisionText, if_neg float]
    exact List.forall_mem_nil _

/-! ### Closed texts, part by part -/

section

variable {quote c : Char} {a b cs : List Char}

theorem raw_pair : Raw quote ('\\' :: c :: cs) ↔ Raw quote cs := by
  constructor
  · intro h
    cases h with
    | plain _ notBackslash _ => exact absurd rfl notBackslash
    | escaped inner => exact inner
  · exact .escaped

theorem raw_plain (plain : c ≠ '\\') : Raw quote (c :: cs) ↔ c ≠ quote ∧ Raw quote cs := by
  constructor
  · intro h
    cases h with
    | plain notQuote _ inner => exact ⟨notQuote, inner⟩
    | escaped _ => exact absurd rfl plain
  · rintro ⟨notQuote, inner⟩
    exact .plain notQuote plain inner

theorem raw_append (closed : paired a) : Raw quote (a ++ b) ↔ Raw quote a ∧ Raw quote b := by
  fun_induction paired a with
  | case1 => simp [Raw.nil]
  | case2 => cases closed
  | case3 escaped a ih => rw [List.cons_append, List.cons_append, raw_pair, raw_pair, ih closed]
  | case4 c a plain ih => rw [List.cons_append, raw_plain plain, raw_plain plain, ih closed, and_assoc]

theorem raw_of_bare (h : Bare a) : Raw '"' a := by
  induction a with
  | nil => exact .nil
  | cons c a ih =>
    obtain ⟨⟨-, notQuote, notBackslash⟩, later⟩ := List.forall_mem_cons.mp h
    exact .plain notQuote notBackslash (ih later)

theorem raw_escape (ne : quote ≠ '\\') (closed : paired cs) : Raw quote (escape quote cs) := by
  fun_induction paired cs with
  | case1 => exact .nil
  | case2 => cases closed
  | case3 escaped cs ih =>
    rw [escape_pair]
    exact .escaped (ih closed)
  | case4 c cs plain ih =>
    by_cases isQuote : c = quote
    · subst isQuote
      rw [escape_quote _ ne]
      exact .escaped (ih closed)
    · rw [escape_other _ plain isQuote]
      exact .plain isQuote plain (ih closed)

/-- Doubling the braces leaves the pairs together: the second brace stands behind the pair. -/
theorem raw_escapeBraces (h : Raw '"' cs) : Raw '"' (Python.escapeBraces cs) := by
  have doubled {c : Char} {more : List Char} (brace : isBrace c) (h : Raw '"' more) : Raw '"' (c :: more) := by
    refine .plain ?_ ?_ h
    · rintro rfl
      exact absurd brace (by decide)
    · rintro rfl
      exact absurd brace (by decide)
  rw [escapeBraces_eq]
  induction h with
  | nil => exact .nil
  | @plain c cs notQuote plain _ ih =>
    rw [List.map_cons, List.flatMap_cons, Part.written]
    split
    · next brace => exact doubled brace (doubled brace ih)
    · exact .plain notQuote plain ih
  | @escaped c cs _ ih =>
    rw [List.map_cons, List.map_cons, List.flatMap_cons, List.flatMap_cons, Part.written, Part.written,
      if_neg (by decide), List.singleton_append]
    split
    · next brace => exact .escaped (doubled brace ih)
    · exact .escaped ih

end

/-- A condition on texts that is met by a text exactly if all its parts meet it, and that
characters without a meaning always meet. -/
structure Partwise (Q : List Char → Prop) : Prop where
  append {a b : List Char} : paired a → (Q (a ++ b) ↔ Q a ∧ Q b)
  bare {a : List Char} : Bare a → Q a

theorem partwise_raw : Partwise (Raw '"') := ⟨raw_append, raw_of_bare⟩

theorem partwise_bare : Partwise Bare := ⟨fun _ => bare_append, fun h => h⟩

theorem partwise_noQuote : Partwise ('"' ∉ ·) where
  append _ := by rw [List.mem_append, not_or]
  bare h member := (h _ member).2.1 rfl

/-- The backslashes of the text have their partners, and the text meets the condition
exactly if `C` holds. -/
structure Settles (Q : List Char → Prop) (text : List Char) (C : Prop) : Prop where
  paired : paired text
  iff : Q text ↔ C

namespace Settles

variable {Q : List Char → Prop} {a b : List Char} {A B : Prop}

theorem imp (h : Settles Q a A) (same : A ↔ B) : Settles Q a B := ⟨h.paired, h.iff.trans same⟩

theorem bare (hQ : Partwise Q) (h : Bare a) : Settles Q a True :=
  ⟨paired_of_free fun c hc => (h c hc).2.2, iff_true_intro (hQ.bare h)⟩

theorem append (hQ : Partwise Q) (ha : Settles Q a A) (hb : Settles Q b B) : Settles Q (a ++ b) (A ∧ B) :=
  ⟨by rw [paired_append ha.paired, hb.paired], (hQ.append ha.paired).trans (and_congr ha.iff hb.iff)⟩

theorem before (hQ : Partwise Q) (ha : Bare a) (hb : Settles Q b B) : Settles Q (a ++ b) B :=
  ((bare hQ ha).append hQ hb).imp (by rw [true_and])

theorem behind (hQ : Partwise Q) (ha : Settles Q a A) (hb : Bare b) : Settles Q (a ++ b) A :=
  (ha.append hQ (bare hQ hb)).imp (by rw [and_true])

theorem grouped {text : String} (hQ : Partwise Q) (h : Settles Q text.toList A) (parenthesized : Bool) :
    Settles Q (MiniC.grouped parenthesized text).toList A := by
  cases parenthesized with
  | false => exact h
  | true =>
    rw [MiniC.grouped, if_pos rfl, String.toList_append, String.toList_append]
    exact (h.before hQ (by decide)).behind hQ (by decide)

theorem intercalate {α : Type} {as : List α} {write : α → String} {C : α → Prop} (hQ : Partwise Q)
    (h : ∀ a ∈ as, Settles Q (write a).toList (C a)) :
    Settles Q (String.intercalate ", " (as.map write)).toList (∀ a ∈ as, C a) := by
  induction as with
  | nil => exact (bare hQ (List.forall_mem_nil _)).imp (by simp)
  | cons first as ih =>
    obtain ⟨here, later⟩ := List.forall_mem_cons.mp h
    cases as with
    | nil =>
      rw [List.map_cons, List.map_nil, String.intercalate_singleton]
      exact here.imp (by simp)
    | cons next more =>
      rw [List.map_cons, List.map_cons, String.intercalate_cons_cons, String.toList_append, String.toList_append]
      refine ((here.behind hQ (by decide)).append hQ (ih later)).imp ?_
      exact List.forall_mem_cons.symm

end Settles

/-! ### Expressions -/

/-- Names and numbers without a character that means something in a template, and the
strings that `strings` admits. -/
def words (strings : String → Prop) : Vocabulary where
  name x := Bare x.toList
  number text _ := Bare text.toList
  string := strings
  mark _ := True

theorem builtFrom_strings {P R : String → Prop} {e : Node} (he : e.BuiltFrom (words P))
    (h : ∀ raw, (.string, raw) ∈ e.yield → R raw) : e.BuiltFrom (words R) := by
  have below {n m : Node} (h : ∀ raw, (.string, raw) ∈ n.yield → R raw) (member : m ∈ n.children.map Prod.snd) :
      ∀ raw, (.string, raw) ∈ m.yield → R raw := fun raw hraw => h raw ((Node.yield_child member).mem hraw)
  induction he with
  | number l notString text => exact .number l notString text
  | @string raw l _ => exact .string l (h raw (by simp [Node.yield, LiteralKind.lexeme]))
  | identifier l name => exact .identifier l name
  | call l name _ ih => exact .call l name fun a ha => ih a ha (below h (by simpa [Node.children] using ha))
  | binary o l _ _ ihLeft ihRight =>
    exact .binary o l (ihLeft (below h (by simp [Node.children]))) (ihRight (below h (by simp [Node.children])))
  | unary l mark _ ih => exact .unary l mark (ih (below h (by simp [Node.children])))

/-- The strings of an expression are admitted by the words it is made of. -/
theorem builtFrom_string {v : Vocabulary} {e : Node} (he : e.BuiltFrom v) {raw : String}
    (h : (.string, raw) ∈ e.yield) : v.string raw := by
  induction he with
  | @number text kind l notString _ =>
    cases kind with
    | string => exact absurd rfl notString
    | int | float => simp [Node.yield, LiteralKind.lexeme] at h
  | string l admitted =>
    simp only [Node.yield, LiteralKind.lexeme, List.mem_singleton, Prod.mk.injEq, true_and] at h
    exact h ▸ admitted
  | identifier => simp [Node.yield, Lexeme.ident] at h
  | call l _ _ ih =>
    simp only [Node.yield, Node.yieldAll_eq, Lexeme.ident, List.mem_cons, Prod.mk.injEq, reduceCtorEq, false_and,
      false_or, List.mem_flatMap] at h
    obtain ⟨arg, member, inside⟩ := h
    exact ih arg member inside
  | binary o l _ _ ihLeft ihRight =>
    simp only [Node.yield, Lexeme.op, List.mem_append, List.mem_cons, Prod.mk.injEq, reduceCtorEq, false_and,
      false_or] at h
    exact h.elim ihLeft ihRight
  | unary l _ _ ih =>
    simp only [Node.yield, Lexeme.op, List.mem_cons, Prod.mk.injEq, reduceCtorEq, false_and, false_or] at h
    exact ih h

theorem quote_paired (s : Spelling) {raw : String} (h : paired raw.toList) : paired (s.quote raw).toList := by
  have notBackslash : s.delimiter ≠ '\\' := by cases s <;> decide
  have inner := paired_of_raw (raw_escape notBackslash h)
  rw [quote_toList, List.cons_append, paired_plain notBackslash, paired_append inner, paired_plain notBackslash]
  rfl

theorem symbol_bare (s : Spelling) (o : BinOp) : Bare (s.symbol o).toList := by
  cases s <;> cases o <;> decide

/-- **Only its strings decide whether the text of an expression meets a condition** that is
checked part by part. -/
theorem render_settles {Q : List Char → Prop} (hQ : Partwise Q) (s : Spelling) {e : Node}
    (he : e.BuiltFrom (words fun raw => paired raw.toList)) :
    Settles Q (e.render s).toList (∀ raw, (.string, raw) ∈ e.yield → Q (s.quote raw).toList) := by
  induction he with
  | @number text kind l notString bare =>
    cases kind with
    | string => exact absurd rfl notString
    | int | float => exact (Settles.bare hQ bare).imp (by simp [Node.yield, LiteralKind.lexeme])
  | @string raw l closed => exact ⟨quote_paired s closed, by simp [Node.render, Node.yield, LiteralKind.lexeme]⟩
  | identifier l bare => exact (Settles.bare hQ bare).imp (by simp [Node.yield, Lexeme.ident])
  | @call x args l bare _ ih =>
    have list : Settles Q (String.intercalate ", " (args.map (Node.render s))).toList
        (∀ a ∈ args, ∀ raw, (.string, raw) ∈ a.yield → Q (s.quote raw).toList) := .intercalate hQ ih
    rw [Node.render, renderAll_eq_map, String.toList_append, String.toList_append, String.toList_append]
    refine ((list.before hQ (bare_append.mpr ⟨bare, by decide⟩)).behind hQ (by decide)).imp ?_
    simp only [Node.yield, Node.yieldAll_eq, List.mem_cons, List.mem_flatMap, Lexeme.ident]
    grind
  | @binary left right o l _ _ ihLeft ihRight =>
    rw [Node.render]
    simp only [String.toList_append]
    have first := (ihLeft.grouped hQ (s.groups o left false)).behind hQ (b := " ".toList) (by decide)
    have symbol := (first.behind hQ (symbol_bare s o)).behind hQ (b := " ".toList) (by decide)
    refine (symbol.append hQ (ihRight.grouped hQ _)).imp ?_
    simp only [Node.yield, List.mem_append, List.mem_cons, Lexeme.op]
    grind
  | @unary o operand l mark _ ih =>
    have same : (∀ raw, (.string, raw) ∈ operand.yield → Q (s.quote raw).toList) ↔
        ∀ raw, (.string, raw) ∈ (Node.unary o operand l).yield → Q (s.quote raw).toList := by
      simp [Node.yield, Lexeme.op]
    refine Settles.imp ?_ same
    cases o with
    | neg =>
      rw [Node.render, String.toList_append]
      exact (ih.grouped hQ _).before hQ (by decide)
    | not =>
      rw [Node.render, String.toList_append]
      exact (ih.grouped hQ _).before hQ (by cases s <;> decide)
    | addressOf => rwa [Node.render]

/-- Without strings a field is spelled as any expression. -/
theorem render_field {e : Node} (he : e.BuiltFrom (words fun _ => False)) : e.render .field = e.render .indented := by
  have symbols (o : BinOp) : Spelling.field.symbol o = Spelling.indented.symbol o := by cases o <;> rfl
  have groups (o : BinOp) (n : Node) (onRight : Bool) :
      Spelling.field.groups o n onRight = Spelling.indented.groups o n onRight := by
    cases n with
    | unary mark _ _ => cases mark <;> rfl
    | _ => rfl
  induction he with
  | @number text kind l notString _ =>
    cases kind with
    | string => exact absurd rfl notString
    | int | float => rfl
  | string l none => exact none.elim
  | identifier => rfl
  | @call x args l _ _ ih =>
    rw [Node.render, Node.render, renderAll_eq_map, renderAll_eq_map, List.map_congr_left ih]
  | @binary left right o l _ _ ihLeft ihRight =>
    rw [Node.render, Node.render, ihLeft, ihRight, symbols, groups, groups]
  | @unary o operand l _ _ ih =>
    have mark : Spelling.field.notMark = Spelling.indented.notMark := rfl
    cases o with
    | neg | addressOf => rw [Node.render, Node.render, ih]
    | not => rw [Node.render, Node.render, ih, mark]

/-! ### Templates -/

theorem templateText_toList (raw : List Char) :
    (Python.templateText raw).toList = ((escape '"' raw).map Part.char).flatMap Part.written := by
  rw [Python.templateText, String.toList_ofList, escapeBraces_eq]

theorem written_of_bare {text : List Char} (h : Bare text) : (text.map Part.char).flatMap Part.written = text := by
  induction text with
  | nil => rfl
  | cons c text ih =>
    obtain ⟨here, later⟩ := List.forall_mem_cons.mp h
    rw [List.map_cons, List.flatMap_cons, ih later, Part.written, if_neg (by simp [here.1]), List.singleton_append]

/-- The text between the quotes of a template is what its parts are written as. -/
theorem templateBody_parts {segments : List Segment} (formed : ∀ m, .marker m ∈ segments → m.Formed)
    (args : List Node) :
    (Python.templateBody segments args).toList = (parts .field segments args).flatMap Part.written := by
  fun_induction Python.templateBody segments args with
  | case1 => rfl
  | case2 chars segments args ih =>
    have later := ih fun m member => formed m (List.mem_cons_of_mem _ member)
    rw [parts_cons, List.flatMap_append, String.toList_append, templateText_toList, later]
    rfl
  | case3 segments args ih =>
    have later := ih fun m member => formed m (List.mem_cons_of_mem _ member)
    rw [parts_cons, List.flatMap_append, String.toList_append, later]
    rfl
  | case4 m segments ih =>
    have later := ih fun m member => formed m (List.mem_cons_of_mem _ member)
    have raw := written_of_bare (bare_marker (formed m List.mem_cons_self))
    rw [parts_cons, List.flatMap_append, String.toList_append, String.toList_ofList, later]
    exact congrArg (· ++ _) raw.symm
  | case5 m segments arg args ih =>
    have later := ih fun m member => formed m (List.mem_cons_of_mem _ member)
    rw [parts_cons, List.flatMap_append, String.toList_append, later]
    refine congrArg (· ++ _) ?_
    rw [List.head?_cons, shown]
    cases arg.stringText? with
    | some text => exact templateText_toList _
    | none => simp [field_written]

def Part.field? : Part → Option (List Char)
  | .field text => some text
  | .char _ => none

theorem field?_chars (cs : List Char) : (cs.map Part.char).filterMap Part.field? = [] := by
  rw [List.filterMap_map]
  exact List.filterMap_eq_nil_iff.mpr fun _ _ => rfl

/-- The fields of a template are those of its filled markers, in order. -/
theorem parts_fields (s : Spelling) (segments : List Segment) (args : List Node) :
    (parts s segments args).filterMap Part.field? =
      (filled segments args).map fun p => (fieldText s p.1 p.2).toList := by
  induction segments generalizing args with
  | nil => rfl
  | cons segment segments ih =>
    rw [parts_cons, List.filterMap_append, ih]
    cases segment with
    | text cs => rw [shown, field?_chars]; rfl
    | percent => rfl
    | marker m =>
      cases args with
      | nil =>
        show (m.raw.map Part.char).filterMap Part.field? ++ _ = _
        rw [field?_chars]
        simp [filled, leftBehind]
      | cons arg args =>
        rw [List.head?_cons, shown]
        cases found : arg.stringText? with
        | some text =>
          show ((escape '"' text.toList).map Part.char).filterMap Part.field? ++ _ = _
          rw [field?_chars]
          simp [filled, leftBehind, Segment.marker?, found]
        | none => simp [filled, leftBehind, Segment.marker?, found, Part.field?]

theorem mem_parts_field {s : Spelling} {segments : List Segment} {args : List Node} {text : List Char}
    (h : .field text ∈ parts s segments args) :
    ∃ p ∈ filled segments args, (fieldText s p.1 p.2).toList = text := by
  have member : text ∈ (parts s segments args).filterMap Part.field? := List.mem_filterMap.mpr ⟨_, h, rfl⟩
  rw [parts_fields] at member
  exact List.mem_map.mp member

theorem filled_arg {segments : List Segment} {args : List Node} {p : Marker × Node} (h : p ∈ filled segments args) :
    p.2 ∈ args ∧ p.2.stringText? = none := by
  obtain ⟨pair, none⟩ := List.mem_filter.mp h
  exact ⟨(List.of_mem_zip pair).2, Option.isNone_iff_eq_none.mp none⟩

theorem filled_cons (segment : Segment) (segments : List Segment) (args : List Node) {C : Marker × Node → Prop} :
    (∀ p ∈ filled (segment :: segments) args, C p) ↔
      (∀ m ∈ segment.marker?, ∀ arg ∈ args.head?, arg.stringText? = none → C (m, arg)) ∧
        ∀ p ∈ filled segments (leftBehind segment args), C p := by
  cases segment with
  | text | percent => simp [filled, leftBehind, Segment.marker?, List.filterMap_cons]
  | marker m =>
    cases args with
    | nil => simp [filled, leftBehind]
    | cons arg args =>
      cases found : arg.stringText? with
      | some text => simp [filled, leftBehind, Segment.marker?, found]
      | none => simp [filled, leftBehind, Segment.marker?, found]

theorem settles_closed {text : List Char} (h : Raw '"' text) : Settles (Raw '"') text True :=
  ⟨paired_of_raw h, iff_true_intro h⟩

theorem Settles.braced {text : List Char} {C : Prop} (h : Settles (Raw '"') text C) :
    Settles (Raw '"') (Part.field text).written C := by
  have last : Raw '"' ['\x7d'] := .plain (by decide) (by decide) .nil
  refine ⟨?_, ?_⟩
  · rw [Part.written, List.cons_append, paired_plain (by decide), paired_append h.paired]
    rfl
  · rw [Part.written, List.cons_append, raw_plain (by decide), raw_append h.paired, ← h.iff]
    exact ⟨fun all => all.2.1, fun here => ⟨by decide, here, last⟩⟩

/-- The strings inside of the argument hold no bare double quote where they are written. -/
def KeepsOpen (p : Marker × Node) : Prop :=
  ∀ raw, (.string, raw) ∈ p.2.yield → Raw '"' (Spelling.field.quote raw).toList

theorem shown_settles {segment : Segment} (text : ∀ cs, segment = .text cs → paired cs)
    (formed : ∀ m, segment = .marker m → m.Formed) {arg? : Option Node}
    (built : ∀ arg ∈ arg?, arg.BuiltFrom (words fun raw => paired raw.toList)) :
    Settles (Raw '"') ((shown .field arg? segment).flatMap Part.written)
      (∀ m ∈ segment.marker?, ∀ arg ∈ arg?, arg.stringText? = none → KeepsOpen (m, arg)) := by
  have literal {cs : List Char} (h : paired cs) :
      Raw '"' (((escape '"' cs).map Part.char).flatMap Part.written) := by
    rw [← escapeBraces_eq]
    exact raw_escapeBraces (raw_escape (by decide) h)
  cases segment with
  | text cs => exact (settles_closed (literal (text cs rfl))).imp (by simp [Segment.marker?])
  | percent =>
    have sign : Bare ['%'] := by decide
    exact (settles_closed (raw_of_bare sign)).imp (by simp [Segment.marker?])
  | marker m =>
    cases arg? with
    | none =>
      have bare := bare_marker (formed m rfl)
      rw [shown, written_of_bare bare]
      exact (settles_closed (raw_of_bare bare)).imp (by simp)
    | some arg =>
      have inside := built arg rfl
      rw [shown]
      cases found : arg.stringText? with
      | some raw =>
        exact (settles_closed (literal (inside.stringText found))).imp (by simp [found])
      | none =>
        have field := ((render_settles partwise_raw .field inside).behind partwise_raw (bare_precision m)).braced
        rw [List.flatMap_singleton, fieldText, String.toList_append]
        exact field.imp (by simp [Segment.marker?, found, KeepsOpen])

/-- **A template is one closed literal** exactly if the strings inside of its fields hold no
bare double quote. -/
theorem parts_settle {segments : List Segment} (texts : ∀ cs, .text cs ∈ segments → paired cs)
    (formed : ∀ m, .marker m ∈ segments → m.Formed) {args : List Node}
    (built : ∀ arg ∈ args, arg.BuiltFrom (words fun raw => paired raw.toList)) :
    Settles (Raw '"') ((parts .field segments args).flatMap Part.written)
      (∀ p ∈ filled segments args, KeepsOpen p) := by
  induction segments generalizing args with
  | nil => exact (settles_closed .nil).imp (by simp [filled])
  | cons segment segments ih =>
    have left : ∀ arg ∈ leftBehind segment args, arg.BuiltFrom (words fun raw => paired raw.toList) := by
      intro arg member
      unfold leftBehind at member
      split at member
      · exact built arg (List.mem_of_mem_tail member)
      · exact built arg member
    have first := @shown_settles segment (fun cs same => texts cs (same ▸ List.mem_cons_self))
      (fun m same => formed m (same ▸ List.mem_cons_self)) args.head?
      fun arg member => built arg (List.mem_of_mem_head? member)
    have more := ih (fun cs member => texts cs (List.mem_cons_of_mem _ member))
      (fun m member => formed m (List.mem_cons_of_mem _ member)) left
    rw [parts_cons, List.flatMap_append]
    exact (first.append partwise_raw more).imp (filled_cons segment segments args).symm

theorem parts_congr {s s' : Spelling} {args : List Node} (segments : List Segment)
    (same : ∀ arg ∈ args, arg.stringText? = none → arg.render s = arg.render s') :
    parts s segments args = parts s' segments args := by
  have each (k : Nat) (segment : Segment) : shown s args[k]? segment = shown s' args[k]? segment := by
    cases segment with
    | text | percent => rfl
    | marker m =>
      cases found : args[k]? with
      | none => rfl
      | some arg =>
        rw [shown, shown]
        cases field : arg.stringText? with
        | some text => rfl
        | none => simp [fieldText, same arg (List.mem_of_getElem? found) field]
  simp only [parts, each]

/-- The names and numbers of a source text mean nothing in a template. -/
theorem words_admitted {strings : String → Prop} {source : String}
    (admitted : ∀ t ∈ (tokenize source).tokens, t.kind = .string → strings t.spelling) :
    ∀ t ∈ (tokenize source).tokens, (words strings).Admits t.lexeme := by
  intro t ht
  rw [Token.lexeme]
  cases kind : t.kind with
  | identifier => exact bare_name (tokenize_name ht kind)
  | number => exact bare_numeral (tokenize_numeral ht kind)
  | string => exact admitted t ht kind
  | _ => trivial

/-- The arguments of every print in a source text are expressions over such words. -/
theorem parse_printf_builtFrom {strings : String → Prop} {source : String}
    (admitted : ∀ t ∈ (tokenize source).tokens, t.kind = .string → strings t.spelling) :
    (parseTokens (tokenize source).tokens).tree.Everywhere fun n =>
      ∀ args l, n = .printf args l → ∀ arg ∈ args, arg.BuiltFrom (words strings) := by
  refine parse_madeFrom (fun _ => trivial) (words_admitted admitted) (fun _ _ _ other => by cases other) ?_
  rintro _ made args l rfl
  cases made with
  | printf _ built => exact built
  | expression built => cases built

/-- **Templates decode to their formats.** The arguments of a print in a source text are made
of words without a brace, a double quote or a backslash. If strings stand among such arguments
as whole arguments only and, like the format, with the partners of their backslashes, then
the text between the quotes of the template holds no bare double quote, and it is read as
the characters of the format, its quotes escaped and `%%` as a percent sign, where each
marker is the argument of its number: a string as its characters, anything else as one field with
its text and, for floats, the precision. A marker beyond the arguments is read as itself. -/
theorem template_decodes :
    (∀ source : String, (parseTokens (tokenize source).tokens).tree.Everywhere fun n =>
        ∀ args l, n = .printf args l → ∀ arg ∈ args, arg.BuiltFrom (words fun _ => True)) ∧
      ∀ (format : String) (args : List Node), paired format.toList →
        (∀ arg ∈ args, arg.BuiltFrom (words fun _ => True)) →
        (∀ arg ∈ args, ∀ raw, (.string, raw) ∈ arg.yield → arg.stringText? = some raw ∧ paired raw.toList) →
        ∃ body : String, Python.template format args = "f\"" ++ body ++ "\"" ∧ Raw '"' body.toList ∧
          read? body.toList = some (parts .indented (Format.segments format.toList) args) := by
  refine ⟨fun source => parse_printf_builtFrom fun _ _ _ => trivial, fun format args closed built whole => ?_⟩
  have texts := (Format.segments_segmented format.toList).texts_paired closed
  have formed (m : Marker) (h : .marker m ∈ Format.segments format.toList) : m.Formed := Format.formed_of_segment h
  have pairs (arg : Node) (h : arg ∈ args) : arg.BuiltFrom (words fun raw => paired raw.toList) :=
    builtFrom_strings (built arg h) fun raw hraw => (whole arg h raw hraw).2
  -- what stands in a field is no string, so there is none inside of it
  have free (arg : Node) (h : arg ∈ args) (field : arg.stringText? = none) (raw : String) :
      (.string, raw) ∉ arg.yield := by
    intro hraw
    rw [(whole arg h raw hraw).1] at field
    cases field
  have spelled : parts .field (Format.segments format.toList) args =
      parts .indented (Format.segments format.toList) args :=
    parts_congr _ fun arg h field =>
      render_field (builtFrom_strings (built arg h) fun raw hraw => free arg h field raw hraw)
  refine ⟨Python.templateBody (Format.segments format.toList) args, rfl, ?_, ?_⟩
  · rw [templateBody_parts formed]
    refine (parts_settle texts formed pairs).iff.mpr fun p hp raw hraw => ?_
    exact absurd hraw (free p.2 (filled_arg hp).1 (filled_arg hp).2 raw)
  · rw [templateBody_parts formed, read?_written, spelled]
    intro text member c hc
    obtain ⟨p, hp, rfl⟩ := mem_parts_field member
    obtain ⟨inside, field⟩ := filled_arg hp
    have bare : Bare (p.2.render .field).toList :=
      (render_settles partwise_bare .field (pairs p.2 inside)).iff.mpr fun raw hraw =>
        absurd hraw (free p.2 inside field raw)
    rw [fieldText, String.toList_append] at hc
    exact (bare_append.mpr ⟨bare, bare_precision p.1⟩ c hc).1

/-- A string with a quote and a brace, and a sum. -/
def mixedArguments : List Node :=
  [.literal "a\"\x7d" .string .start,
    .binary .add (.identifier "x" .start) (.literal "1" .int .start) .start]

/-- Braces behind a backslash and on both sides of a marker, a float, a percent sign, and a marker
without an argument. -/
theorem template_decodes_mixed :
    paired "\\\x7b%s\x7d%.1F%%%d\"".toList ∧
      (∀ arg ∈ mixedArguments, arg.BuiltFrom (words fun _ => True)) ∧
      (∀ arg ∈ mixedArguments, ∀ raw, (.string, raw) ∈ arg.yield →
        arg.stringText? = some raw ∧ paired raw.toList) ∧
      Python.template "\\\x7b%s\x7d%.1F%%%d\"" mixedArguments =
        "f\"" ++ "\\\x7b\x7ba\\\"\x7d\x7d\x7d\x7d\x7bx + 1:.1f\x7d%%d\\\"" ++ "\"" ∧
      read? "\\\x7b\x7ba\\\"\x7d\x7d\x7d\x7d\x7bx + 1:.1f\x7d%%d\\\"".toList =
        some ("\\\x7ba\\\"\x7d\x7d".toList.map .char ++ .field "x + 1:.1f".toList :: "%%d\\\"".toList.map .char) := by
  have closed : paired "\\\x7b%s\x7d%.1F%%%d\"".toList := by decide +kernel
  have built : ∀ arg ∈ mixedArguments, arg.BuiltFrom (words fun _ => True) := by
    have name : Bare "x".toList := by decide
    have number : Bare "1".toList := by decide
    refine List.forall_mem_cons.mpr ⟨.string _ trivial, List.forall_mem_singleton.mpr ?_⟩
    exact .binary _ _ (.identifier _ name) (.number _ (by decide) number)
  have whole : ∀ arg ∈ mixedArguments, ∀ raw, (.string, raw) ∈ arg.yield →
      arg.stringText? = some raw ∧ paired raw.toList := by
    refine List.forall_mem_cons.mpr ⟨fun raw hraw => ?_, List.forall_mem_singleton.mpr fun raw hraw => ?_⟩
    · obtain rfl : raw = "a\"\x7d" := by simpa [Node.yield, LiteralKind.lexeme] using hraw
      exact ⟨rfl, by decide⟩
    · simp [Node.yield, LiteralKind.lexeme, Lexeme.ident, Lexeme.op] at hraw
  obtain ⟨body, text, -, read⟩ := template_decodes.2 _ mixedArguments closed built whole
  have same : Python.template "\\\x7b%s\x7d%.1F%%%d\"" mixedArguments =
      "f\"" ++ "\\\x7b\x7ba\\\"\x7d\x7d\x7d\x7d\x7bx + 1:.1f\x7d%%d\\\"" ++ "\"" := by decide +kernel
  obtain rfl : body = "\\\x7b\x7ba\\\"\x7d\x7d\x7d\x7d\x7bx + 1:.1f\x7d%%d\\\"" := by
    rw [same] at text
    exact ((String.append_right_inj _).mp ((String.append_left_inj _).mp text)).symm
  exact ⟨closed, built, whole, same, read.trans (by decide +kernel)⟩

end Template
end MiniC
