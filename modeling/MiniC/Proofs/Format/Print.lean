/-
# Text printed as it is

A `printf` of one string has no arguments to take: it prints its plain text. In the
indented language it is a `print` of the quoted text, which ends the line itself, so a
newline escape at the end of the text is left out, and without one the line is kept open.

The escape is looked for in the raw text, by its last two characters. If these are
`\n` and the backslash is itself the partner of another one, then there is no newline to
leave out, and what is left ends in a backslash that takes the closing quote. In all
other cases the statement prints what the text denotes (`statement_prints_iff`).

Key definitions: `Python.Prints`.
Key theorems: `Format.paired_plainText`, `Python.statement_prints_iff`.
-/
import MiniC.Emit.Python
import MiniC.Proofs.Literal

namespace MiniC

/-- The segment as it prints with no arguments. -/
def Segment.plain : Segment → List Char
  | .text cs => cs
  | .percent => ['%']
  | .marker m => m.raw

namespace Format

theorem plainText_toList (format : String) :
    (plainText format).toList = (segments format.toList).flatMap Segment.plain := by
  rw [plainText]
  induction segments format.toList with
  | nil => rfl
  | cons s ss ih =>
    rw [List.map_cons, String.join_cons, String.toList_append, ih, List.flatMap_cons]
    cases s <;> simp [Segment.plain]

theorem segment_paired {format : List Char} (closed : Text.paired format) {s : Segment} (h : s ∈ segments format) :
    Text.paired s.plain := by
  cases s with
  | text cs => exact (segments_segmented format).texts_paired closed cs h
  | percent => rfl
  | marker m => exact (formed_of_segment h).raw_paired

/-- The plain text of a format has its partners if the format has them. -/
theorem paired_plainText {format : String} (h : Text.paired format.toList) :
    Text.paired (plainText format).toList := by
  rw [plainText_toList]
  exact Text.paired_flatMap fun s hs => segment_paired h hs

end Format

namespace Python

open Text Format

/-- The lines are one statement at the level, which prints the characters. -/
inductive Prints (e : Escapes) (depth : Nat) : List Line → List Char → Prop
  | line {literal : String} {chars : List Char} :
    Denotes e literal chars → Prints e depth [⟨depth, "print(" ++ literal ++ ")"⟩] (chars ++ ['\n'])
  | text {literal : String} {chars : List Char} :
    Denotes e literal chars → Prints e depth [⟨depth, "print(" ++ literal ++ ", end=\"\")"⟩] chars

theorem beforeNewline?_eq_some_iff {text line : String} :
    beforeNewline? text = some line ↔ text = line ++ "\\n" := by
  rw [beforeNewline?]
  constructor
  · intro h
    split at h
    · next rest chars =>
      obtain rfl := Option.some.inj h
      rw [List.reverse_eq_iff] at chars
      exact String.toList_inj.mp (by simp [chars])
    · cases h
  · rintro rfl
    simp

section

variable {t : String} (globals : List String) (depth : Nat) (start l : Location)

theorem statement_line {line : String} (h : plainText t = line ++ "\\n") :
    statement globals depth (.printf [.literal t .string l] start) =
      [⟨depth, "print(" ++ quote line ++ ")"⟩] := by
  simp [statement, atDepth, printLines, Node.stringText?, beforeNewline?_eq_some_iff.mpr h]

theorem statement_text (h : ∀ line, plainText t ≠ line ++ "\\n") :
    statement globals depth (.printf [.literal t .string l] start) =
      [⟨depth, "print(" ++ quote (plainText t) ++ ", end=\"\")"⟩] := by
  have none : beforeNewline? (plainText t) = none :=
    Option.eq_none_iff_forall_not_mem.mpr fun line found => h line (beforeNewline?_eq_some_iff.mp found)
  simp [statement, atDepth, printLines, Node.stringText?, none, printOpen]

theorem prints_of_paired (e : Escapes) (closed : paired t.toList)
    (whole : ∀ line, plainText t = line ++ "\\n" → paired line.toList) :
    Prints e depth (statement globals depth (.printf [.literal t .string l] start))
      (decode e (plainText t).toList) := by
  by_cases ends : ∃ line, plainText t = line ++ "\\n"
  · obtain ⟨line, same⟩ := ends
    have front := whole line same
    have chars : decode e (plainText t).toList = decode e line.toList ++ ['\n'] := by
      have escape : decode e ['\\', 'n'] = ['\n'] := by rw [decode_newline, decode]
      rw [same, String.toList_append, show "\\n".toList = ['\\', 'n'] from rfl,
        decode_append e front (backslash_stop _), escape]
    rw [statement_line globals depth start l same, chars]
    exact .line (denotes_quote e front)
  · rw [statement_text globals depth start l (not_exists.mp ends)]
    exact .text (denotes_quote e (paired_plainText closed))

/-- A backslash before the newline escape leaves a literal without its end. -/
theorem not_prints_of_dangling (e : Escapes) {line : String} (same : plainText t = line ++ "\\n")
    (dangling : paired line.toList = false) (chars : List Char) :
    ¬Prints e depth (statement globals depth (.printf [.literal t .string l] start)) chars := by
  intro prints
  rw [statement_line globals depth start l same] at prints
  generalize hlines : [Line.mk depth ("print(" ++ quote line ++ ")")] = lines at prints
  cases prints with
  | @line literal chars denotes =>
    obtain rfl : quote line = literal := by simpa [String.append_assoc] using hlines
    exact not_denotes_of_dangling e dangling chars denotes
  | @text literal _ denotes =>
    -- the two texts differ in the third character from the end
    obtain ⟨front, -, escaped⟩ := escape_dangling dangling
    have text : (quote line).toList = '"' :: (front ++ ['\\', '"']) := by simp [toList_quote, escaped]
    have chars := congrArg (fun line => line.text.toList.reverse) (List.singleton_inj.mp hlines)
    simp [text] at chars

/-- **A string that is printed alone keeps its text**, whatever the escape sequences of
the language are, exactly if its plain text does not end in an escaped backslash and the
letter `n`. All strings that a source text holds are meant: they have the partners of
their backslashes if nothing was reported. -/
theorem statement_prints_iff (closed : paired t.toList) :
    (∀ source : String, (tokenize source).diagnostics = [] → ∀ token ∈ (tokenize source).tokens,
        token.kind = .string → paired token.spelling.toList) ∧
      ∀ e : Escapes,
        ((∃ chars, Prints e depth (statement globals depth (.printf [.literal t .string l] start)) chars) ↔
          ∀ line, plainText t = line ++ "\\n" → paired line.toList) ∧
        ((∀ line, plainText t = line ++ "\\n" → paired line.toList) →
          Prints e depth (statement globals depth (.printf [.literal t .string l] start))
            (decode e (plainText t).toList)) := by
  refine ⟨fun source clean token => paired_of_token clean, fun e => ⟨⟨?_, ?_⟩, ?_⟩⟩
  · rintro ⟨chars, prints⟩ line same
    by_contra dangling
    exact not_prints_of_dangling globals depth start l e same (Bool.eq_false_iff.mpr dangling) chars prints
  · exact fun whole => ⟨_, prints_of_paired globals depth start l e closed whole⟩
  · exact prints_of_paired globals depth start l e closed

end

/-- Bare quotes, a doubled percent sign, and an escaped backslash before the newline. -/
theorem statement_prints_quoted :
    paired "\"50%%\"\\\\\\n".toList ∧
      statement [] 1 (.printf [.literal "\"50%%\"\\\\\\n" .string .start] .start) =
        [⟨1, "print(\"\\\"50%\\\"\\\\\")"⟩] ∧
      Prints .standard 1 (statement [] 1 (.printf [.literal "\"50%%\"\\\\\\n" .string .start] .start))
        "\"50%\"\\\n".toList := by
  have closed : paired "\"50%%\"\\\\\\n".toList := by decide +kernel
  have plain : plainText "\"50%%\"\\\\\\n" = "\"50%\"\\\\" ++ "\\n" := by
    apply String.toList_inj.mp
    rw [plainText_toList, String.toList_append]
    decide +kernel
  have whole : ∀ line, plainText "\"50%%\"\\\\\\n" = line ++ "\\n" → paired line.toList := by
    intro line same
    rw [← (String.append_left_inj "\\n").mp (plain.symm.trans same)]
    decide +kernel
  have chars : decode .standard (plainText "\"50%%\"\\\\\\n").toList = "\"50%\"\\\n".toList := by
    rw [plain, String.toList_append]
    decide +kernel
  have prints := ((statement_prints_iff [] 1 .start .start closed).2 .standard).2 whole
  refine ⟨closed, ?_, chars ▸ prints⟩
  rw [statement_line _ _ _ _ plain]
  exact congrArg (fun s => [Line.mk 1 s]) (String.toList_inj.mp (by simp [toList_quote, escape]))

/-- The last backslash is escaped, and the `n` behind it is a letter of the text. -/
theorem statement_loses_text :
    paired "a\\\\n".toList ∧ decode .standard (plainText "a\\\\n").toList = "a\\n".toList ∧
      statement [] 0 (.printf [.literal "a\\\\n" .string .start] .start) = [⟨0, "print(\"a\\\")"⟩] ∧
      ∀ e chars, ¬Prints e 0 (statement [] 0 (.printf [.literal "a\\\\n" .string .start] .start)) chars := by
  have plain : plainText "a\\\\n" = "a\\" ++ "\\n" := by
    apply String.toList_inj.mp
    rw [plainText_toList, String.toList_append]
    decide +kernel
  have dangling : paired "a\\".toList = false := by decide +kernel
  refine ⟨by decide +kernel, ?_, ?_, (not_prints_of_dangling _ _ _ _ · plain dangling)⟩
  · rw [plain, String.toList_append]
    decide +kernel
  · rw [statement_line _ _ _ _ plain]
    exact congrArg (fun s => [Line.mk 0 s]) (String.toList_inj.mp (by simp [toList_quote, escape]))

end Python
end MiniC
