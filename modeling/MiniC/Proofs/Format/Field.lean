/-
# Quotes inside of fields

The strings inside of a field are written between single quotes, because a double quote
there would close the template. That is done with the delimiters only. Of the characters
between them the single quotes are escaped and all others stay, so a string that itself
holds a double quote brings it into the field, however deep it stands below calls and
operators.

So a field of a source text that was read without a report holds a double quote exactly
if one of the strings inside of it does, and the template is one literal exactly if no
string inside of a field holds a bare one (`Template.parse_fields_quoted`).

Key definitions: `Template.Emitted`.
Key theorems: `Template.escape_single_iff`, `Template.parse_fields_quoted`.
-/
import Mathlib
import MiniC.Pipeline
import MiniC.Proofs.Format.Template

namespace MiniC
namespace Template

open Text Piece

section

variable {Q : List Char → Prop} (hQ : Partwise Q)

include hQ

/-- Escaping the single quotes changes nothing for a condition that an escaped one meets. -/
theorem escape_single_iff (mark : Q ['\\', '\'']) {cs : List Char} (closed : paired cs) :
    Q (escape '\'' cs) ↔ Q cs := by
  fun_induction paired cs with
  | case1 => rw [escape]
  | case2 => cases closed
  | case3 c cs ih =>
    have pair : paired ['\\', c] := rfl
    rw [escape_pair]
    exact (hQ.append pair).trans ((and_congr_right' (ih closed)).trans (hQ.append pair).symm)
  | case4 c cs plain ih =>
    have alone : paired [c] := paired_of_free (by simpa using plain)
    have single : Q [c] ∧ Q cs ↔ Q (c :: cs) := (hQ.append alone).symm
    by_cases isQuote : c = '\''
    · subst isQuote
      have bare : Bare ['\''] := by decide
      have escaped : Q ['\\', '\''] ∧ Q (escape '\'' cs) ↔ Q ('\\' :: '\'' :: escape '\'' cs) :=
        (hQ.append rfl).symm
      rw [escape_quote _ (by decide), ← escaped, ← single, ih closed]
      exact and_congr_left' (iff_of_true mark (hQ.bare bare))
    · rw [escape_other _ plain isQuote, ← single, ← ih closed]
      exact hQ.append alone

/-- A string inside of a field meets such a condition exactly if its own text does. -/
theorem quote_field_iff (mark : Q ['\\', '\'']) {raw : String} (closed : paired raw.toList) :
    Q (Spelling.field.quote raw).toList ↔ Q raw.toList := by
  have bare : Bare ['\''] := by decide
  have inner : Settles Q (escape '\'' raw.toList) (Q raw.toList) :=
    ⟨paired_of_raw (raw_escape (by decide) closed), escape_single_iff hQ mark closed⟩
  rw [quote_toList]
  exact ((inner.before hQ bare).behind hQ bare).iff

/-- The field of an argument meets such a condition exactly if all strings in it do. -/
theorem fieldText_iff (mark : Q ['\\', '\'']) (m : Marker) {arg : Node}
    (built : arg.BuiltFrom (words fun raw => paired raw.toList)) :
    Q (fieldText .field m arg).toList ↔ ∀ raw, (.string, raw) ∈ arg.yield → Q raw.toList := by
  rw [fieldText, String.toList_append]
  refine ((render_settles hQ .field built).behind hQ (bare_precision m)).iff.trans ?_
  exact forall₂_congr fun raw h => quote_field_iff hQ mark (builtFrom_string built h)

end

/-- What a print of the format with the arguments is emitted as: a template with the body,
whose fields are those of the filled markers. -/
structure Emitted (n : Node) (format : String) (args : List Node) (body : String) : Prop where
  line : ∀ globals depth, Python.statement globals depth n = [⟨depth, "print(f\"" ++ body ++ "\", end=\"\")"⟩]
  written : body.toList = (parts .field (Format.segments format.toList) args).flatMap Part.written
  fields : (parts .field (Format.segments format.toList) args).filterMap Part.field? =
    (filled (Format.segments format.toList) args).map fun p => (fieldText .field p.1 p.2).toList

theorem statement_emitted (format : String) {args : List Node} (some : args ≠ []) (l l' : Location) :
    ∃ body, Emitted (.printf (.literal format .string l :: args) l') format args body := by
  obtain ⟨arg, more, rfl⟩ := List.exists_cons_of_ne_nil some
  refine ⟨Python.templateBody (Format.segments format.toList) (arg :: more), fun globals depth => ?_,
    templateBody_parts (fun _ => Format.formed_of_segment) _, parts_fields _ _ _⟩
  have opened (body : String) :
      "print(" ++ ("f\"" ++ body ++ "\"") ++ ", end=\"\")" = "print(f\"" ++ body ++ "\", end=\"\")" :=
    String.toList_inj.mp (by simp)
  simp only [Python.statement, atDepth, Python.printLines, Node.stringText?, Python.printOpen, Python.template,
    opened, List.map_cons, List.map_nil]

/-- **Fields hold the double quotes of their strings.** In a source text that is read
without a report, every print of a format with arguments is emitted as one template. One
of its fields holds a double quote exactly if a string inside of it, at any depth, holds
one, and the template is one closed literal exactly if no string inside of its fields
holds a bare one. -/
theorem parse_fields_quoted {source : String} (clean : (tokenize source).diagnostics = []) :
    (parseTokens (tokenize source).tokens).tree.Everywhere fun n =>
      ∀ format args l l', n = .printf (.literal format .string l :: args) l' → args ≠ [] →
        ∃ body, Emitted n format args body ∧
          (∀ p ∈ filled (Format.segments format.toList) args,
            '"' ∈ (fieldText .field p.1 p.2).toList ↔ ∃ raw, (.string, raw) ∈ p.2.yield ∧ '"' ∈ raw.toList) ∧
          (Raw '"' body.toList ↔ ∀ p ∈ filled (Format.segments format.toList) args,
            ∀ raw, (.string, raw) ∈ p.2.yield → Raw '"' raw.toList) := by
  refine (@parse_printf_builtFrom (fun raw => paired raw.toList) source fun t => paired_of_token clean).imp ?_
  rintro _ all format args l l' rfl some
  obtain ⟨head, built⟩ := List.forall_mem_cons.mp (all _ _ rfl)
  have closed : paired format.toList := head.stringText rfl
  have texts := (Format.segments_segmented format.toList).texts_paired closed
  have inside {p : Marker × Node} (h : p ∈ filled (Format.segments format.toList) args) := built p.2 (filled_arg h).1
  obtain ⟨body, emitted⟩ := statement_emitted format some l l'
  refine ⟨body, emitted, fun p hp => ?_, ?_⟩
  · have none := fieldText_iff partwise_noQuote (by decide) p.1 (inside hp)
    rw [← not_iff_not, none]
    push Not
    rfl
  · rw [emitted.written, (parts_settle texts (fun _ => Format.formed_of_segment) built).iff]
    refine forall₂_congr fun p hp => forall₂_congr fun raw hraw => ?_
    exact quote_field_iff partwise_raw (.escaped .nil) (builtFrom_string (inside hp) hraw)

/-- A double quote in a string that is a whole argument, and a single one deep inside of a field. -/
def nestedSource : String := "printf(\"%s%d\",\"\\\"\",f(1+g(\"it's\")));"

def nestedPrint : Node :=
  .printf [.literal "%s%d" .string ⟨1, 8⟩, .literal "\\\"" .string ⟨1, 15⟩,
    .call "f" [.binary .add (.literal "1" .int ⟨1, 22⟩)
      (.call "g" [.literal "it's" .string ⟨1, 26⟩] ⟨1, 24⟩) ⟨1, 23⟩] ⟨1, 20⟩] ⟨1, 1⟩

theorem parse_fields_quoted_nested :
    (tokenize nestedSource).diagnostics = [] ∧
      (parseTokens (tokenize nestedSource).tokens).tree = .program [nestedPrint] ∧
      Python.statement [] 0 nestedPrint =
        [⟨0, "print(f\"" ++ "\\\"\x7bf(1 + g('it\\'s'))\x7d" ++ "\", end=\"\")"⟩] ∧
      Raw '"' "\\\"\x7bf(1 + g('it\\'s'))\x7d".toList := by
  have clean : (tokenize nestedSource).diagnostics = [] := by decide +kernel
  have tree : (parseTokens (tokenize nestedSource).tokens).tree = .program [nestedPrint] := by cbv
  have line : Python.statement [] 0 nestedPrint =
      [⟨0, "print(f\"" ++ "\\\"\x7bf(1 + g('it\\'s'))\x7d" ++ "\", end=\"\")"⟩] := by decide +kernel
  have all := parse_fields_quoted clean
  rw [tree] at all
  obtain ⟨body, emitted, -, closed⟩ :=
    (all.child List.mem_cons_self).here _ _ _ _ rfl (List.cons_ne_nil _ _)
  obtain rfl : "\\\"\x7bf(1 + g('it\\'s'))\x7d" = body := by
    have text := congrArg Line.text (List.singleton_inj.mp (line.symm.trans (emitted.line [] 0)))
    exact (String.append_right_inj _).mp ((String.append_left_inj _).mp text)
  refine ⟨clean, tree, line, closed.mpr fun p hp raw hraw => ?_⟩
  rcases List.mem_pair.mp (filled_arg hp).1 with same | same <;> rw [same] at hraw
  · obtain rfl : raw = "\\\"" := by simpa [Node.yield, LiteralKind.lexeme] using hraw
    exact .escaped .nil
  · obtain rfl : raw = "it's" := by
      simpa [Node.yield, Node.yieldAll, LiteralKind.lexeme, Lexeme.ident, Lexeme.op] using hraw
    exact raw_of_bare (by decide)

/-- The double quote inside of the field ends the template. -/
theorem field_closes_template :
    (tokenize "printf(\"%d\", f('\"'));").diagnostics = [] ∧
      transpile "printf(\"%d\", f('\"'));" .python = "print(f\"" ++ "\x7bf('\"')\x7d" ++ "\", end=\"\")\n" ∧
      ¬Raw '"' "\x7bf('\"')\x7d".toList := by
  refine ⟨by decide +kernel, by decide +kernel, ?_⟩
  simp [raw_plain]

end Template
end MiniC
