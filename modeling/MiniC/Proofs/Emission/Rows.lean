/-
# Rows of generated text

A text is read row by row, and a row by three things: how many spaces it starts with, what
stands behind them, and whether it is blank. Whatever marks the blocks of a language, the
lines of its programs can be found again in these rows. A line whose text holds no newline is one
row (`rows_of_line`), and if the text starts with no blank, the row is indented by four spaces
for each level of the line, with the text behind (`rowOf_spec`).

Key definitions: `Row.isBlank`, `Row.indent`, `Row.content`, `rowOf`, `RowOf`.
Key theorems: `rows_join`, `rows_of_lines`, `rowOf_spec`.
-/
import MiniC.Emit.Layout
import MiniC.Proofs.Emission.Inline

namespace MiniC

namespace Row

/-- The row holds blanks only. -/
def isBlank (row : List Char) : Bool := row.all Text.isBlank

/-- How many spaces the row starts with. -/
def indent (row : List Char) : Nat := (row.takeWhile (· = ' ')).length

/-- What stands behind the indentation. -/
def content (row : List Char) : List Char := row.dropWhile (· = ' ')

end Row

/-! ### Rows of texts and lines -/

theorem rows_oneRow {cs : List Char} (h : '\n' ∉ cs) : Text.rows cs = [cs] := by
  induction cs with
  | nil => rfl
  | cons c cs ih =>
    rw [List.mem_cons, not_or] at h
    rw [Text.rows, if_neg (Ne.symm h.1), ih h.2]

theorem rows_append {cs : List Char} (h : '\n' ∉ cs) (ds : List Char) :
    Text.rows (cs ++ '\n' :: ds) = cs :: Text.rows ds := by
  induction cs with
  | nil => rfl
  | cons c cs ih =>
    rw [List.mem_cons, not_or] at h
    rw [List.cons_append, Text.rows, if_neg (Ne.symm h.1), ih h.2]

theorem rows_join {texts : List String} (h : ∀ row ∈ texts, OneRow row) :
    Text.rows (String.join (texts.map fun row => row ++ "\n")).toList = texts.map String.toList ++ [[]] := by
  induction texts with
  | nil => rfl
  | cons text texts ih =>
    obtain ⟨here, later⟩ := List.forall_mem_cons.mp h
    rw [List.map_cons, String.join_cons, String.toList_append, String.toList_append, List.append_assoc]
    exact (rows_append here _).trans (congrArg _ (ih later))

/-- The row of a line whose text is one. -/
def rowOf (l : Line) : List Char := List.replicate (4 * l.depth) ' ' ++ l.text.toList

theorem rowOf_oneRow {l : Line} (h : OneRow l.text) : '\n' ∉ rowOf l := by
  rw [rowOf, List.mem_append, not_or]
  exact ⟨fun member => absurd (List.eq_of_mem_replicate member) (by decide), h⟩

theorem rows_of_line {l : Line} (h : OneRow l.text) : l.rows.map String.toList = [rowOf l] := by
  have chars : (indentation l.depth ++ l.text).toList = rowOf l := by
    rw [String.toList_append, indentation, String.toList_ofList, rowOf]
  rw [Line.rows, chars, rows_oneRow (rowOf_oneRow h), List.map_singleton, List.map_singleton, String.toList_ofList]

theorem rows_of_lines {ls : List Line} (h : ∀ l ∈ ls, OneRow l.text) :
    (ls.flatMap Line.rows).map String.toList = ls.map rowOf := by
  induction ls with
  | nil => rfl
  | cons l ls ih =>
    obtain ⟨here, later⟩ := List.forall_mem_cons.mp h
    rw [List.flatMap_cons, List.map_append, rows_of_line here, ih later, List.map_cons, List.singleton_append]

/-- What can be read off the row of a line that starts with no blank. -/
structure RowOf (depth : Nat) (text : String) (row : List Char) : Prop where
  visible : Row.isBlank row = false
  indent : Row.indent row = 4 * depth
  content : Row.content row = text.toList
  starts : text.toList.head?.any fun c => !Text.isBlank c
  last : row.getLast? = text.toList.getLast?

theorem RowOf.level {depth : Nat} {text : String} {row : List Char} (h : RowOf depth text row) :
    4 ∣ Row.indent row ∧ (Row.content row).head?.any fun c => !Text.isBlank c := by
  rw [h.indent, h.content]
  exact ⟨⟨depth, rfl⟩, h.starts⟩

theorem rowOf_spec (depth : Nat) (text : String) (h : text.toList.head?.any fun c => !Text.isBlank c) :
    RowOf depth text (rowOf ⟨depth, text⟩) := by
  obtain ⟨c, first, notBlank⟩ := (Option.any_eq_true _ _).mp h
  obtain ⟨cs, chars⟩ := List.head?_eq_some_iff.mp first
  have notSpace : c ≠ ' ' := by
    rintro rfl
    exact absurd notBlank (by decide)
  have spaces : ∀ d ∈ List.replicate (4 * depth) ' ', decide (d = ' ') = true := fun d hd =>
    decide_eq_true (List.eq_of_mem_replicate hd)
  have stop : ∀ d ∈ text.toList.head?, decide (d = ' ') = false := by
    intro d hd
    obtain rfl : c = d := by rwa [first, Option.mem_some_iff] at hd
    exact decide_eq_false notSpace
  obtain ⟨taken, left⟩ := takeWhile_append_stop spaces stop
  refine ⟨?_, ?_, left, h, ?_⟩
  · rw [Row.isBlank, List.all_eq_false]
    exact ⟨c, List.mem_append_right _ (by rw [chars]; exact List.mem_cons_self), by simpa using notBlank⟩
  · rw [Row.indent, rowOf, taken, List.length_replicate]
  · rw [rowOf, List.getLast?_append, chars, List.getLast?_eq_some_getLast (List.cons_ne_nil c cs), Option.some_or]

end MiniC
