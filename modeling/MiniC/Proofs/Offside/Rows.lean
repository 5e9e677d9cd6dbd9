/-
# The offside rule

Where blocks are marked by indentation alone, a text is well formed row by row. Each
row that is not blank is indented by whole levels of four spaces. A row that ends in a
colon is a header, and right behind it a suite starts one level further in: a statement, or a
comment with `pass` behind it, but no blank row. Behind all other rows the next row
that is not blank stands no further in. The first one stands at the left edge
(`Offside.Valid`).

The rule looks ahead, from a row to what follows it. It is kept when rows that start at
the left edge follow (`Valid.append`) and when blank rows at the end are dropped
(`Valid.trim`), which is all that the layout does with what is there already. So the
rows of a program are valid if those of each of its parts are (`Keeps`).

Key definitions: `Offside.Sound`, `Offside.Valid`, `Offside.Keeps`.
Key theorems: `Offside.Valid.append`, `Offside.Valid.trim`, `Offside.Keeps.gap`,
`Offside.Keeps.valid_text`.
-/
import MiniC.Proofs.Emission.Lines
import MiniC.Proofs.Emission.Rows

namespace MiniC
namespace Offside

open Row (isBlank indent)

/-! ### The rule -/

def isComment (row : List Char) : Bool := (Row.content row).head? = some '#'

def isPass (row : List Char) : Bool := Row.content row = "pass".toList

/-- A colon ends the row. -/
def opensSuite (row : List Char) : Bool := row.getLast? = some ':'

/-- The words that start a header. -/
def headerWords : List String := ["def ", "if ", "elif ", "else:", "while ", "for "]

def isHeader (row : List Char) : Bool := headerWords.any fun word => word.toList.isPrefixOf (Row.content row)

/-- The first row that is not blank. -/
def firstRow? (rows : List (List Char)) : Option (List Char) := rows.find? fun row => !isBlank row

/-- The rows start with a statement at this column, or with a comment and `pass`. -/
def StartsSuite (column : Nat) : List (List Char) → Prop
  | [] => False
  | row :: after => isBlank row = false ∧ indent row = column ∧
    (isComment row → ∃ next ∈ after.head?, isPass next ∧ indent next = column)

/-- What the rule asks of a row, given the rows behind it. -/
structure Sound (row : List Char) (after : List (List Char)) : Prop where
  level : isBlank row = false → 4 ∣ indent row ∧ (Row.content row).head?.any fun c => !Text.isBlank c
  opens : opensSuite row = true → isHeader row ∧ StartsSuite (indent row + 4) after
  stays : opensSuite row = false → ∀ next ∈ firstRow? after, indent next ≤ indent row

/-- The rows are laid out by the rule, from the left edge on. -/
structure Valid (rows : List (List Char)) : Prop where
  flush : ∀ first ∈ firstRow? rows, indent first = 0
  sound : ∀ row after, row :: after <:+ rows → Sound row after

/-! ### Putting rows together -/

variable {row : List Char} {rows after more : List (List Char)}

theorem mem_firstRow?_append {next : List Char} :
    next ∈ firstRow? (rows ++ more) ↔ next ∈ firstRow? rows ∨ firstRow? rows = none ∧ next ∈ firstRow? more := by
  rw [firstRow?, firstRow?, List.find?_append]
  cases List.find? (fun row => !isBlank row) rows <;> simp [firstRow?]

theorem StartsSuite.append {column : Nat} (h : StartsSuite column rows) (more : List (List Char)) :
    StartsSuite column (rows ++ more) := by
  cases rows with
  | nil => exact h.elim
  | cons row after =>
    obtain ⟨visible, level, pair⟩ := h
    refine ⟨visible, level, fun comment => ?_⟩
    obtain ⟨next, first, pass⟩ := pair comment
    cases after with
    | nil => cases first
    | cons _ _ => exact ⟨next, first, pass⟩

theorem Sound.append (h : Sound row after) (flush : ∀ first ∈ firstRow? more, indent first = 0) :
    Sound row (after ++ more) where
  level := h.level
  opens colon := ⟨(h.opens colon).1, (h.opens colon).2.append more⟩
  stays plain next first := by
    rcases mem_firstRow?_append.mp first with first | ⟨-, first⟩
    · exact h.stays plain next first
    · rw [flush next first]
      exact Nat.zero_le _

/-- All rows are sound. -/
def Laid (rows : List (List Char)) : Prop := ∀ row after, row :: after <:+ rows → Sound row after

theorem laid_nil : Laid [] := by
  intro row after suffix
  cases List.eq_nil_of_suffix_nil suffix

theorem laid_cons : Laid (row :: rows) ↔ Sound row rows ∧ Laid rows := by
  constructor
  · intro h
    exact ⟨h row rows (List.suffix_refl _), fun r after suffix => h r after (suffix.trans (List.suffix_cons row rows))⟩
  · rintro ⟨here, later⟩ r after suffix
    rcases List.suffix_cons_iff.mp suffix with same | suffix
    · obtain ⟨rfl, rfl⟩ := List.cons.inj same
      exact here
    · exact later r after suffix

theorem Laid.append (h : Laid rows) (h' : Laid more) (flush : ∀ first ∈ firstRow? more, indent first = 0) :
    Laid (rows ++ more) := by
  induction rows with
  | nil => exact h'
  | cons row rows ih =>
    obtain ⟨here, later⟩ := laid_cons.mp h
    exact laid_cons.mpr ⟨here.append flush, ih later⟩

theorem Valid.append (h : Valid rows) (h' : Valid more) : Valid (rows ++ more) where
  flush first member := by
    rcases mem_firstRow?_append.mp member with member | ⟨-, member⟩
    · exact h.flush first member
    · exact h'.flush first member
  sound := Laid.append h.sound h'.sound h'.flush

/-! ### Blank rows -/

theorem firstRow?_blank (h : ∀ row ∈ rows, isBlank row) : firstRow? rows = none := by
  rw [firstRow?, List.find?_eq_none]
  intro row member
  simp [h row member]

theorem not_isPass_of_isBlank (h : isBlank row) : isPass row = false := by
  refine decide_eq_false fun pass => ?_
  have member : 'p' ∈ Row.content row := by rw [pass]; decide
  have blank := List.all_eq_true.mp h 'p' ((List.dropWhile_sublist _).mem member)
  exact absurd blank (by decide)

theorem StartsSuite.trim {column : Nat} (blank : ∀ row ∈ more, isBlank row)
    (h : StartsSuite column (rows ++ more)) : StartsSuite column rows := by
  cases rows with
  | nil =>
    cases more with
    | nil => exact h
    | cons row _ =>
      have visible : isBlank row = false := h.1
      rw [blank row List.mem_cons_self] at visible
      cases visible
  | cons row after =>
    obtain ⟨visible, level, pair⟩ := h
    refine ⟨visible, level, fun comment => ?_⟩
    obtain ⟨next, first, pass, column⟩ := pair comment
    cases after with
    | nil =>
      rw [not_isPass_of_isBlank (blank next (List.mem_of_mem_head? first))] at pass
      cases pass
    | cons _ _ => exact ⟨next, first, pass, column⟩

theorem Sound.trim (blank : ∀ row ∈ more, isBlank row) (h : Sound row (after ++ more)) : Sound row after where
  level := h.level
  opens colon := ⟨(h.opens colon).1, (h.opens colon).2.trim blank⟩
  stays plain next first := h.stays plain next (mem_firstRow?_append.mpr (.inl first))

/-- Blank rows at the end may be dropped. -/
theorem Valid.trim (blank : ∀ row ∈ more, isBlank row) (h : Valid (rows ++ more)) : Valid rows where
  flush first member := h.flush first (mem_firstRow?_append.mpr (.inl member))
  sound := by
    have laid : Laid (rows ++ more) := h.sound
    clear h
    induction rows with
    | nil => exact laid_nil
    | cons row rows ih =>
      obtain ⟨here, later⟩ := laid_cons.mp laid
      exact laid_cons.mpr ⟨here.trim blank, ih later⟩

theorem valid_empty (h : ∀ row ∈ rows, row = []) : Valid rows where
  flush first member := by
    rw [firstRow?_blank fun row member => by rw [h row member]; rfl] at member
    cases member
  sound row after suffix := by
    obtain rfl := h row (suffix.mem List.mem_cons_self)
    refine ⟨fun visible => absurd visible (by decide), fun colon => absurd colon (by decide), fun _ next first => ?_⟩
    have nothing : firstRow? after = none := firstRow?_blank fun r member => by
      rw [h r (suffix.mem (List.mem_cons_of_mem _ member))]
      rfl
    rw [nothing] at first
    cases first

/-! ### The layout -/

/-- The output so far, last row first, is valid. -/
structure Output (output : List String) : Prop where
  oneRow : ∀ row ∈ output, OneRow row
  valid : Valid (output.reverse.map String.toList)

/-- Behind valid rows, the items make valid rows. -/
def Keeps (items : List Item) : Prop := ∀ output, Output output → Output (items.foldl Layout.push output)

/-- Settling drops empty rows only. -/
theorem settle_drops (output : List String) : ∃ count, output = List.replicate count "" ++ Layout.settle output := by
  fun_induction Layout.settle output with
  | case1 above rest ih =>
    obtain ⟨count, split⟩ := ih
    exact ⟨count + 1, by rw [List.replicate_succ, List.cons_append, ← split]⟩
  | case2 => exact ⟨0, rfl⟩
  | case3 => exact ⟨0, rfl⟩

theorem Output.settle {output : List String} (h : Output output) : Output (Layout.settle output) := by
  obtain ⟨count, split⟩ := settle_drops output
  constructor
  · intro row member
    exact h.oneRow row (by rw [split]; exact List.mem_append_right _ member)
  · have valid := h.valid
    rw [split, List.reverse_append, List.map_append] at valid
    refine valid.trim fun row member => ?_
    obtain ⟨text, empty, rfl⟩ := List.mem_map.mp member
    rw [List.eq_of_mem_replicate (List.mem_reverse.mp empty)]
    rfl

theorem Output.gap {output : List String} (h : Output output) (count : Nat) :
    Output (List.replicate count "" ++ output) := by
  constructor
  · intro row member
    rcases List.mem_append.mp member with member | member
    · rw [List.eq_of_mem_replicate member]
      decide
    · exact h.oneRow row member
  · rw [List.reverse_append, List.map_append]
    refine h.valid.append (valid_empty fun row member => ?_)
    obtain ⟨text, empty, rfl⟩ := List.mem_map.mp member
    rw [List.eq_of_mem_replicate (List.mem_reverse.mp empty)]
    rfl

namespace Keeps

theorem nil : Keeps [] := fun _ h => h

theorem append {items items' : List Item} (h : Keeps items) (h' : Keeps items') : Keeps (items ++ items') := by
  intro output valid
  rw [List.foldl_append]
  exact h' _ (h output valid)

/-- A gap may follow anything. -/
theorem gap (count : Nat) : Keeps [.gap count] := by
  intro output h
  cases output with
  | nil => exact h
  | cons _ _ => exact h.settle.gap count

theorem lines {ls : List Line} (oneRow : ∀ l ∈ ls, OneRow l.text) (valid : Valid (ls.map rowOf)) :
    Keeps (ls.map .line) := by
  intro output h
  have rows := rows_of_lines oneRow
  rw [push_lines]
  constructor
  · intro row member
    rcases List.mem_append.mp member with member | member
    · have char : row.toList ∈ ls.map rowOf := by
        rw [← rows]
        exact List.mem_map_of_mem (List.mem_reverse.mp member)
      obtain ⟨l, hl, same⟩ := List.mem_map.mp char
      rw [OneRow, ← same]
      exact rowOf_oneRow (oneRow l hl)
    · exact h.oneRow row member
  · rw [List.reverse_append, List.reverse_reverse, List.map_append, rows]
    exact h.valid.append valid

/-- The text of such items is valid. -/
theorem valid_text {items : List Item} (h : Keeps items) : Valid (Text.rows (Layout.text items).toList) := by
  obtain ⟨oneRow, valid⟩ := h [] ⟨List.forall_mem_nil _, valid_empty (List.forall_mem_nil _)⟩
  rw [Layout.text, Layout.rows, rows_join fun row member => oneRow row (List.mem_reverse.mp member)]
  exact valid.append (valid_empty fun row member => List.mem_singleton.mp member)

end Keeps

end Offside
end MiniC
