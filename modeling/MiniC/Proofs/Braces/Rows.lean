/-
# Braces and indentation

Where blocks stand between braces, a text is read row by row with a counter: a closing
brace in front of a row takes one off before the row is read, and an opening brace at
its end puts one on behind it. The text is well bracketed if the counter is never
negative, if each row that is not blank is indented by four spaces for each level, and
if the class that is opened first is closed by the last row and not before
(`Braces.Bracketed`).

Lines of code lead from one level to another. `Steps` puts such lines together, with
the level that none of them goes below, and `Walk` is what it says of the rows. A layout
does nothing but make the blank rows it is asked for, as long as every gap stands behind
a row that is not empty (`rows_of_spaced`); `Framed` is all this for lines and gaps.

Key definitions: `Item.rows`, `Spaced`, `Braces.count`, `Braces.Bracketed`, `Braces.Walk`,
`Braces.Edges`, `Braces.Steps`, `Braces.Framed`.
Key theorems: `rows_of_spaced`, `lines_of_rows`, `Braces.Walk.read`, `Braces.Walk.low_le`,
`Braces.Steps.enclosed`, `Braces.Framed.text_lines`, `Braces.Bracketed.of_walk`.
-/
import MiniC.Emit.Java
import MiniC.Proofs.Emission.Rows

namespace MiniC

/-! ### Gaps -/

/-- The rows that an item makes behind a row that is not empty. -/
def Item.rows : Item → List String
  | .line l => l.rows
  | .gap count => List.replicate count ""

/-- The last row that the line makes is not empty. -/
def Line.EndsVisibly (l : Line) : Prop := l.rows.getLast?.any (· ≠ "")

/-- Every gap stands right behind a line, or at the start if `above` says so. -/
def Spaced : Bool → List Item → Prop
  | _, [] => True
  | _, .line l :: items => l.EndsVisibly ∧ Spaced true items
  | above, .gap _ :: items => above = true ∧ Spaced false items

theorem Spaced.lines {ls : List Line} {tail : List Item} {above : Bool} (visible : ∀ l ∈ ls, l.EndsVisibly)
    (rest : Spaced (above || !ls.isEmpty) tail) : Spaced above (ls.map .line ++ tail) := by
  induction ls generalizing above with
  | nil => simpa using rest
  | cons l ls ih =>
    obtain ⟨here, later⟩ := List.forall_mem_cons.mp visible
    exact ⟨here, ih later (by simpa using rest)⟩

theorem settle_visible {output : List String} (h : output.head?.any (· ≠ "")) : Layout.settle output = output := by
  unfold Layout.settle
  split
  · next row _ _ => exact if_neg (by simpa using h)
  · rfl

/-- A gap behind a visible row makes the blank rows that it asks for. -/
theorem push_spaced {items : List Item} {above : Bool} (h : Spaced above items) {output : List String}
    (visible : above = true → output.head?.any (· ≠ "")) :
    items.foldl Layout.push output = (items.flatMap Item.rows).reverse ++ output := by
  induction items generalizing above output with
  | nil => rfl
  | cons item items ih =>
    rw [List.foldl_cons, List.flatMap_cons, List.reverse_append, List.append_assoc]
    cases item with
    | line l =>
      refine ih h.2 fun _ => ?_
      have last : l.rows.reverse.head?.any (· ≠ "") := by
        rw [List.head?_reverse]
        exact h.1
      obtain ⟨row, first, shown⟩ := (Option.any_eq_true _ _).mp last
      rw [Layout.push, List.head?_append, first]
      exact shown
    | gap count =>
      have pushed : Layout.push output (.gap count) = List.replicate count "" ++ output := by
        have shown := visible h.1
        cases output with
        | nil => cases shown
        | cons row rest =>
          show List.replicate count "" ++ Layout.settle (row :: rest) = _
          rw [settle_visible shown]
      rw [pushed, Item.rows, List.reverse_replicate]
      exact ih h.2 (by simp)

theorem rows_of_spaced {items : List Item} (h : Spaced false items) : Layout.rows items = items.flatMap Item.rows := by
  rw [Layout.rows, push_spaced h (by simp), List.append_nil, List.reverse_reverse]

theorem linesOfRows_closed {rows : List (List Char)} (h : ∀ row ∈ rows, row.getLast? ≠ some '\r') :
    Text.linesOfRows (rows ++ [[]]) = rows := by
  induction rows with
  | nil => rfl
  | cons row rows ih =>
    obtain ⟨here, later⟩ := List.forall_mem_cons.mp h
    have same : Text.dropReturn row = row := if_neg here
    have step : Text.linesOfRows (row :: (rows ++ [[]])) = Text.dropReturn row :: Text.linesOfRows (rows ++ [[]]) := by
      cases rows <;> rfl
    rw [List.cons_append, step, same, ih later]

/-- The row is read back as it is from a text where a newline ends it. -/
def Whole (row : String) : Prop := OneRow row ∧ row.toList.getLast? ≠ some '\r'

theorem whole_blank (count : Nat) : ∀ row ∈ List.replicate count "", Whole row := by
  intro row member
  rw [List.eq_of_mem_replicate member]
  exact ⟨by decide, by decide⟩

/-- The lines of rows that are ended by newlines are these rows. -/
theorem lines_of_rows {rows : List String} (h : ∀ row ∈ rows, Whole row) :
    (Text.lines (String.join (rows.map fun row => row ++ "\n"))).map String.toList = rows.map String.toList := by
  have closed := linesOfRows_closed (List.forall_mem_map.mpr fun row member => (h row member).2)
  rw [Text.lines, rows_join fun row member => (h row member).1, closed, List.map_map]
  simp

namespace Braces

open Row (isBlank indent)

/-! ### The rule -/

/-- A closing brace stands in front. -/
def closes (row : List Char) : Bool := (Row.content row).head? = some '\x7d'

/-- An opening brace stands at the end. -/
def opens (row : List Char) : Bool := row.getLast? = some '\x7b'

/-- The counter at a row, from the counter before it. -/
def level (k : Int) (row : List Char) : Int := if closes row then k - 1 else k

/-- The counter behind a row. -/
def behind (k : Int) (row : List Char) : Int := if opens row then level k row + 1 else level k row

/-- The counter behind some rows. -/
def count (rows : List (List Char)) : Int := rows.foldl behind 0

def classRow : List Char := "public class Main \x7b".toList

def closingRow : List Char := "\x7d".toList

/-- The rows are one class, indented by its braces. -/
structure Bracketed (rows : List (List Char)) : Prop where
  levels : ∀ before row after, rows = before ++ row :: after → 0 ≤ level (count before) row ∧
    (isBlank row = false → (indent row : Int) = 4 * level (count before) row)
  whole : ∃ header members, rows = header ++ classRow :: members ++ [closingRow] ∧
    (∀ part, part <+: header → count part = 0) ∧
    (∀ part, part <+: members → 0 < count (header ++ classRow :: part)) ∧ count rows = 0

/-! ### Rows from one level to another -/

/-- Read from the counter `k` the rows leave it at `k'`. Those that are not blank are
indented by it, and it never goes below `low`. -/
inductive Walk (low : Int) : Int → List (List Char) → Int → Prop
  | nil {k : Int} : Walk low k [] k
  | cons {k k' : Int} {row : List Char} {rows : List (List Char)} : low ≤ level k row →
    (isBlank row = false → (indent row : Int) = 4 * level k row) → Walk low (behind k row) rows k' →
    Walk low k (row :: rows) k'

theorem level_le_behind (k : Int) (row : List Char) : level k row ≤ behind k row := by
  unfold behind
  split <;> omega

namespace Walk

variable {low k m k' : Int} {rows more : List (List Char)}

theorem append (h : Walk low k rows m) (h' : Walk low m more k') : Walk low k (rows ++ more) k' := by
  induction h with
  | nil => exact h'
  | cons above indented _ ih => exact .cons above indented (ih h')

theorem mono {low' : Int} (h : Walk low k rows k') (le : low' ≤ low) : Walk low' k rows k' := by
  induction h with
  | nil => exact .nil
  | cons above indented _ ih => exact .cons (by omega) indented ih

theorem foldl (h : Walk low k rows k') : rows.foldl behind k = k' := by
  induction h with
  | nil => rfl
  | cons _ _ _ ih => exact ih

/-- Each row on the way is at its level. -/
theorem read (h : Walk low k rows k') {before after : List (List Char)} {row : List Char}
    (split : rows = before ++ row :: after) : low ≤ level (before.foldl behind k) row ∧
      (isBlank row = false → (indent row : Int) = 4 * level (before.foldl behind k) row) := by
  induction h generalizing before with
  | nil => simp at split
  | cons above indented _ ih =>
    cases before with
    | nil =>
      obtain ⟨rfl, -⟩ := List.cons.inj split
      exact ⟨above, indented⟩
    | cons first before =>
      obtain ⟨rfl, rest⟩ := List.cons.inj split
      exact ih rest

/-- The counter is never below `low` if it does not start there. -/
theorem low_le (h : Walk low k rows k') (start : low ≤ k) {part : List (List Char)} (hpart : part <+: rows) :
    low ≤ part.foldl behind k := by
  induction h generalizing part with
  | nil => rwa [List.prefix_nil.mp hpart]
  | @cons k _ row rows above _ _ ih =>
    rcases List.prefix_cons_iff.mp hpart with rfl | ⟨part, rfl, inside⟩
    · exact start
    · exact ih (Int.le_trans above (level_le_behind k row)) inside

theorem blank (n : Nat) (start : low ≤ k) : Walk low k (List.replicate n []) k := by
  induction n with
  | zero => exact .nil
  | succ n ih => exact .cons start (fun visible => absurd visible (by decide)) ih

end Walk

/-! ### Lines from one level to another -/

/-- A row may start with this character, a closing brace or not. -/
def front (closing : Bool) (c : Char) : Bool := !Text.isBlank c && (c == '\x7d') == closing

/-- A row may end with this character, an opening brace or not. -/
def back (opening : Bool) (c : Char) : Bool := c != '\r' && (c == '\x7b') == opening

/-- The text stands on one row, with a closing brace in front if `closing` holds, and an
opening one at its end if `opening` does. -/
structure Edges (closing opening : Bool) (text : String) : Prop where
  oneRow : OneRow text
  starts : text.toList.head?.any (front closing)
  ends : text.toList.getLast?.any (back opening)

namespace Edges

variable {closing opening : Bool} {text : String}

theorem join {a b : String} (ha : OneRow a ∧ a.toList.head?.any (front closing))
    (hb : OneRow b ∧ b.toList.getLast?.any (back opening)) : Edges closing opening (a ++ b) where
  oneRow := oneRow_append.mpr ⟨ha.1, hb.1⟩
  starts := starts_append ha.2 b
  ends := ends_append hb.2 a

theorem enclose {a b mid : String} (ha : OneRow a ∧ a.toList.head?.any (front closing)) (hmid : OneRow mid)
    (hb : OneRow b ∧ b.toList.getLast?.any (back opening)) : Edges closing opening (a ++ mid ++ b) :=
  .join ⟨oneRow_append.mpr ⟨ha.1, hmid⟩, starts_append ha.2 mid⟩ hb

theorem visible (h : Edges closing opening text) : text.toList.head?.any fun c => !Text.isBlank c := by
  obtain ⟨c, first, edge⟩ := (Option.any_eq_true _ _).mp h.starts
  rw [first]
  exact (Bool.and_eq_true_iff.mp edge).1

theorem ne_empty (h : Edges closing opening text) : text.toList ≠ [] := by
  intro empty
  have starts := h.starts
  rw [empty] at starts
  cases starts

theorem closes (h : Edges closing opening text) (depth : Nat) : closes (rowOf ⟨depth, text⟩) = closing := by
  obtain ⟨c, first, edge⟩ := (Option.any_eq_true _ _).mp h.starts
  have brace : (c == '\x7d') = closing := by simpa using (Bool.and_eq_true_iff.mp edge).2
  rw [Braces.closes, (rowOf_spec depth text h.visible).content, first, ← brace]
  simp only [Option.some.injEq, beq_eq_decide]

theorem opens (h : Edges closing opening text) (depth : Nat) : opens (rowOf ⟨depth, text⟩) = opening := by
  obtain ⟨c, last, edge⟩ := (Option.any_eq_true _ _).mp h.ends
  have brace : (c == '\x7b') = opening := by simpa using (Bool.and_eq_true_iff.mp edge).2
  rw [Braces.opens, (rowOf_spec depth text h.visible).last, last, ← brace]
  simp only [Option.some.injEq, beq_eq_decide]

theorem noReturn (h : Edges closing opening text) (depth : Nat) : (rowOf ⟨depth, text⟩).getLast? ≠ some '\r' := by
  obtain ⟨c, last, edge⟩ := (Option.any_eq_true _ _).mp h.ends
  rw [(rowOf_spec depth text h.visible).last, last]
  rintro ⟨⟩
  cases edge

theorem walk (h : Edges closing opening text) (depth : Nat) :
    Walk depth (depth + closing.toNat) [rowOf ⟨depth, text⟩] (depth + opening.toNat) := by
  have here : level (depth + closing.toNat) (rowOf ⟨depth, text⟩) = depth := by
    rw [level, h.closes]
    cases closing <;> simp
  have next : behind (depth + closing.toNat) (rowOf ⟨depth, text⟩) = depth + opening.toNat := by
    rw [behind, h.opens, here]
    cases opening <;> simp
  refine .cons (Int.le_of_eq here.symm) (fun _ => ?_) (next ▸ .nil)
  rw [here, (rowOf_spec depth text h.visible).indent]
  simp

end Edges

/-- The lines lead from the level `k` to the level `k'`, and none of them stands further
out than `low`. -/
inductive Steps (low : Nat) : Nat → List Line → Nat → Prop
  | nil {k : Nat} : Steps low k [] k
  | line {depth k' : Nat} {closing opening : Bool} {text : String} {rest : List Line} : Edges closing opening text →
    low ≤ depth → Steps low (depth + opening.toNat) rest k' →
    Steps low (depth + closing.toNat) (⟨depth, text⟩ :: rest) k'

namespace Steps

variable {low k m k' : Nat} {ls ms : List Line}

theorem append (h : Steps low k ls m) (h' : Steps low m ms k') : Steps low k (ls ++ ms) k' := by
  induction h with
  | nil => exact h'
  | line edges above _ ih => exact .line edges above (ih h')

theorem mono {low' : Nat} (h : Steps low k ls k') (le : low' ≤ low) : Steps low' k ls k' := by
  induction h with
  | nil => exact .nil
  | line edges above _ ih => exact .line edges (by omega) ih

theorem edges (h : Steps low k ls k') : ∀ l ∈ ls, ∃ closing opening, Edges closing opening l.text := by
  induction h with
  | nil => simp
  | line edges _ _ ih => exact List.forall_mem_cons.mpr ⟨⟨_, _, edges⟩, ih⟩

theorem low_le (h : Steps low k ls k') : ∀ l ∈ ls, low ≤ l.depth := by
  induction h with
  | nil => simp
  | line _ above _ ih => exact List.forall_mem_cons.mpr ⟨above, ih⟩

theorem walk (h : Steps low k ls k') : Walk low k (ls.map rowOf) k' := by
  induction h with
  | nil => exact .nil
  | line edges above _ ih => exact ((edges.walk _).mono (by omega)).append (by simpa using ih)

/-- A line that neither opens nor closes. -/
theorem plain {depth : Nat} {text : String} (h : Edges false false text) : Steps depth depth [⟨depth, text⟩] depth :=
  .line h (Nat.le_refl depth) .nil

theorem texts {depth : Nat} {texts : List String} (h : ∀ text ∈ texts, Edges false false text) :
    Steps depth depth (atDepth depth texts) depth := by
  induction texts with
  | nil => exact .nil
  | cons text texts ih =>
    obtain ⟨here, later⟩ := List.forall_mem_cons.mp h
    exact (plain here).append (ih later)

/-- A line that closes and opens again, and what it opens. -/
theorem between {depth : Nat} {text : String} (h : Edges true true text)
    (inside : Steps depth (depth + 1) ls (depth + 1)) : Steps depth (depth + 1) (⟨depth, text⟩ :: ls) (depth + 1) :=
  .line h (Nat.le_refl depth) inside

theorem closingEdges : Edges true false "\x7d" := ⟨by decide, rfl, rfl⟩

/-- Lines between a header and its closing brace. -/
theorem enclosed {depth : Nat} {head : String} (h : Edges false true head)
    (inside : Steps depth (depth + 1) ls (depth + 1)) :
    Steps depth depth (⟨depth, head⟩ :: ls ++ [⟨depth, "\x7d"⟩]) depth := by
  have last : Steps depth (depth + 1) [⟨depth, "\x7d"⟩] depth := .line closingEdges (Nat.le_refl depth) .nil
  exact .line h (Nat.le_refl depth) (inside.append last)

end Steps

/-! ### Items from one level to another -/

theorem Edges.endsVisibly {closing opening : Bool} {text : String} (h : Edges closing opening text) (depth : Nat) :
    Line.EndsVisibly ⟨depth, text⟩ := by
  obtain ⟨row, single, chars⟩ := List.map_eq_singleton_iff.mp (rows_of_line (l := ⟨depth, text⟩) h.oneRow)
  have visible : row ≠ "" := by
    rintro rfl
    exact h.ne_empty (List.append_eq_nil_iff.mp chars.symm).2
  rw [Line.EndsVisibly, single]
  simpa using visible

theorem Steps.endsVisibly {low k k' : Nat} {ls : List Line} (h : Steps low k ls k') : ∀ l ∈ ls, l.EndsVisibly := by
  intro l hl
  obtain ⟨_, _, edges⟩ := h.edges l hl
  exact edges.endsVisibly l.depth

/-- The rows of items with nothing to settle. -/
def itemRows (items : List Item) : List (List Char) := (items.flatMap Item.rows).map String.toList

theorem itemRows_append (items more : List Item) : itemRows (items ++ more) = itemRows items ++ itemRows more := by
  rw [itemRows, List.flatMap_append, List.map_append]
  rfl

theorem Steps.itemRows_lines {low k k' : Nat} {ls : List Line} (h : Steps low k ls k') :
    itemRows (ls.map .line) = ls.map rowOf := by
  rw [itemRows, List.flatMap_map]
  refine rows_of_lines fun l hl => ?_
  obtain ⟨_, _, edges⟩ := h.edges l hl
  exact edges.oneRow

/-- The items make rows that lead from the level `k` to the level `k'`, and each gap
among them stands behind a line. -/
structure Framed (low k : Int) (items : List Item) (k' : Int) : Prop where
  whole : ∀ row ∈ items.flatMap Item.rows, Whole row
  spaced : ∀ tail, (∀ above, Spaced above tail) → ∀ above, Spaced above (items ++ tail)
  walk : Walk low k (itemRows items) k'

namespace Framed

theorem nil {low k : Int} : Framed low k [] k := ⟨List.forall_mem_nil _, fun _ h => h, .nil⟩

theorem append {low k m k' : Int} {items more : List Item} (h : Framed low k items m) (h' : Framed low m more k') :
    Framed low k (items ++ more) k' where
  whole := by
    rw [List.flatMap_append]
    exact List.forall_mem_append.mpr ⟨h.whole, h'.whole⟩
  spaced tail rest above := by
    rw [List.append_assoc]
    exact h.spaced _ (h'.spaced tail rest) above
  walk := by
    rw [itemRows_append]
    exact h.walk.append h'.walk

theorem mono {low low' k k' : Int} {items : List Item} (h : Framed low k items k') (le : low' ≤ low) :
    Framed low' k items k' :=
  ⟨h.whole, h.spaced, h.walk.mono le⟩

theorem lines {low k k' : Nat} {ls : List Line} (h : Steps low k ls k') : Framed low k (ls.map .line) k' := by
  have chars := h.itemRows_lines
  refine ⟨fun row member => ?_, fun tail rest above => .lines h.endsVisibly (rest _), chars ▸ h.walk⟩
  have inside : row.toList ∈ ls.map rowOf := chars ▸ List.mem_map_of_mem member
  obtain ⟨l, hl, same⟩ := List.mem_map.mp inside
  obtain ⟨_, _, edges⟩ := h.edges l hl
  rw [Whole, OneRow, ← same]
  exact ⟨rowOf_oneRow edges.oneRow, edges.noReturn l.depth⟩

/-- Lines with a gap behind them. -/
theorem linesGap {low k k' : Nat} {ls : List Line} (h : Steps low k ls k') (some : ls ≠ []) (above : low ≤ k')
    (count : Nat) : Framed low k (ls.map .line ++ [.gap count]) k' := by
  have framed := lines h
  have blank : [Item.gap count].flatMap Item.rows = List.replicate count "" := by simp [Item.rows]
  refine ⟨?_, fun tail rest above => ?_, ?_⟩
  · rw [List.flatMap_append, blank]
    exact List.forall_mem_append.mpr ⟨framed.whole, whole_blank count⟩
  · rw [List.append_assoc]
    exact .lines h.endsVisibly ⟨by simp [some], rest false⟩
  · have rows : itemRows [.gap count] = List.replicate count [] := by
      rw [itemRows, blank, List.map_replicate]
      rfl
    rw [itemRows_append, rows]
    exact framed.walk.append (.blank count (by omega))

/-- The lines of the text of such items are their rows. -/
theorem text_lines {low k k' : Int} {items : List Item} (h : Framed low k items k') :
    (Text.lines (Layout.text items)).map String.toList = itemRows items := by
  have spaced : Spaced false items := by simpa using h.spaced [] (fun _ => trivial) false
  rw [Layout.text, rows_of_spaced spaced, lines_of_rows h.whole]
  rfl

end Framed

/-! ### The class as a whole -/

theorem count_append (rows more : List (List Char)) : count (rows ++ more) = more.foldl behind (count rows) :=
  List.foldl_append

/-- Rows at the left edge, then a class around its members. -/
theorem Bracketed.of_walk {header members : List (List Char)} (outside : Walk 0 0 header 0)
    (flat : ∀ part, part <+: header → count part = 0) (inside : Walk 1 1 members 1) :
    Bracketed (header ++ classRow :: members ++ [closingRow]) := by
  have opened : Walk 0 0 [classRow] 1 := .cons (by decide) (fun _ => by decide) .nil
  have closed : Walk 0 1 [closingRow] 0 := .cons (by decide) (fun _ => by decide) .nil
  have walk : Walk 0 0 (header ++ classRow :: members ++ [closingRow]) 0 :=
    (outside.append (opened.append (inside.mono (by decide)))).append closed
  refine ⟨fun before row after split => walk.read split, header, members, rfl, flat, ?_, walk.foldl⟩
  intro part hpart
  have positive : 1 ≤ part.foldl behind 1 := inside.low_le (Int.le_refl 1) hpart
  have start : count (header ++ [classRow]) = 1 := by
    rw [count_append, flat header (List.prefix_refl header)]
    exact opened.foldl
  rw [← List.singleton_append, ← List.append_assoc, count_append, start]
  omega

end Braces

end MiniC
