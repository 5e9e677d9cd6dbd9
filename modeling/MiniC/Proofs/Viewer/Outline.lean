/-
# The syntax tree pane shows the outline

A tree is walked twice: `Node.outline` writes its lines as text, the pane makes a row of
coloured parts for each node. The outline writes a node's label; the pane writes the name
of its kind and what is left of the label behind that, which is the label, since each
label starts with the name of the kind (`Node.label_starts`). Row by row the two say the
same, also where a name with newlines in it makes a line of the outline several lines of
text (`treeRowsAt_text`).

Which rows there are and in which order is said without a walk. A node has a place, the path
of child numbers that leads to it from the root (`Node.follow`). Places have an order, that of
the dictionary, in which a node comes before all below it and a child with all below it before
the next child. The rows are those of the nodes at all places of the tree, each once, in this
order (`treeRowsAt_paths`).

Key definitions: `Node.follow`, `Node.paths`.
Key theorems: `Node.label_starts`, `Node.paths_sorted`, `Node.mem_paths`, `treeRowsAt_text`, `treeRowsAt_length`,
`treeRowsAt_paths`, `tree_pane_outline`.
-/
import MiniC.Node.Outline
import MiniC.Proofs.Size
import MiniC.Proofs.Viewer.Redraw

namespace MiniC

namespace Node

/-! ### Walks through the children -/

/-- What holds of a node if it holds of its children holds of every node. -/
theorem children_induction {motive : Node → Prop}
    (step : ∀ n, (∀ child ∈ n.children, motive child.2) → motive n) (n : Node) : motive n := by
  induction h : sizeOf n using Nat.strongRecOn generalizing n with
  | ind size ih =>
    subst h
    exact step n fun child member => ih (sizeOf child.2) (sizeOf_child member) child.2 rfl

/-- A node counts once, and so does each node below it. -/
theorem size_eq (n : Node) : n.size = sizeAll (n.children.map Prod.snd) + 1 := by
  cases n <;> simp [children, inRole, sizeAll_append, sizeAll_toList, Function.comp_def] <;> omega

/-! ### Places in a tree -/

/-- The node at the end of a path of child numbers, with its role; `role` is that of `n`. -/
def follow (role : Option String) (n : Node) : List Nat → Option (Option String × Node)
  | [] => some (role, n)
  | k :: path => n.children[k]?.bind fun child => follow child.1 child.2 path

/-- The paths to all nodes of the tree. -/
def paths (n : Node) : List (List Nat) :=
  [] :: n.children.attach.zipIdx.flatMap fun child => (paths child.1.1.2).map (child.2 :: ·)
termination_by sizeOf n
decreasing_by exact sizeOf_child child.1.2

theorem paths_eq (n : Node) :
    n.paths = [] :: n.children.zipIdx.flatMap fun child => (paths child.1.2).map (child.2 :: ·) := by
  rw [paths]
  have attached := congrArg List.zipIdx (List.attach_map_subtype_val n.children)
  rw [List.zipIdx_map] at attached
  rw [← attached, List.flatMap_map]
  rfl

/-- The paths come in the order of the dictionary. -/
theorem paths_sorted (n : Node) : n.paths.Pairwise (· < ·) := by
  induction n using children_induction with
  | step n ih =>
    rw [paths_eq, List.pairwise_cons, List.pairwise_flatMap]
    refine ⟨fun path member => ?_, fun child member => ?_, ?_⟩
    · obtain ⟨child, -, inside⟩ := List.mem_flatMap.mp member
      obtain ⟨rest, -, rfl⟩ := List.mem_map.mp inside
      exact List.nil_lt_cons _ _
    · rw [List.pairwise_map]
      refine (ih child.1 (List.fst_mem_of_mem_zipIdx member)).imp fun {p q} before => ?_
      exact List.cons_lt_cons_iff.mpr (.inr ⟨rfl, before⟩)
    · have numbered : n.children.zipIdx.Pairwise fun child later => child.2 < later.2 :=
        List.pairwise_map.mp (List.zipIdx_map_snd 0 n.children ▸ List.pairwise_lt_range')
      refine numbered.imp fun before p hp q hq => ?_
      obtain ⟨p, -, rfl⟩ := List.mem_map.mp hp
      obtain ⟨q, -, rfl⟩ := List.mem_map.mp hq
      exact List.cons_lt_cons_iff.mpr (.inl before)

/-- Each place has its path. -/
theorem mem_paths (role : Option String) (n : Node) (path : List Nat) :
    path ∈ n.paths ↔ (n.follow role path).isSome := by
  induction path generalizing role n with
  | nil =>
    rw [paths_eq]
    simp [follow]
  | cons k path ih =>
    rw [paths_eq, follow, Option.isSome_bind, Option.any_eq_true]
    simp only [List.mem_cons, reduceCtorEq, false_or, List.mem_flatMap, List.mem_map, List.cons.injEq]
    constructor
    · rintro ⟨child, member, rest, inside, rfl, rfl⟩
      exact ⟨child.1, List.mem_zipIdx_iff_getElem?.mp member, (ih child.1.1 child.1.2).mp inside⟩
    · rintro ⟨child, found, leads⟩
      exact ⟨(child, k), List.mem_zipIdx_iff_getElem?.mpr found, path, (ih child.1 child.2).mpr leads, rfl, rfl⟩

end Node

/-! ### Labels -/

theorem Text.append_behind? {start text : String} (h : start.toList.isPrefixOf text.toList) :
    start ++ (Text.behind? start text).getD "" = text := by
  obtain ⟨rest, split⟩ := List.isPrefixOf_iff_prefix.mp h
  rw [Text.behind?, if_pos h, Option.getD_some, ← split, List.drop_left, ← String.toList_inj, String.toList_append,
    String.toList_ofList, split]

/-- A longer text starts as the shorter one does. -/
theorem starts_of_append {start text : String} (h : start.toList.isPrefixOf text.toList) (more : String) :
    start.toList.isPrefixOf (text ++ more).toList := by
  rw [List.isPrefixOf_iff_prefix, String.toList_append]
  exact (List.isPrefixOf_iff_prefix.mp h).trans (List.prefix_append _ _)

/-- **Each label starts with the name of the kind.** -/
theorem Node.label_starts (n : Node) : n.kindName.toList.isPrefixOf n.label.toList := by
  -- the label is left folded, since its equations are slow to come by
  cases n <;> simp only [kindName]
  case branch | whileLoop | forLoop | ret => exact List.isPrefixOf_iff_prefix.mpr List.prefix_rfl
  case function | binary | unary | identifier => exact starts_of_append (by decide) _
  case program | inclusion | printf | scanf | block => exact starts_of_append (starts_of_append (by decide) _) _
  case declare | assign => exact starts_of_append (starts_of_append (starts_of_append (by decide) _) _) _
  case call => exact starts_of_append (starts_of_append (starts_of_append (starts_of_append (by decide) _) _) _) _
  case literal value kind _ =>
    cases kind with
    | int | float => exact starts_of_append (by decide) _
    | string => exact starts_of_append (starts_of_append (by decide) _) _

/-! ### The rows of the pane -/

section

variable (depth : Nat) (role : Option String) (n : Node)

theorem treeRowsAt_eq :
    treeRowsAt depth role n =
      treeRow depth role n :: n.children.flatMap fun child => treeRowsAt (depth + 1) child.1 child.2 := by
  rw [treeRowsAt]
  simp only [List.flatMap_subtype, List.unattach_attach]

theorem outlineAt_eq :
    n.outlineAt depth role =
      String.ofList (List.replicate (2 * depth) ' ') ++ (role.elim "" (· ++ ": ")) ++ n.label ++ "\n" ++
        String.join (n.children.map fun child => child.2.outlineAt (depth + 1) child.1) := by
  rw [Node.outlineAt.eq_def]
  simp only [List.map_subtype, List.unattach_attach]
  cases role <;> rfl

/-- The text of a row, as a line. -/
def rowLine (row : List Span) : String := String.join (row.map Span.text) ++ "\n"

theorem treeRow_text :
    rowLine (treeRow depth role n) =
      String.ofList (List.replicate (2 * depth) ' ') ++ (role.elim "" (· ++ ": ")) ++ n.label ++ "\n" := by
  have label := Text.append_behind? n.label_starts
  unfold treeRow
  generalize (Text.behind? n.kindName n.label).getD "" = rest at label ⊢
  rw [← label]
  cases role <;> simp [rowLine, String.append_assoc]

end

theorem join_flatMap {α : Type} (l : List α) (f : α → List String) :
    String.join (l.flatMap f) = String.join (l.map fun a => String.join (f a)) := by
  induction l with
  | nil => rfl
  | cons a l ih => simp [ih]

/-- The rows of a tree are the lines of its outline. -/
theorem treeRowsAt_text (depth : Nat) (role : Option String) (n : Node) :
    String.join ((treeRowsAt depth role n).map rowLine) = n.outlineAt depth role := by
  induction n using Node.children_induction generalizing depth role with
  | step n ih =>
    have below : String.join ((n.children.flatMap fun child => treeRowsAt (depth + 1) child.1 child.2).map rowLine) =
        String.join (n.children.map fun child => child.2.outlineAt (depth + 1) child.1) := by
      rw [List.map_flatMap, join_flatMap]
      exact congrArg String.join (List.map_congr_left fun child member => ih child member (depth + 1) child.1)
    rw [treeRowsAt_eq, List.map_cons, String.join_cons, treeRow_text, below, outlineAt_eq]

/-- There are as many rows as nodes. -/
theorem treeRowsAt_length (depth : Nat) (role : Option String) (n : Node) :
    (treeRowsAt depth role n).length = n.size := by
  induction n using Node.children_induction generalizing depth role with
  | step n ih =>
    rw [treeRowsAt_eq, List.length_cons, Node.size_eq]
    generalize n.children = children at ih
    induction children with
    | nil => rfl
    | cons child children more =>
      have rest := more fun other member => ih other (List.mem_cons_of_mem _ member)
      rw [List.flatMap_cons, List.length_append, ih child List.mem_cons_self, List.map_cons, Node.sizeAll]
      omega

/-- The row of the node that a path leads to. -/
def rowAt (depth : Nat) (role : Option String) (n : Node) (path : List Nat) : Option (List Span) :=
  (n.follow role path).map fun found => treeRow (depth + path.length) found.1 found.2

theorem rowAt_cons {n : Node} {k : Nat} {child : Option String × Node} (found : n.children[k]? = some child)
    (depth : Nat) (role : Option String) (path : List Nat) :
    rowAt depth role n (k :: path) = rowAt (depth + 1) child.1 child.2 path := by
  rw [rowAt, rowAt, Node.follow, found, Option.bind_some, List.length_cons, Nat.add_assoc, Nat.add_comm 1]

/-- The rows are those of the nodes at the paths of the tree, in their order. -/
theorem treeRowsAt_paths (depth : Nat) (role : Option String) (n : Node) :
    treeRowsAt depth role n = n.paths.filterMap (rowAt depth role n) := by
  induction n using Node.children_induction generalizing depth role with
  | step n ih =>
    have below : ∀ child ∈ n.children.zipIdx, treeRowsAt (depth + 1) child.1.1 child.1.2 =
        (child.1.2.paths.map (child.2 :: ·)).filterMap (rowAt depth role n) := by
      intro child member
      have here := rowAt_cons (List.mem_zipIdx_iff_getElem?.mp member) depth role
      rw [List.filterMap_map, ih child.1 (List.fst_mem_of_mem_zipIdx member)]
      exact congrArg (List.filterMap · _) (funext fun path => (here path).symm)
    have first : rowAt depth role n [] = some (treeRow depth role n) := rfl
    rw [treeRowsAt_eq, Node.paths_eq, List.filterMap_cons_some first, List.filterMap_flatMap]
    refine congrArg _ ?_
    calc n.children.flatMap (fun child => treeRowsAt (depth + 1) child.1 child.2)
        = (n.children.zipIdx.map Prod.fst).flatMap fun child => treeRowsAt (depth + 1) child.1 child.2 := by
          rw [List.zipIdx_map_fst]
      _ = n.children.zipIdx.flatMap fun child => treeRowsAt (depth + 1) child.1.1 child.1.2 := List.flatMap_map _ _ _
      _ = n.children.zipIdx.flatMap fun child =>
            (child.1.2.paths.map (child.2 :: ·)).filterMap (rowAt depth role n) := by
          rw [List.flatMap_def, List.map_congr_left below, ← List.flatMap_def]

/-! ### The pane -/

/-- Each row is shown at an offset that the pane keeps. -/
theorem clampOffset_shows {rows visible k : Nat} (some : 0 < visible) (h : k < rows) :
    clampOffset rows visible k ≤ k ∧ k < clampOffset rows visible k + visible := by
  unfold clampOffset
  split <;> omega

/-- **The syntax tree pane shows the outline.** For every tree, on every terminal, -/
theorem tree_pane_outline (σ : Type) [Terminal σ] (root : Node) :
    -- its rows are the lines of the outline, and there is one for each node
    String.join ((treeRows root).map fun row => String.join (row.map Span.text) ++ "\n") = root.outline ∧
    (treeRows root).length = root.size ∧
    -- they are those of the nodes at all places of the tree, each once and in order
    treeRows root = root.paths.filterMap (rowAt 0 none root) ∧
    root.paths.Pairwise (· < ·) ∧ (∀ path, path ∈ root.paths ↔ (root.follow none path).isSome) ∧
    -- the pane scrolls over as many rows as there are nodes, and to each of them
    ∀ (s : σ) a focused offset, (drawTree s a focused root offset).2 = clampOffset root.size (visibleHeight a) offset ∧
      ∀ k < root.size, ∃ offset ≤ k, (drawTree s a focused root offset).2 = offset ∧
        (window (treeRows root) (visibleHeight a) offset)[k - offset]? = (treeRows root)[k]? := by
  have length : (treeRows root).length = root.size := treeRowsAt_length 0 none root
  have scrolled (s : σ) (a : Area) (focused : Bool) (offset : Nat) :
      (drawTree s a focused root offset).2 = clampOffset root.size (visibleHeight a) offset := by
    rw [← length]
    rfl
  refine ⟨treeRowsAt_text 0 none root, length, treeRowsAt_paths 0 none root, root.paths_sorted,
    root.mem_paths none, fun s a focused offset => ⟨scrolled s a focused offset, fun k hk => ?_⟩⟩
  have visible : 0 < visibleHeight a := Nat.lt_of_lt_of_le Nat.zero_lt_one (Nat.le_max_right _ _)
  obtain ⟨le, lt⟩ := clampOffset_shows visible hk
  refine ⟨clampOffset root.size (visibleHeight a) k, le, ?_, ?_⟩
  · rw [scrolled, clampOffset_clampOffset]
  · rw [window, List.getElem?_take_of_lt (by omega), List.getElem?_drop, Nat.add_sub_cancel' le]

/-- A name with a newline in it: two nodes and two rows, but three lines of text. -/
def splitName : Node := .ret (some (.identifier "a\nb" .start)) .start

theorem tree_pane_outline_splitName :
    1 < splitName.size ∧ (treeRows splitName).length = 2 ∧
      String.join ((treeRows splitName).map fun row => String.join (row.map Span.text) ++ "\n") =
        "ReturnStatement\n  value: Identifier a\nb\n" ∧
      ∃ offset ≤ 1, (drawTree (Screen.blank 20 3) ⟨0, 0, 20, 3⟩ true splitName offset).2 = offset ∧
        (window (treeRows splitName) 1 offset)[1 - offset]? = (treeRows splitName)[1]? := by
  obtain ⟨text, length, -, -, -, pane⟩ := tree_pane_outline Screen splitName
  have size : splitName.size = 2 := by decide
  have more : 1 < splitName.size := by decide
  exact ⟨more, length.trans size, text.trans (by decide +kernel), (pane _ _ true 0).2 1 more⟩

end MiniC
