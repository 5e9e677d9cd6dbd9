/-
# The top level of a program in the typed language

Each function of the top level becomes a method of the class and each variable a field.
The statements between them are taken together: a run of them that nothing but
inclusions and prototypes interrupts becomes one initializer. `Parted` says which parts
these are without saying how they are found; there is one such partition
(`parted_iff`), and the members of the class are its parts in order (`members_of_parted`).

On the page the members stand one below the other. A blank row comes between two of them
unless both are fields, and it is one row wherever it stands, since a member never ends
in a blank row (`lastRow_visible`). What is initialized when the class is loaded, fields
and initializers, comes in the order of the source.

Key definitions: `Java.Parted`, `Java.partLines`, `Java.classRows`, `Java.programRows`.
Key theorems: `Java.parted_iff`, `Java.members_of_parted`, `Java.memberItems_rows`, `Java.program_parted`.
-/
import Mathlib.Data.List.SplitBy
import MiniC.Proofs.Braces.Program
import MiniC.Proofs.Emission.Lines

namespace MiniC
namespace Java

/-! ### Parts -/

/-- The node is written at the top level; inclusions and prototypes are not. -/
def isKept : Node → Bool
  | .inclusion .. => false
  | .function header _ _ => !header.isPrototype
  | _ => true

/-- The node is run when the class is loaded. -/
def isStatic : Node → Bool
  | .inclusion .. | .function .. => false
  | _ => true

/-- What is kept of the top level, in order, cut into single functions, single variables
and runs of statements as long as possible. -/
structure Parted (body : List Node) (parts : List (List Node)) : Prop where
  content : parts.flatten = body.filter isKept
  formed : ∀ part ∈ parts, (∃ n, part = [n] ∧ isLoose n = false) ∨ (part ≠ [] ∧ ∀ n ∈ part, isLoose n)
  maximal : parts.IsChain fun part next => (∀ n ∈ part, isLoose n) → ¬∀ n ∈ next, isLoose n

/-- Two neighbours belong to one run. -/
def joins (n next : Node) : Bool := isLoose n && isLoose next

theorem all_loose_of_chain {part : List Node} (h : part.IsChain fun n next => joins n next)
    (several : part.tail ≠ []) : ∀ n ∈ part, isLoose n := by
  induction h with
  | nil => simp
  | singleton => simp at several
  | @cons_cons n next rest here later ih =>
    obtain ⟨first, second⟩ := Bool.and_eq_true_iff.mp here
    refine List.forall_mem_cons.mpr ⟨first, ?_⟩
    cases rest with
    | nil => exact List.forall_mem_singleton.mpr second
    | cons => exact ih (by simp)

theorem chain_of_all_loose {part : List Node} (h : ∀ n ∈ part, isLoose n) :
    part.IsChain fun n next => joins n next := by
  induction part with
  | nil => exact .nil
  | cons n rest ih =>
    obtain ⟨first, more⟩ := List.forall_mem_cons.mp h
    refine List.isChain_cons.mpr ⟨fun next hnext => ?_, ih more⟩
    rw [joins, first, more next (List.mem_of_mem_head? hnext)]
    rfl

/-- **There is one partition**, the one that cuts wherever two neighbours do not join. -/
theorem parted_iff (body : List Node) (parts : List (List Node)) :
    Parted body parts ↔ (body.filter isKept).splitBy joins = parts := by
  rw [List.splitBy_eq_iff]
  constructor
  · intro h
    have nonempty : ∀ part ∈ parts, part ≠ [] := by
      intro part member
      obtain ⟨n, rfl, -⟩ | ⟨nonempty, -⟩ := h.formed part member
      · simp
      · exact nonempty
    refine ⟨h.content.symm, fun member => nonempty [] member rfl, fun part member => ?_, ?_⟩
    · obtain ⟨n, rfl, -⟩ | ⟨-, loose⟩ := h.formed part member
      · exact .singleton n
      · exact chain_of_all_loose loose
    · refine h.maximal.imp_of_mem_imp fun part next hpart hnext apart => ?_
      refine ⟨nonempty part hpart, nonempty next hnext, ?_⟩
      obtain ⟨n, rfl, single⟩ | ⟨-, loose⟩ := h.formed part hpart
      · simp [joins, single]
      obtain ⟨n, rfl, single⟩ | ⟨-, loose'⟩ := h.formed next hnext
      · simp [joins, single]
      · exact absurd loose' (apart loose)
  · rintro ⟨content, noEmpty, chains, cuts⟩
    refine ⟨content.symm, fun part member => ?_, ?_⟩
    · have nonempty : part ≠ [] := by
        rintro rfl
        exact noEmpty member
      by_cases several : part.tail = []
      · obtain ⟨n, rest, rfl⟩ := List.exists_cons_of_ne_nil nonempty
        obtain rfl : rest = [] := several
        by_cases loose : isLoose n
        · exact .inr ⟨nonempty, List.forall_mem_singleton.mpr loose⟩
        · exact .inl ⟨n, rfl, Bool.eq_false_iff.mpr loose⟩
      · exact .inr ⟨nonempty, all_loose_of_chain (chains part member) several⟩
    · refine cuts.imp fun part next cut loose loose' => ?_
      obtain ⟨hpart, hnext, apart⟩ := cut
      rw [joins, loose _ (List.getLast_mem hpart), loose' _ (List.head_mem hnext)] at apart
      cases apart

/-! ### Members -/

/-- The member that a part becomes. -/
def memberOf : List Node → Member
  | [.function header body _] => .method header body
  | [.declare name type init _] => .field type name init
  | run => .initializer run

theorem memberOf_run {run : List Node} (h : ∀ n ∈ run, isLoose n) : memberOf run = .initializer run := by
  unfold memberOf
  split
  · simp [isLoose] at h
  · simp [isLoose] at h
  · rfl

theorem members_kept (body : List Node) : members (body.filter isKept) = members body := by
  fun_induction members body with
  | case1 => rfl
  | case2 library l ns ih => simpa [isKept] using ih
  | case3 header body l ns prototype ih => simpa [isKept, prototype] using ih
  | case4 header body l ns prototype ih => simp [isKept, prototype, members, ih]
  | case5 name type init l ns ih => rw [List.filter_cons_of_pos rfl, members, ih]
  | case6 n ns notInclusion notFunction notDeclaration ih =>
    have kept : isKept n := by
      cases n with
      | inclusion library l => exact absurd rfl (notInclusion library l)
      | function header body l => exact absurd rfl (notFunction header body l)
      | _ => rfl
    rw [List.filter_cons_of_pos kept, members, ih]
    · exact notInclusion
    · exact notFunction
    · exact notDeclaration

/-- A run before something that is no initializer becomes one. -/
theorem members_run {run : List Node} (nonempty : run ≠ []) (h : ∀ n ∈ run, isLoose n) {ns : List Node}
    (stop : ∀ more ms, members ns ≠ .initializer more :: ms) :
    members (run ++ ns) = .initializer run :: members ns := by
  have joined : members (run ++ ns) = run.foldr addLoose (members ns) := by
    clear nonempty
    induction run with
    | nil => rfl
    | cons n run ih =>
      obtain ⟨first, more⟩ := List.forall_mem_cons.mp h
      rw [List.cons_append, members_loose first, ih more, List.foldr_cons]
  rw [joined, foldr_addLoose run stop]
  cases run with
  | nil => exact absurd rfl nonempty
  | cons n run => rfl

/-- A single function or variable that is kept becomes a member of its own. -/
theorem members_single {n : Node} (kept : isKept n) (single : isLoose n = false) (ns : List Node) :
    members (n :: ns) = memberOf [n] :: members ns ∧ ∀ more, memberOf [n] ≠ .initializer more := by
  cases n with
  | inclusion => cases kept
  | function header body l =>
    have real : header.isPrototype = false := by simpa [isKept] using kept
    simp [members, memberOf, real]
  | declare => simp [members, memberOf]
  | _ => cases single

/-- **The members are the parts, in order.** -/
theorem members_of_parted {body : List Node} {parts : List (List Node)} (h : Parted body parts) :
    members body = parts.map memberOf := by
  obtain ⟨content, formed, maximal⟩ := h
  have kept : ∀ n ∈ parts.flatten, isKept n := by
    intro n hn
    rw [content] at hn
    exact (List.mem_filter.mp hn).2
  rw [← members_kept, ← content]
  clear content
  induction parts with
  | nil => rfl
  | cons part parts ih =>
    obtain ⟨here, later⟩ := List.forall_mem_cons.mp formed
    rw [List.flatten_cons] at kept
    obtain ⟨keptHere, keptLater⟩ := List.forall_mem_append.mp kept
    have rest := ih later maximal.tail keptLater
    rw [List.flatten_cons, List.map_cons, ← rest]
    obtain ⟨n, rfl, single⟩ | ⟨nonempty, loose⟩ := here
    · exact (members_single (keptHere n (by simp)) single _).1
    · rw [memberOf_run loose]
      refine members_run nonempty loose fun more ms starts => ?_
      -- the next part is no run, so its member is no initializer
      cases parts with
      | nil => cases starts
      | cons next parts =>
        have apart := (List.isChain_cons_cons.mp maximal).1 loose
        obtain ⟨n, rfl, single⟩ | ⟨-, loose'⟩ := (List.forall_mem_cons.mp later).1
        · have keptNext : isKept n := keptLater n (by simp)
          rw [rest, List.map_cons] at starts
          exact (members_single keptNext single []).2 more (List.cons.inj starts).1
        · exact apart loose'

/-! ### Rows -/

/-- The lines of a part: a method, a field, or a block with the statements of a run in order. -/
def partLines : List Node → List Line
  | [.function header body _] => method header body
  | [.declare name type init _] => [⟨1, "static " ++ declaration type name init ++ ";"⟩]
  | run => ⟨1, "static \x7b"⟩ :: run.flatMap (statement false 2 false) ++ [⟨1, "\x7d"⟩]

theorem memberOf_lines (part : List Node) : (memberOf part).lines = partLines part := by
  unfold memberOf partLines
  split
  · rfl
  · rfl
  · rw [Member.lines, initializer, statements_eq_flatMap]

/-- The part is a variable. -/
def isField : List Node → Bool
  | [.declare ..] => true
  | _ => false

theorem memberOf_isField (part : List Node) : (memberOf part).isField = isField part := by
  unfold memberOf
  split
  · rfl
  · rfl
  · next notDeclaration =>
    have other : isField part = false := by
      rw [isField]
      exact notDeclaration
    rw [other, Member.isField]
    simp

def partRows (part : List Node) : List String := (partLines part).flatMap Line.rows

/-- The rows of the parts, a blank one between two of them unless both are variables. -/
def classRows : List (List Node) → List String
  | [] => []
  | [part] => partRows part
  | part :: next :: more =>
    partRows part ++ (if isField part && isField next then [] else [""]) ++ classRows (next :: more)

/-- The rows of a program with these parts. -/
def programRows (body : List Node) (parts : List (List Node)) : List String :=
  (if body.any Node.isMain then ["import java.util.Scanner;", ""] else []) ++
    "public class Main \x7b" :: classRows parts ++ ["\x7d"]

/-- A text whose last character is no newline ends in a row that is not empty. -/
theorem rows_last_ne_nil (cs : List Char) {c : Char} (h : c ≠ '\n') :
    ∃ before row, Text.rows (cs ++ [c]) = before ++ [row] ∧ row ≠ [] := by
  induction cs with
  | nil => exact ⟨[], [c], by simp [Text.rows, h], by simp⟩
  | cons d cs ih =>
    obtain ⟨before, row, split, nonempty⟩ := ih
    rw [List.cons_append, Text.rows, split]
    by_cases newline : d = '\n'
    · exact ⟨[] :: before, row, by simp [newline], nonempty⟩
    · cases before with
      | nil => exact ⟨[], d :: row, by simp [newline], by simp⟩
      | cons first before => exact ⟨(d :: first) :: before, row, by simp [newline], nonempty⟩

theorem endsVisibly_of_concat {depth : Nat} {text : String} {cs : List Char} {c : Char}
    (chars : text.toList = cs ++ [c]) (h : c ≠ '\n') : Line.EndsVisibly ⟨depth, text⟩ := by
  obtain ⟨before, row, split, nonempty⟩ := rows_last_ne_nil ((indentation depth).toList ++ cs) h
  have shown : String.ofList row ≠ "" := fun empty => nonempty (String.ofList_eq_empty_iff.mp empty)
  rw [Line.EndsVisibly, Line.rows, String.toList_append, chars, ← List.append_assoc, split, List.map_append,
    List.map_singleton, List.getLast?_concat]
  exact decide_eq_true shown

/-- The last line of a member is a closing brace or ends in a semicolon. -/
theorem lastRow_visible (part : List Node) : (partRows part).getLast?.any (· ≠ "") := by
  have ending {ls : List Line} {l : Line} (visible : l.EndsVisibly) :
      ((ls ++ [l]).flatMap Line.rows).getLast?.any (· ≠ "") := by
    obtain ⟨row, last, shown⟩ := (Option.any_eq_true _ _).mp visible
    rw [List.flatMap_append, List.flatMap_singleton, List.getLast?_append, last]
    exact shown
  have brace : Line.EndsVisibly ⟨1, "\x7d"⟩ := by unfold Line.EndsVisibly; decide
  unfold partRows partLines
  split
  · unfold method
    split
    · rw [← List.singleton_append (x := Line.mk 2 closeScanner), ← List.append_assoc]
      exact ending brace
    · exact ending brace
  · exact @ending [] _ (endsVisibly_of_concat String.toList_append (by decide : ';' ≠ '\n'))
  · exact ending brace

theorem push_gap {output : List String} (h : output.head?.any (· ≠ "")) :
    Layout.push output (.gap 1) = "" :: output := by
  cases output with
  | nil => cases h
  | cons row rest =>
    show List.replicate 1 "" ++ Layout.settle (row :: rest) = _
    rw [settle_visible h]
    rfl

theorem push_part (part : List Node) (output : List String) :
    ((memberOf part).lines.map Item.line).foldl Layout.push output = (partRows part).reverse ++ output := by
  rw [push_lines, memberOf_lines]
  rfl

/-- The members make the rows of the parts. -/
theorem memberItems_rows (parts : List (List Node)) (output : List String) :
    (memberItems (parts.map memberOf)).foldl Layout.push output = (classRows parts).reverse ++ output := by
  induction parts generalizing output with
  | nil => rfl
  | cons part parts ih =>
    cases parts with
    | nil => exact push_part part output
    | cons next more =>
      rw [List.map_cons, List.map_cons, memberItems, List.foldl_append, List.foldl_append, push_part,
        ← List.map_cons, ih, classRows, List.reverse_append, List.reverse_append, List.append_assoc,
        List.append_assoc, memberOf_isField, memberOf_isField]
      by_cases grouped : isField part && isField next
      · rw [if_pos grouped, if_pos grouped]
        rfl
      · have visible : ((partRows part).reverse ++ output).head?.any (· ≠ "") := by
          obtain ⟨row, last, shown⟩ := (Option.any_eq_true _ _).mp (lastRow_visible part)
          rw [List.head?_append, List.head?_reverse, last]
          exact shown
        rw [if_neg grouped, if_neg grouped, List.foldl_cons, List.foldl_nil, push_gap visible]
        rfl

theorem items_rows {body : List Node} {parts : List (List Node)} (h : Parted body parts) :
    Layout.rows (items body) = programRows body parts := by
  have header : (if body.any Node.isMain then [Item.line ⟨0, "import java.util.Scanner;"⟩, .gap 1] else []).foldl
      Layout.push [] = (if body.any Node.isMain then ["import java.util.Scanner;", ""] else []).reverse := by
    split
    · decide
    · rfl
  have opening (output : List String) : [Item.line ⟨0, "public class Main \x7b"⟩].foldl Layout.push output =
      "public class Main \x7b" :: output := rfl
  have closing (output : List String) : [Item.line ⟨0, "\x7d"⟩].foldl Layout.push output = "\x7d" :: output := rfl
  rw [Layout.rows, items_eq, List.foldl_append, List.foldl_append, List.foldl_append, header, opening,
    members_of_parted h, memberItems_rows, closing, programRows]
  simp

/-! ### The order of initialization -/

/-- The part is no method. -/
def isStaticPart (part : List Node) : Bool := part.all isStatic

/-- The parts that are no methods, one behind the other, are what is run when the class is
loaded, in the order of the source. -/
theorem static_parts {body : List Node} {parts : List (List Node)} (h : Parted body parts) :
    (parts.filter isStaticPart).flatten = body.filter isStatic := by
  have kept (n : Node) : (isStatic n && isKept n) = isStatic n := by cases n <;> rfl
  have parted : body.filter isStatic = (parts.flatten).filter isStatic := by
    rw [h.content, List.filter_filter]
    exact congrArg (List.filter · body) (funext fun n => (kept n).symm)
  have whole : ∀ part ∈ parts, part.filter isStatic = if isStaticPart part then part else [] := by
    intro part member
    obtain ⟨n, rfl, -⟩ | ⟨-, loose⟩ := h.formed part member
    · simp [isStaticPart, List.filter_singleton]
    · have static : ∀ n ∈ part, isStatic n := by
        intro n hn
        have here := loose n hn
        cases n with
        | inclusion | function => cases here
        | _ => rfl
      rw [isStaticPart, if_pos (List.all_eq_true.mpr static), List.filter_eq_self.mpr static]
  rw [parted, List.filter_flatten, List.map_congr_left whole]
  clear whole parted h
  induction parts with
  | nil => rfl
  | cons part parts ih =>
    rw [List.filter_cons, List.map_cons, List.flatten_cons, ← ih]
    split <;> simp

/-- **The class is the top level, part by part.** For every program there is one way to cut what is
kept of its top level into single functions, single variables and runs of statements as
long as possible. The text is the import if the program has a `main`, the line of the class,
one method, field or block for each part in this order, with one blank row between two of
them unless both are fields, and the closing line. So what is initialized when the class is
loaded comes in the order of the source. -/
theorem program_parted (body : List Node) :
    ∃ parts, Parted body parts ∧ (∀ other, Parted body other → other = parts) ∧
      program body = String.join ((programRows body parts).map fun row => row ++ "\n") ∧
      (parts.filter isStaticPart).flatten = body.filter isStatic := by
  have parted := (parted_iff body _).mpr rfl
  refine ⟨_, parted, fun other h => ((parted_iff body other).mp h).symm, ?_, static_parts parted⟩
  rw [program, Layout.text, items_rows parted]

end Java
end MiniC
