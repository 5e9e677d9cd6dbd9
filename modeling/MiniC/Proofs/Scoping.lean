/-
# Which variable a target is

In the source language a name refers to the innermost declaration in sight: one that
stands before it in a block around it or in the head of a `for` around it, or else a
parameter of the function, or else a variable of the file (`Node.Refers`). The indented
language has no blocks. There a name that is declared anywhere in a function belongs to
the whole function, and a function starts with the names of the file that it assigns.

These are the names of which some target refers to a variable of the file and which the
function declares nowhere (`Python.function_globals`). A declaration inside of one block
takes the name away from the targets outside of it too (`Python.global_shadowed`).

Key definitions: `Binding`, `Node.Stands`, `Node.Refers`, `Node.Declares`.
Key theorems: `Node.Declares.iff`, `Node.Refers.assigned`, `Node.refers_of_assigned`,
`Python.function_globals`.
-/
import Mathlib
import MiniC.Pipeline
import MiniC.Proofs.Shape

namespace MiniC

/-- Where a name in sight is declared. -/
inductive Binding where
  | inner
  | parameter
  | file
  deriving DecidableEq

namespace Node

/-! ### Names in sight -/

/-- What the statement brings in sight of those behind it. -/
def bindings : Node → List (String × Binding)
  | .declare x _ _ _ => [(x, .inner)]
  | _ => []

/-- What comes in sight with these statements, the last one first. -/
def bindingsOf (before : List Node) : List (String × Binding) := before.reverse.flatMap bindings

/-- The statement `m` stands right below, and `before` are the ones there whose
declarations it sees: those that precede it in a block, and the first clause of a `for`. -/
inductive Stands : Node → List Node → Node → Prop
  | program {before after : List Node} {m : Node} : Stands (.program (before ++ m :: after)) before m
  | block {before after : List Node} {m : Node} {l : Location} : Stands (.block (before ++ m :: after) l) before m
  | onTrue {condition m : Node} {onFalse : Option Node} {l : Location} : Stands (.branch condition m onFalse l) [] m
  | onFalse {condition onTrue m : Node} {l : Location} : Stands (.branch condition onTrue (some m) l) [] m
  | whileBody {condition m : Node} {l : Location} : Stands (.whileLoop condition m l) [] m
  | init {m body : Node} {condition update : Option Node} {l : Location} :
    Stands (.forLoop (some m) condition update body l) [] m
  | update {init condition : Option Node} {m body : Node} {l : Location} :
    Stands (.forLoop init condition (some m) body l) init.toList m
  | forBody {init condition update : Option Node} {m : Node} {l : Location} :
    Stands (.forLoop init condition update m l) init.toList m

/-- The names that a `scanf` with these arguments fills. -/
def scanned (args : List Node) : List String := (scanTargets args).filterMap fun p => p.1.readTarget?

/-- A target of the name inside of the statement refers to the binding. The innermost
declaration in sight comes first. -/
inductive Refers (x : String) (b : Option Binding) : List (String × Binding) → Node → Prop
  | assign {sight : List (String × Binding)} {op : AssignOp} {value : Option Node} {l : Location} :
    sight.lookup x = b → Refers x b sight (.assign x op value l)
  | scanf {sight : List (String × Binding)} {args : List Node} {l : Location} :
    x ∈ scanned args → sight.lookup x = b → Refers x b sight (.scanf args l)
  | inside {sight : List (String × Binding)} {n m : Node} {before : List Node} :
    n.Stands before m → Refers x b (bindingsOf before ++ sight) m → Refers x b sight n

/-- The statement declares the variable, at any depth but not inside of a function. -/
inductive Declares (x : String) : Node → Prop
  | here {type : String} {init : Option Node} {l : Location} : Declares x (.declare x type init l)
  | inside {n m : Node} : n.isFunction = false → m ∈ n.children.map Prod.snd → m.Declares x → n.Declares x

/-- Only expressions stand where a value is asked for. -/
def Valued (n : Node) : Prop := ∀ e ∈ n.valuePlaces, e.isExpr

/-! ### Names that are collected -/

/-- Names are collected from the children of the node. -/
def isCompound : Node → Bool
  | .declare .. | .assign .. | .scanf .. | .function .. => false
  | _ => true

section

variable {n m : Node} {x : String}

theorem mem_collected {f : Node → List String} :
    x ∈ n.children.attach.flatMap (fun child => f child.1.2) ↔ ∃ m ∈ n.children.map Prod.snd, x ∈ f m := by
  rw [List.mem_flatMap]
  constructor
  · rintro ⟨child, -, h⟩
    exact ⟨child.1.2, List.mem_map_of_mem child.2, h⟩
  · rintro ⟨m, member, h⟩
    obtain ⟨child, inside, rfl⟩ := List.mem_map.mp member
    exact ⟨⟨child, inside⟩, List.mem_attach _ _, h⟩

theorem mem_declaredNames (compound : n.isCompound) :
    x ∈ n.declaredNames ↔ ∃ m ∈ n.children.map Prod.snd, x ∈ m.declaredNames := by
  rw [declaredNames.eq_def]
  cases n with
  | declare | assign | scanf | function => cases compound
  | _ => exact mem_collected

theorem mem_assignedNames (compound : n.isCompound) :
    x ∈ n.assignedNames ↔ ∃ m ∈ n.children.map Prod.snd, x ∈ m.assignedNames := by
  rw [assignedNames.eq_def]
  cases n with
  | declare | assign | scanf | function => cases compound
  | _ => exact mem_collected

theorem isExpr_places (h : n.isExpr) : n.isCompound ∧ n.statementPlaces = [] ∧ n.clausePlaces = [] := by
  cases n with
  | binary | unary | literal | identifier | call => exact ⟨rfl, rfl, rfl⟩
  | _ => cases h

/-- Nothing is declared or assigned inside of an expression. -/
theorem isExpr_names (shaped : n.Everywhere Valued) (h : n.isExpr) : x ∉ n.declaredNames ∧ x ∉ n.assignedNames := by
  induction shaped with
  | @mk n valued _ ih =>
    obtain ⟨compound, noStatement, noClause⟩ := isExpr_places h
    have values (m : Node) (member : m ∈ n.children.map Prod.snd) : m.isExpr := by
      rw [mem_children, noStatement, noClause] at member
      exact valued m (by simpa using member)
    rw [mem_declaredNames compound, mem_assignedNames compound]
    constructor
    · rintro ⟨m, member, inside⟩
      exact (ih m member (values m member)).1 inside
    · rintro ⟨m, member, inside⟩
      exact (ih m member (values m member)).2 inside

theorem value_of_child (compound : n.isCompound = false) (own : n.isFunction = false)
    (member : m ∈ n.children.map Prod.snd) : m ∈ n.valuePlaces := by
  rw [mem_children] at member
  cases n with
  | declare | assign | scanf => simpa [statementPlaces, clausePlaces] using member
  | function => cases own
  | _ => cases compound

/-- The names that are collected as declared are the declared ones. -/
theorem Declares.iff (shaped : n.Everywhere Valued) : x ∈ n.declaredNames ↔ n.Declares x := by
  induction shaped with
  | @mk n valued below ih =>
    constructor
    · intro collected
      by_cases compound : n.isCompound
      · have own : n.isFunction = false := by
          cases n with
          | function => cases compound
          | _ => rfl
        obtain ⟨m, member, inside⟩ := (mem_declaredNames compound).mp collected
        exact .inside own member ((ih m member).mp inside)
      · cases n with
        | declare =>
          rw [declaredNames, List.mem_singleton] at collected
          exact collected ▸ .here
        | assign | scanf | function =>
          rw [declaredNames] at collected
          cases collected
        | _ => exact absurd rfl compound
    · intro declares
      cases declares with
      | here =>
        rw [declaredNames]
        exact List.mem_singleton_self x
      | @inside _ m own member declares =>
        have inside := (ih m member).mpr declares
        by_cases compound : n.isCompound
        · exact (mem_declaredNames compound).mpr ⟨m, member, inside⟩
        · have value := value_of_child (Bool.eq_false_iff.mpr compound) own member
          exact absurd inside (isExpr_names (below m member) (valued m value)).1

/-! ### Targets -/

theorem Stands.compound {before : List Node} (h : n.Stands before m) : n.isCompound := by
  cases h <;> rfl

theorem Stands.child {before : List Node} (h : n.Stands before m) : m ∈ n.children.map Prod.snd := by
  rw [mem_children]
  cases h <;> simp [statementPlaces, clausePlaces]

theorem Stands.before_child {before : List Node} (h : n.Stands before m) {d : Node} (member : d ∈ before) :
    d ∈ n.children.map Prod.snd := by
  rw [mem_children]
  cases h with
  | program | block => simp [statementPlaces, member]
  | onTrue | onFalse | whileBody | init => cases member
  | update | forBody => simp [clausePlaces, member]

/-- Every statement right below stands behind some others. -/
theorem exists_stands (compound : n.isCompound) (h : m ∈ n.statementPlaces ∨ m ∈ n.clausePlaces) :
    ∃ before, n.Stands before m := by
  have item {body : List Node} (h : m ∈ body) : ∃ before after, body = before ++ m :: after := List.append_of_mem h
  cases n with
  | program body =>
    obtain ⟨before, after, rfl⟩ := item (by simpa [statementPlaces, clausePlaces] using h)
    exact ⟨before, .program⟩
  | block body l =>
    obtain ⟨before, after, rfl⟩ := item (by simpa [statementPlaces, clausePlaces] using h)
    exact ⟨before, .block⟩
  | branch condition onTrue onFalse l =>
    simp only [statementPlaces, clausePlaces, List.mem_cons, Option.mem_toList, List.not_mem_nil, or_false] at h
    rcases h with rfl | rfl
    · exact ⟨[], .onTrue⟩
    · exact ⟨[], .onFalse⟩
  | whileLoop condition body l =>
    simp only [statementPlaces, clausePlaces, List.mem_singleton, List.not_mem_nil, or_false] at h
    exact ⟨[], h ▸ .whileBody⟩
  | forLoop init condition update body l =>
    simp only [statementPlaces, clausePlaces, List.mem_singleton, List.mem_append, Option.mem_toList] at h
    rcases h with rfl | rfl | rfl
    · exact ⟨_, .forBody⟩
    · exact ⟨[], .init⟩
    · exact ⟨_, .update⟩
  | function => cases compound
  | _ => simp [statementPlaces, clausePlaces] at h

theorem mem_bindingsOf {before : List Node} {q : String × Binding} (h : q ∈ bindingsOf before) :
    q.2 = .inner ∧ ∃ d ∈ before, q.1 ∈ d.declaredNames := by
  obtain ⟨d, member, inside⟩ := List.mem_flatMap.mp h
  cases d with
  | declare y type init l =>
    obtain rfl := List.mem_singleton.mp inside
    exact ⟨rfl, _, List.mem_reverse.mp member, by rw [declaredNames]; exact List.mem_singleton_self y⟩
  | _ => cases inside

/-- What is added in sight hides variables of the file and shows none. -/
theorem lookup_file {before : List Node} {sight : List (String × Binding)}
    (h : (bindingsOf before ++ sight).lookup x = some .file) : sight.lookup x = some .file := by
  rw [List.lookup_append, Option.or_eq_some_iff] at h
  rcases h with inner | outer
  · obtain ⟨_, _, same, -⟩ := List.lookup_eq_some_iff.mp inner
    cases (@mem_bindingsOf before (x, .file) (by rw [same]; simp)).1
  · exact outer.2

theorem lookup_undeclared {before : List Node} {sight : List (String × Binding)}
    (h : ∀ d ∈ before, x ∉ d.declaredNames) : (bindingsOf before ++ sight).lookup x = sight.lookup x := by
  have none : (bindingsOf before).lookup x = none := by
    refine List.lookup_eq_none_iff.mpr fun q member => ?_
    obtain ⟨-, d, inside, declared⟩ := mem_bindingsOf member
    exact bne_iff_ne.mpr fun same => h d inside (same ▸ declared)
  rw [List.lookup_append, none, Option.none_or]

/-- The first argument of a `scanf` is no target if it is the format. -/
theorem scanned_eq (args : List Node) : scanned args = args.filterMap readTarget? := by
  have targets (as : List Node) (cs : List Conversion) :
      ((withConversions as cs).map fun p => (p.1, p.2.getD .integer)).filterMap (fun p => p.1.readTarget?) =
        as.filterMap readTarget? := by
    induction as generalizing cs with
    | nil => rfl
    | cons a as ih => cases cs <;> simp [withConversions, List.filterMap_cons, ih]
  cases args with
  | nil => rfl
  | cons first rest =>
    rw [scanned, scanTargets]
    cases found : first.stringText? with
    | none => exact targets _ _
    | some format =>
      have other : first.readTarget? = none := by
        cases first with
        | literal => rfl
        | _ => cases found
      rw [List.filterMap_cons, other]
      exact targets _ _

/-- A target of a variable of the file is collected, and the variable is in sight. -/
theorem Refers.assigned {sight : List (String × Binding)} (h : n.Refers x (some .file) sight) :
    x ∈ n.assignedNames ∧ sight.lookup x = some .file := by
  induction h with
  | assign seen =>
    rw [assignedNames]
    exact ⟨List.mem_singleton_self x, seen⟩
  | scanf target seen =>
    rw [assignedNames, ← scanned_eq]
    exact ⟨target, seen⟩
  | inside stands _ ih =>
    exact ⟨(mem_assignedNames stands.compound).mpr ⟨_, stands.child, ih.1⟩, lookup_file ih.2⟩

/-- What is collected is a target, and it refers to what is in sight of the statement
unless the statement declares the name itself. -/
theorem refers_of_assigned (shaped : n.Everywhere Valued) (assigned : x ∈ n.assignedNames)
    (undeclared : x ∉ n.declaredNames) (sight : List (String × Binding)) : n.Refers x (sight.lookup x) sight := by
  induction shaped generalizing sight with
  | @mk n valued below ih =>
    by_cases compound : n.isCompound
    · obtain ⟨m, member, inside⟩ := (mem_assignedNames compound).mp assigned
      have others (d : Node) (member : d ∈ n.children.map Prod.snd) : x ∉ d.declaredNames := fun declared =>
        undeclared ((mem_declaredNames compound).mpr ⟨d, member, declared⟩)
      rcases mem_children.mp member with value | place
      · exact absurd inside (isExpr_names (below m member) (valued m value)).2
      · obtain ⟨before, stands⟩ := exists_stands compound place
        have seen := @lookup_undeclared x before sight fun d hd => others d (stands.before_child hd)
        exact .inside stands (seen ▸ ih m member inside (others m member) _)
    · cases n with
      | assign =>
        rw [assignedNames, List.mem_singleton] at assigned
        exact assigned ▸ .assign rfl
      | scanf =>
        rw [assignedNames, ← scanned_eq] at assigned
        exact .scanf assigned rfl
      | declare | function =>
        rw [assignedNames] at assigned
        cases assigned
      | _ => exact absurd rfl compound

end

end Node

namespace Python

open Node

/-! ### Functions -/

section

variable {body inner : List Node} {header : Header} {l : Location} {x : String}

/-- What a function of the program sees: its parameters, and the variables of the file. -/
def sightOf (body : List Node) (params : List Param) : List (String × Binding) :=
  params.map (fun p => (p.name, .parameter)) ++ (globalNames body).map fun x => (x, .file)

theorem sightOf_file {params : List Param} :
    (sightOf body params).lookup x = some .file ↔ x ∈ globalNames body ∧ x ∉ params.map Param.name := by
  have files (xs : List String) : (xs.map fun x => (x, Binding.file)).lookup x = some .file ↔ x ∈ xs := by
    induction xs with
    | nil => simp
    | cons y ys ih =>
      by_cases same : x = y
      · simp [same]
      · simp [List.lookup_cons, beq_eq_false_iff_ne.mpr same, ih, same]
  induction params with
  | nil => simpa [sightOf] using files _
  | cons p ps ih =>
    rw [sightOf, List.map_cons, List.cons_append, List.lookup_cons]
    by_cases same : x = p.name
    · simp [same]
    · rw [beq_eq_false_iff_ne.mpr same]
      simpa [sightOf, same] using ih

theorem mem_assignedGlobals {globals : List String} {params : List Param} :
    x ∈ assignedGlobals globals params inner ↔ x ∈ (Node.block inner l).assignedNames ∧
      (x ∈ globals ∧ x ∉ params.map Param.name) ∧ x ∉ (Node.block inner l).declaredNames := by
  rw [mem_assignedNames rfl, mem_declaredNames rfl]
  simp only [assignedGlobals, List.mem_eraseDups, List.mem_filter, List.mem_flatMap, Bool.and_eq_true,
    Bool.not_eq_true', List.contains_eq_mem, decide_eq_true_eq, decide_eq_false_iff_not, List.mem_append, not_or,
    Node.children, List.map_map, Function.comp_def, List.map_id', and_assoc]

theorem eraseDups_nodup (names : List String) : names.eraseDups.Nodup := by
  induction size : names.length using Nat.strongRecOn generalizing names with
  | ind k ih =>
    cases names with
    | nil => simp
    | cons y ys =>
      rw [List.eraseDups_cons, List.nodup_cons, List.mem_eraseDups]
      have shorter := List.length_filter_le (fun z => !z == y) ys
      rw [List.length_cons] at size
      exact ⟨by simp, ih _ (by omega) _ rfl⟩

/-- The head of a function and, if there are some, the names of the file that it assigns. -/
def headLines (header : Header) (names : List String) : List Line :=
  ⟨0, "def " ++ header.name ++ "(" ++ String.intercalate ", " (header.params.map Param.name) ++ "):"⟩ ::
    if names.isEmpty then [] else [⟨1, "global " ++ String.intercalate ", " names⟩]

theorem topLevel_later (globals : List String) (afterFunction : Bool) (n : Node) (ns : List Node) :
    ∃ afterFunction', topLevel globals afterFunction' ns <:+ topLevel globals afterFunction (n :: ns) := by
  cases n with
  | inclusion => exact ⟨afterFunction, List.suffix_refl _⟩
  | function header =>
    rw [topLevel]
    split
    · exact ⟨afterFunction, List.suffix_refl _⟩
    · exact ⟨true, List.suffix_append _ _⟩
  | _ => exact ⟨false, List.suffix_append _ _⟩

/-- The lines of a function stand together in the text of the program. -/
theorem function_items (globals : List String) (afterFunction : Bool) (member : .function header inner l ∈ body)
    (own : header.isPrototype = false) :
    (statement globals 0 (.function header inner l)).map Item.line <:+: topLevel globals afterFunction body := by
  induction body generalizing afterFunction with
  | nil => cases member
  | cons n ns ih =>
    rcases List.mem_cons.mp member with rfl | later
    · rw [topLevel, own]
      exact ⟨[.gap 2], topLevel globals true ns, rfl⟩
    · obtain ⟨afterFunction', suffix⟩ := topLevel_later globals afterFunction n ns
      exact (ih afterFunction' later).trans suffix.isInfix

theorem body_valued (shaped : (Node.program body).Everywhere Valued) (member : .function header inner l ∈ body) :
    (Node.block inner l).Everywhere Valued := by
  have function := shaped.child (m := .function header inner l) (by simpa [Node.children] using member)
  exact .mk (List.forall_mem_nil _) fun m hm => function.child hm

/-- **Assigned globals.** In parsed programs only expressions stand where a value is asked
for. In such a program the text of each function starts with its head and a line of names,
if there are some. They are the names, each once, of which a target in the function refers
to a variable of the file, except those that the function declares in any of its blocks. -/
theorem function_globals :
    (∀ tokens, (parseTokens tokens).tree.Everywhere Valued) ∧
      ∀ {body : List Node}, (Node.program body).Everywhere Valued →
        ∀ {header : Header} {inner : List Node} {l : Location}, .function header inner l ∈ body →
          header.isPrototype = false →
          ∃ names : List String, names.Nodup ∧
            (headLines header names ++ suite 1 (statements (globalNames body) 1 inner)).map Item.line <:+: items body ∧
            ∀ x, x ∈ names ↔ (Node.block inner l).Refers x (some .file) (sightOf body header.params) ∧
              ¬(Node.block inner l).Declares x := by
  refine ⟨parse_everywhere (fun phrased => phrased.shaped.values) fun _ _ none => (by cases none), ?_⟩
  intro body shaped header inner l member own
  have inside := body_valued shaped member
  refine ⟨assignedGlobals (globalNames body) header.params inner, eraseDups_nodup _, ?_, fun x => ?_⟩
  · have whole := function_items (globalNames body) false member own
    rw [statement, own] at whole
    exact whole.trans (List.prefix_append _ _).isInfix
  · rw [@mem_assignedGlobals inner l, ← sightOf_file, ← Declares.iff inside]
    constructor
    · rintro ⟨assigned, seen, undeclared⟩
      exact ⟨seen ▸ refers_of_assigned inside assigned undeclared _, undeclared⟩
    · rintro ⟨refers, undeclared⟩
      exact ⟨refers.assigned.1, refers.assigned.2, undeclared⟩

end

/-- Three targets: the first is declared in a block, the second is a parameter that hides a
variable of the file, and the last one is such a variable. -/
def readerSource : String :=
  "int x; int y; void f(int y) \x7b \x7b int z; z = 1; \x7d y = 2; scanf(\"%d\", &x); \x7d"

def readerHeader : Header := ⟨"f", "void", [⟨"y", "int"⟩], false⟩

def readerBody : List Node :=
  [.block [.declare "z" "int" none ⟨1, 37⟩, .assign "z" .assign (some (.literal "1" .int ⟨1, 44⟩)) ⟨1, 40⟩] ⟨1, 31⟩,
    .assign "y" .assign (some (.literal "2" .int ⟨1, 53⟩)) ⟨1, 49⟩,
    .scanf [.literal "%d" .string ⟨1, 62⟩, .unary .addressOf (.identifier "x" ⟨1, 69⟩) ⟨1, 68⟩] ⟨1, 56⟩]

def readerProgram : List Node :=
  [.declare "x" "int" none ⟨1, 5⟩, .declare "y" "int" none ⟨1, 12⟩, .function readerHeader readerBody ⟨1, 20⟩]

theorem function_globals_reader :
    (parseTokens (tokenize readerSource).tokens).tree = .program readerProgram ∧
      .function readerHeader readerBody ⟨1, 20⟩ ∈ readerProgram ∧ readerHeader.isPrototype = false ∧
      ([⟨0, "def f(y):"⟩, ⟨1, "global x"⟩, ⟨1, "z = 0"⟩, ⟨1, "z = 1"⟩, ⟨1, "y = 2"⟩,
        ⟨1, "x = int(input())"⟩] : List Line).map Item.line <:+: items readerProgram := by
  have tree : (parseTokens (tokenize readerSource).tokens).tree = .program readerProgram := by cbv
  have shaped := function_globals.1 (tokenize readerSource).tokens
  rw [tree] at shaped
  have member : .function readerHeader readerBody ⟨1, 20⟩ ∈ readerProgram := by simp [readerProgram]
  obtain ⟨names, once, lines, named⟩ := function_globals.2 shaped member rfl
  have assigned : (Node.block readerBody ⟨1, 20⟩).assignedNames = ["z", "y", "x"] := by decide +kernel
  have undeclared : "x" ∉ (Node.block readerBody ⟨1, 20⟩).declaredNames := by decide +kernel
  have inner := body_valued shaped member
  have visible : (sightOf readerProgram readerHeader.params).lookup "x" = some .file := by decide
  have only (x : String) : x ∈ names ↔ x = "x" := by
    rw [named x]
    constructor
    · rintro ⟨refers, -⟩
      obtain ⟨target, seen⟩ := refers.assigned
      simp only [assigned, List.mem_cons, List.not_mem_nil, or_false] at target
      rcases target with rfl | rfl | rfl
      · exact absurd seen (by decide)
      · exact absurd seen (by decide)
      · rfl
    · rintro rfl
      refine ⟨visible ▸ refers_of_assigned inner (by simp [assigned]) undeclared _, ?_⟩
      exact fun declares => undeclared ((Declares.iff inner).mpr declares)
  obtain rfl : names = ["x"] := by
    refine List.perm_singleton.mp ((List.perm_ext_iff_of_nodup once (List.nodup_singleton _)).mpr fun x => ?_)
    rw [only, List.mem_singleton]
  have text : headLines readerHeader ["x"] ++ suite 1 (statements (globalNames readerProgram) 1 readerBody) =
      [⟨0, "def f(y):"⟩, ⟨1, "global x"⟩, ⟨1, "z = 0"⟩, ⟨1, "z = 1"⟩, ⟨1, "y = 2"⟩, ⟨1, "x = int(input())"⟩] := by
    decide +kernel
  exact ⟨tree, member, rfl, text ▸ lines⟩

/-- The second assignment stands behind the block that declares `x`. -/
def shadowingSource : String := "int x; void f() \x7b \x7b int x; x = 1; \x7d x = 2; \x7d"

def shadowingBlock : Node :=
  .block [.declare "x" "int" none ⟨1, 25⟩, .assign "x" .assign (some (.literal "1" .int ⟨1, 32⟩)) ⟨1, 28⟩] ⟨1, 19⟩

def shadowedAssign : Node := .assign "x" .assign (some (.literal "2" .int ⟨1, 41⟩)) ⟨1, 37⟩

def shadowingProgram : List Node :=
  [.declare "x" "int" none ⟨1, 5⟩, .function ⟨"f", "void", [], false⟩ [shadowingBlock, shadowedAssign] ⟨1, 13⟩]

/-- The second assignment sets the variable of the file. In the indented language both
assignments set a variable of the function. -/
theorem global_shadowed :
    (parseTokens (tokenize shadowingSource).tokens).tree = .program shadowingProgram ∧
      (Node.block [shadowingBlock, shadowedAssign] ⟨1, 13⟩).Refers "x" (some .file) (sightOf shadowingProgram []) ∧
      transpile shadowingSource .python =
        "x = 0\n\n\ndef f():\n    x = 0\n    x = 1\n    x = 2\n" := by
  have stands : (Node.block [shadowingBlock, shadowedAssign] ⟨1, 13⟩).Stands [shadowingBlock] shadowedAssign :=
    @Stands.block [shadowingBlock] [] shadowedAssign _
  exact ⟨by cbv, .inside stands (.assign (by decide)), by decide +kernel⟩

end Python
end MiniC
