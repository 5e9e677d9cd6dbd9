/-
# The members of the class

The walk over the top level of a program holds statements back, and writes a gap before a
member by the kind of the last one. What it writes can be said without the walk: the
members of the class, found from the end of the program by putting each statement into
the initializer behind it (`members`), one below the other with the gaps that two
neighbours ask for (`memberItems`).

The invariant of the walk, `Pass.Stands`, says this of the part it has gone over. The
members written so far, then the waiting statements before the members of the rest, are
those of the program, whatever the rest is. Every step keeps it (`Pass.Stands.step`), and
the last flush leaves nothing waiting (`pass_written`).

Key definitions: `Java.Member`, `Java.members`, `Java.memberItems`, `Java.Pass.Stands`.
Key theorems: `Java.members_madeOf`, `Java.Pass.Stands.step`, `Java.pass_written`, `Java.items_eq`.
-/
import MiniC.Emit.Java

namespace MiniC
namespace Java

/-! ### Members -/

/-- A member of the class. -/
inductive Member where
  | field (type name : String) (init : Option Node)
  | method (header : Header) (body : List Node)
  | initializer (statements : List Node)

/-- Puts a loose statement in front, into the initializer that stands there already
if there is one. -/
def addLoose (n : Node) : List Member → List Member
  | .initializer more :: members => .initializer (n :: more) :: members
  | members => .initializer [n] :: members

/-- The members that the top level of a program makes. Inclusions and prototypes
make none. -/
def members : List Node → List Member
  | [] => []
  | .inclusion .. :: ns => members ns
  | .function header body _ :: ns =>
    if header.isPrototype then members ns else .method header body :: members ns
  | .declare name type init _ :: ns => .field type name init :: members ns
  | n :: ns => addLoose n (members ns)

/-- The node is a statement, which is neither a method nor a field of its own. -/
def isLoose : Node → Bool
  | .inclusion .. | .function .. | .declare .. => false
  | _ => true

theorem members_loose {n : Node} (h : isLoose n) (ns : List Node) : members (n :: ns) = addLoose n (members ns) := by
  cases n with
  | inclusion | function | declare => cases h
  | _ => rw [members] <;> simp

/-- The member is made of nodes of the top level. -/
inductive Member.MadeOf (body : List Node) : Member → Prop
  | field {name type : String} {init : Option Node} {l : Location} :
    .declare name type init l ∈ body → MadeOf body (.field type name init)
  | method {header : Header} {inner : List Node} {l : Location} :
    .function header inner l ∈ body → MadeOf body (.method header inner)
  | initializer {run : List Node} : run ⊆ body → MadeOf body (.initializer run)

theorem Member.MadeOf.mono {body larger : List Node} {m : Member} (h : m.MadeOf body) (le : body ⊆ larger) :
    m.MadeOf larger := by
  cases h with
  | field member => exact .field (le member)
  | method member => exact .method (le member)
  | initializer part => exact .initializer (List.Subset.trans part le)

theorem addLoose_madeOf {body : List Node} {n : Node} {ms : List Member} (h : ∀ m ∈ ms, m.MadeOf body) :
    ∀ m ∈ addLoose n ms, m.MadeOf (n :: body) := by
  have later {ms : List Member} (h : ∀ m ∈ ms, m.MadeOf body) : ∀ m ∈ ms, m.MadeOf (n :: body) :=
    fun m hm => (h m hm).mono (List.subset_cons_self n body)
  unfold addLoose
  split
  · obtain ⟨first, rest⟩ := List.forall_mem_cons.mp h
    cases first with
    | initializer part =>
      exact List.forall_mem_cons.mpr ⟨.initializer (List.cons_subset_cons n part), later rest⟩
  · exact List.forall_mem_cons.mpr ⟨.initializer (List.cons_subset_cons n (List.nil_subset body)), later h⟩

theorem members_madeOf (body : List Node) : ∀ m ∈ members body, m.MadeOf body := by
  have later {n : Node} {ns : List Node} (h : ∀ m ∈ members ns, m.MadeOf ns) :
      ∀ m ∈ members ns, m.MadeOf (n :: ns) := fun m hm => (h m hm).mono (List.subset_cons_self n ns)
  fun_induction members body with
  | case1 => exact List.forall_mem_nil _
  | case2 library l ns ih => exact later ih
  | case3 header inner l ns _ ih => exact later ih
  | case4 header inner l ns _ ih => exact List.forall_mem_cons.mpr ⟨.method List.mem_cons_self, later ih⟩
  | case5 name type init l ns ih => exact List.forall_mem_cons.mpr ⟨.field List.mem_cons_self, later ih⟩
  | case6 n ns _ _ _ ih => exact addLoose_madeOf ih

namespace Member

def isField : Member → Bool
  | field .. => true
  | _ => false

def kind : Member → MemberKind
  | field .. => .field
  | method .. => .method
  | initializer .. => .initializer

theorem kind_eq_field (m : Member) : decide (m.kind = .field) = m.isField := by cases m <;> rfl

end Member

/-- The initializer of some statements; none where there are no statements. -/
def pending : List Node → List Member
  | [] => []
  | run => [.initializer run]

/-- Statements before something that is no initializer get one of their own. -/
theorem foldr_addLoose (run : List Node) {ms : List Member} (stop : ∀ more rest, ms ≠ .initializer more :: rest) :
    run.foldr addLoose ms = pending run ++ ms := by
  induction run with
  | nil => rfl
  | cons n run ih =>
    rw [List.foldr_cons, ih]
    cases run with
    | nil =>
      show addLoose n ms = .initializer [n] :: ms
      rw [addLoose]
      exact stop
    | cons next run => rfl

section
variable [Renderer]

def Member.lines : Member → List Line
  | .field type name init => [Java.field type name init]
  | .method header body => Java.method header body
  | .initializer body => Java.initializer body

/-- The members in order, a blank line between two of them unless both are fields. -/
def memberItems : List Member → List Item
  | [] => []
  | [m] => m.lines.map .line
  | m :: next :: more =>
    m.lines.map .line ++ (if m.isField && next.isField then [] else [.gap 1]) ++
      memberItems (next :: more)

theorem memberItems_concat (ms : List Member) (before m : Member) :
    memberItems (ms ++ [before, m]) =
      memberItems (ms ++ [before]) ++ (if before.isField && m.isField then [] else [.gap 1]) ++
        m.lines.map .line := by
  induction ms with
  | nil => rfl
  | cons first ms ih =>
    cases ms with
    | nil => simp [memberItems]
    | cons second ms =>
      simp only [List.cons_append] at ih ⊢
      rw [memberItems, ih, memberItems]
      simp only [List.append_assoc]

/-! ### The walk -/

namespace Pass

/-- The walk has written these members. -/
structure Wrote (p : Pass) (ms : List Member) : Prop where
  written : p.written = memberItems ms
  last : p.last = ms.getLast?.map Member.kind

/-- The walk has gone over `done` and written the members `ms`. Those of the program are
these and, whatever `rest` comes, the ones of `rest` behind the waiting statements. -/
structure Stands (p : Pass) (done : List Node) (ms : List Member) : Prop extends p.Wrote ms where
  ahead : ∀ rest, members (done ++ rest) = ms ++ p.loose.foldr addLoose (members rest)

theorem stands_start : start.Stands [] [] := ⟨⟨rfl, rfl⟩, fun _ => rfl⟩

/-- Beginning a member and writing its lines adds it, with the gap that belongs there. -/
theorem Wrote.member {p : Pass} {ms : List Member} (h : p.Wrote ms) (m : Member) :
    ((p.begin m.kind).write m.lines).Wrote (ms ++ [m]) := by
  refine ⟨?_, by simp [begin, write]⟩
  show p.written ++ _ ++ m.lines.map .line = _
  rw [h.written, h.last]
  obtain rfl | ⟨earlier, before, rfl⟩ := ms.eq_nil_or_concat
  · simp [memberItems]
  · have grouped : (m.kind = .field && (some before.kind : Option MemberKind) = some .field) =
        (before.isField && m.isField) := by
      rw [Bool.and_comm, ← before.kind_eq_field, ← m.kind_eq_field]
      simp
    rw [List.concat_eq_append, List.append_assoc earlier, List.singleton_append, memberItems_concat,
      List.getLast?_concat, Option.map_some, grouped]
    cases before.isField && m.isField <;> rfl

theorem flush_loose (p : Pass) : p.flush.loose = [] := by
  rw [flush]
  split
  · next empty => exact List.isEmpty_iff.mp empty
  · rfl

/-- A flush writes the initializer of the waiting statements. -/
theorem Wrote.flush {p : Pass} {ms : List Member} (h : p.Wrote ms) : p.flush.Wrote (ms ++ pending p.loose) := by
  rw [Pass.flush]
  cases waiting : p.loose with
  | nil => simpa [pending] using h
  | cons n run =>
    obtain ⟨written, last⟩ := h.member (.initializer (n :: run))
    exact ⟨written, last⟩

/-- At a node that makes a member, the waiting statements come first. -/
theorem Stands.member {p : Pass} {done : List Node} {ms : List Member} (h : p.Stands done ms) {n : Node} {m : Member}
    (makes : ∀ rest, members (n :: rest) = m :: members rest) (stop : ∀ run, m ≠ .initializer run) :
    ((p.flush.begin m.kind).write m.lines).Stands (done ++ [n]) (ms ++ pending p.loose ++ [m]) := by
  refine ⟨h.toWrote.flush.member m, fun rest => ?_⟩
  have empty : ((p.flush.begin m.kind).write m.lines).loose = [] := p.flush_loose
  have apart : ∀ more ms', m :: members rest ≠ .initializer more :: ms' :=
    fun more _ same => stop more (List.cons.inj same).1
  rw [empty, List.append_assoc, List.singleton_append, h.ahead, makes, foldr_addLoose _ apart]
  simp

/-- **A step keeps the invariant.** -/
theorem Stands.step {p : Pass} {done : List Node} {ms : List Member} (h : p.Stands done ms) (n : Node) :
    ∃ ms', (p.step n).Stands (done ++ [n]) ms' := by
  -- a node that makes no member leaves the walk as it is
  have skipped (makes : ∀ rest, members (n :: rest) = members rest) : p.Stands (done ++ [n]) ms := by
    refine ⟨h.toWrote, fun rest => ?_⟩
    rw [List.append_assoc, List.singleton_append, h.ahead, makes]
  -- a statement waits behind those that wait already
  have waits (loose : isLoose n) : Pass.Stands { p with loose := p.loose ++ [n] } (done ++ [n]) ms := by
    refine ⟨⟨h.written, h.last⟩, fun rest => ?_⟩
    rw [List.append_assoc, List.singleton_append, h.ahead, members_loose loose, List.foldr_append]
    rfl
  cases n with
  | inclusion library l => exact ⟨ms, skipped fun rest => rfl⟩
  | function header body l =>
    by_cases prototype : header.isPrototype
    · rw [Pass.step, if_pos prototype]
      exact ⟨ms, skipped fun rest => by rw [members, if_pos prototype]⟩
    · rw [Pass.step, if_neg prototype]
      exact ⟨_, h.member (m := .method header body) (fun rest => by rw [members, if_neg prototype]) (by simp)⟩
  | declare name type init l => exact ⟨_, h.member (m := .field type name init) (fun rest => rfl) (by simp)⟩
  | _ => exact ⟨ms, waits rfl⟩

theorem Stands.foldl {p : Pass} {done : List Node} {ms : List Member} (h : p.Stands done ms) (ns : List Node) :
    ∃ ms', (ns.foldl Pass.step p).Stands (done ++ ns) ms' := by
  induction ns generalizing p done ms with
  | nil => exact ⟨ms, by simpa using h⟩
  | cons n ns ih =>
    obtain ⟨ms', here⟩ := h.step n
    rw [List.foldl_cons, ← List.singleton_append, ← List.append_assoc]
    exact ih here

end Pass

/-- **The walk writes the members of the program.** -/
theorem pass_written (body : List Node) :
    (body.foldl Pass.step .start).flush.written = memberItems (members body) := by
  obtain ⟨ms, stands⟩ := Pass.stands_start.foldl body
  have all : members body = ms ++ pending (body.foldl Pass.step .start).loose := by
    have rest := stands.ahead []
    rwa [List.nil_append, List.append_nil, members, foldr_addLoose _ (by simp), List.append_nil] at rest
  rw [all]
  exact stands.toWrote.flush.written

theorem items_eq (body : List Node) : items body =
    (if body.any Node.isMain then [.line ⟨0, "import java.util.Scanner;"⟩, .gap 1] else []) ++
      [.line ⟨0, "public class Main \x7b"⟩] ++ memberItems (members body) ++ [.line ⟨0, "\x7d"⟩] := by
  rw [items, pass_written]

end

end Java
end MiniC
