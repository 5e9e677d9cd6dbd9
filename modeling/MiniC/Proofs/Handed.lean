/-
# What the generators have rendered

A generator writes statements by itself and has expressions written by a renderer, which
is a parameter of it. Which nodes it hands over can be seen from its text alone: as far as
two renderers write these nodes alike, the texts are the same. `Node.handed` lists them
for each node, and `emit_congr` says that the list is complete, for both generators and
all trees.

A renderer writes nothing for a statement, so a statement among the nodes handed over
would be lost. In parsed trees there is one such case: a function in the first clause of a
`for`, and that in the typed language only (`parse_shape`).

Key definitions: `Node.handed`, `Renderer.Agree`, `Node.StrayFunction`.
Key theorems: `Java.same_of_handed`, `Python.same_of_handed`, `emit_congr`, `parse_shape`.
-/
import MiniC.Pipeline
import MiniC.Proofs.Emission.Inline
import MiniC.Proofs.Members
import MiniC.Proofs.Shape

namespace MiniC

namespace Node

/-- What a clause of a `for` has rendered: the value of a declaration or assignment,
which are written around it, and anything else as it is. -/
def clauseHanded : Node → List Node
  | .declare _ _ init _ => init.toList
  | .assign _ _ value _ => value.toList
  | n => [n]

/-- The nodes that the generator of a dialect has rendered when it comes to this one.
The indented language renders the bounds of a loop that counts and nothing of another;
an expression is rendered as a statement of its own, and its operands inside it. -/
def handed (dialect : Dialect) : Node → List Node
  | .forLoop init condition update _ _ =>
    match dialect with
    | .java =>
      init.toList.flatMap clauseHanded ++ condition.toList ++ update.toList.flatMap clauseHanded
    | .python => (CountingLoop.of? init condition update).toList.flatMap fun loop => [loop.start, loop.bound]
  | n => (if n.isExpr then [n] else []) ++ n.valuePlaces

end Node

/-- The renderers write the node alike, in every spelling. -/
def Renderer.Agree (r r' : Renderer) (e : Node) : Prop := ∀ s, r.render s e = r'.render s e

variable {r r' : Renderer}

/-! ### The typed language -/

namespace Java

theorem expr_congr {e : Node} (h : r.Agree r' e) : @expr r e = @expr r' e := h .typed

theorem charExpr_congr {e : Node} (h : r.Agree r' e) : @charExpr r e = @charExpr r' e := by
  unfold charExpr
  rw [expr_congr h]

theorem declaration_congr (type name : String) {init : Option Node} (h : ∀ e ∈ init, r.Agree r' e) :
    @declaration r type name init = @declaration r' type name init := by
  cases init with
  | none => rfl
  | some e =>
    unfold declaration
    dsimp only
    rw [charExpr_congr (h e rfl), expr_congr (h e rfl)]

theorem assignment_congr (target : String) (op : AssignOp) {value : Option Node} (h : ∀ e ∈ value, r.Agree r' e) :
    @assignment r target op value = @assignment r' target op value := by
  unfold assignment
  rw [Option.map_congr fun e he => expr_congr (h e he)]

theorem clause_congr {n : Node} (h : ∀ e ∈ n.clauseHanded, r.Agree r' e) : @clause r n = @clause r' n := by
  cases n with
  | declare name type init _ => exact declaration_congr type name fun e he => h e (Option.mem_toList.mpr he)
  | assign target op value _ => exact assignment_congr target op fun e he => h e (Option.mem_toList.mpr he)
  | _ => exact expr_congr (h _ (List.mem_singleton_self _))

theorem formatArguments_congr (text : String) {args : List Node} (h : ∀ e ∈ args, r.Agree r' e) :
    @formatArguments r text args = @formatArguments r' text args := by
  unfold formatArguments
  refine congrArg (String.intercalate ", ") (List.map_congr_left ?_)
  rintro ⟨arg, conversion⟩ paired
  have agree := h arg (mem_of_withConversions paired)
  split
  · next same =>
    obtain ⟨rfl, -⟩ := Prod.mk.inj same
    exact charExpr_congr agree
  · next same =>
    obtain ⟨rfl, -⟩ := Prod.mk.inj same
    exact expr_congr agree

theorem printLines_congr {args : List Node} (h : ∀ e ∈ args, r.Agree r' e) :
    @printLines r args = @printLines r' args := by
  cases args with
  | nil => rfl
  | cons first rest =>
    obtain ⟨here, later⟩ := List.forall_mem_cons.mp h
    unfold printLines
    dsimp only
    split
    · rw [expr_congr here]
    · rfl
    · rw [formatArguments_congr _ later]

theorem scanLines_congr {args : List Node} (h : ∀ e ∈ args, r.Agree r' e) :
    @scanLines r args = @scanLines r' args := by
  unfold scanLines
  split
  · rfl
  · refine List.map_congr_left ?_
    rintro ⟨target, conversion⟩ found
    dsimp only
    rw [expr_congr (h target (mem_of_scanTargets found))]

theorem returnLines_congr (inMain : Bool) {value : Option Node} (h : ∀ e ∈ value, r.Agree r' e) :
    @returnLines r inMain value = @returnLines r' inMain value := by
  cases value with
  | none => rfl
  | some e =>
    unfold returnLines
    dsimp only
    rw [expr_congr (h e rfl)]

/-- With both renderers the node has the same lines, also behind an `else`. -/
structure Same (r r' : Renderer) (n : Node) : Prop where
  statement : ∀ inMain depth isBody, @statement r inMain depth isBody n = @statement r' inMain depth isBody n
  otherwise : ∀ inMain depth, @otherwise r inMain depth (some n) = @otherwise r' inMain depth (some n)

theorem statements_congr {ns : List Node} (h : ∀ n ∈ ns, Same r r' n) (inMain : Bool) (depth : Nat) :
    @statements r inMain depth ns = @statements r' inMain depth ns := by
  rw [@statements_eq_flatMap r, @statements_eq_flatMap r', List.flatMap_def, List.flatMap_def]
  exact congrArg List.flatten (List.map_congr_left fun n hn => (h n hn).statement inMain depth false)

theorem otherwise_congr {n : Option Node} (h : ∀ m ∈ n, Same r r' m) (inMain : Bool) (depth : Nat) :
    @otherwise r inMain depth n = @otherwise r' inMain depth n := by
  cases n with
  | none => simp only [otherwise]
  | some m => exact (h m rfl).otherwise inMain depth

/-- The head of a `for` has its clauses and its condition rendered. -/
theorem forLoop_congr {init test update : Option Node} {body : Node} {l : Location}
    (h : ∀ e ∈ (Node.forLoop init test update body l).handed .java, r.Agree r' e)
    (inside : ∀ inMain depth isBody, @statement r inMain depth isBody body = @statement r' inMain depth isBody body)
    (inMain : Bool) (depth : Nat) (isBody : Bool) :
    @statement r inMain depth isBody (.forLoop init test update body l) =
      @statement r' inMain depth isBody (.forLoop init test update body l) := by
  obtain ⟨front, last⟩ := List.forall_mem_append.mp h
  obtain ⟨first, tested⟩ := List.forall_mem_append.mp front
  have clauses {n : Option Node} (h : ∀ e ∈ n.toList.flatMap Node.clauseHanded, r.Agree r' e) :
      n.map (@clause r) = n.map (@clause r') := by
    refine Option.map_congr fun m hm => clause_congr fun e he => ?_
    exact h e (List.mem_flatMap.mpr ⟨m, Option.mem_toList.mpr hm, he⟩)
  have condition : test.map (@expr r) = test.map (@expr r') :=
    Option.map_congr fun e he => expr_congr (tested e (Option.mem_toList.mpr he))
  simp only [statement, clauses first, condition, clauses last, inside]

/-- **The typed language has no more rendered than what is listed.** -/
theorem same_of_handed {n : Node} (h : n.Everywhere fun m => ∀ e ∈ m.handed .java, r.Agree r' e) :
    Same r r' n := by
  induction h with
  | @mk n here _ ih =>
    -- what continues no chain of branches stands behind an `else` as it stands alone
    have alone (other : ∀ test onTrue onFalse l, n ≠ .branch test onTrue onFalse l)
        (same : ∀ inMain depth isBody, @statement r inMain depth isBody n = @statement r' inMain depth isBody n) :
        Same r r' n := by
      refine ⟨same, fun inMain depth => ?_⟩
      rw [@otherwise_else r _ other, @otherwise_else r' _ other, same]
    cases n with
    | program body | block body l =>
      have inside := statements_congr fun m hm => ih m (by simpa [Node.children] using hm)
      exact alone (by simp) fun inMain depth isBody => by simp only [statement, inside]
    | inclusion | function => exact alone (by simp) fun inMain depth isBody => by simp only [statement]
    | declare name type init l =>
      have written := declaration_congr type name fun e he => here e (Option.mem_toList.mpr he)
      exact alone (by simp) fun inMain depth isBody => by simp only [statement, written]
    | assign target op value l =>
      have written := assignment_congr target op fun e he => here e (Option.mem_toList.mpr he)
      exact alone (by simp) fun inMain depth isBody => by simp only [statement, written]
    | branch test onTrue onFalse l =>
      have tested := expr_congr (here test List.mem_cons_self)
      have first := (ih onTrue (by simp [Node.children])).statement
      have second := otherwise_congr (n := onFalse) fun m hm =>
        ih m (by simp [Node.children, Node.inRole, Option.mem_def.mp hm])
      refine ⟨fun inMain depth isBody => ?_, fun inMain depth => ?_⟩
      · simp only [statement, tested, first, second]
      · simp only [otherwise, tested, first, second]
    | whileLoop test body l =>
      have tested := expr_congr (here test List.mem_cons_self)
      have inside := (ih body (by simp [Node.children])).statement
      exact alone (by simp) fun inMain depth isBody => by simp only [statement, tested, inside]
    | forLoop init test update body l =>
      exact alone (by simp) (forLoop_congr here (ih body (by simp [Node.children])).statement)
    | ret value l =>
      have written (inMain : Bool) := returnLines_congr inMain fun e he => here e (Option.mem_toList.mpr he)
      exact alone (by simp) fun inMain depth isBody => by simp only [statement, written]
    | printf args l =>
      have written : @printLines r args = @printLines r' args := printLines_congr here
      exact alone (by simp) fun inMain depth isBody => by simp only [statement, written]
    | scanf args l =>
      have written : @scanLines r args = @scanLines r' args := scanLines_congr here
      exact alone (by simp) fun inMain depth isBody => by simp only [statement, written]
    | call | binary | unary | literal | identifier =>
      have written := expr_congr (here _ List.mem_cons_self)
      exact alone (by simp) fun inMain depth isBody => by simp only [statement, written]

theorem method_congr (header : Header) {body : List Node} (h : ∀ n ∈ body, Same r r' n) :
    @method r header body = @method r' header body := by
  have main : ∀ n ∈ withoutFinalReturn body, Same r r' n := by
    intro n hn
    unfold withoutFinalReturn at hn
    split at hn
    · exact h n (List.mem_of_mem_dropLast hn)
    · exact h n hn
  unfold method
  rw [statements_congr main, statements_congr h]

theorem members_congr {body : List Node}
    (h : ∀ n ∈ body, n.Everywhere fun m => ∀ e ∈ m.handed .java, r.Agree r' e) :
    ∀ m ∈ members body, @Member.lines r m = @Member.lines r' m := by
  intro m hm
  cases members_madeOf body m hm with
  | @field name type init l member =>
    have written := declaration_congr type name fun e he => (h _ member).here e (Option.mem_toList.mpr he)
    simp only [Member.lines, field, written]
  | @method header inner l member =>
    refine method_congr header fun n hn => same_of_handed ((h _ member).child ?_)
    simpa [Node.children] using hn
  | @initializer run part =>
    have inside := statements_congr fun n hn => same_of_handed (h n (part hn))
    simp only [Member.lines, initializer, inside]

theorem memberItems_congr {ms : List Member} (h : ∀ m ∈ ms, @Member.lines r m = @Member.lines r' m) :
    @memberItems r ms = @memberItems r' ms := by
  induction ms with
  | nil => rfl
  | cons m ms ih =>
    obtain ⟨here, later⟩ := List.forall_mem_cons.mp h
    cases ms with
    | nil => simp only [memberItems, here]
    | cons next more => simp only [memberItems, here, ih later]

theorem program_congr {body : List Node}
    (h : ∀ n ∈ body, n.Everywhere fun m => ∀ e ∈ m.handed .java, r.Agree r' e) :
    @program r body = @program r' body := by
  unfold program
  rw [@items_eq r, @items_eq r', memberItems_congr (members_congr h)]

end Java

/-! ### The indented language -/

/-- The ends of a counting loop are all that is rendered of it. -/
theorem CountingLoop.rangeArguments_congr {loop : CountingLoop} (start : r.Agree r' loop.start)
    (bound : r.Agree r' loop.bound) : @rangeArguments r loop = @rangeArguments r' loop := by
  have stop : @CountingLoop.stop r loop = @CountingLoop.stop r' loop := by
    unfold CountingLoop.stop shifted
    rw [bound .indented]
  unfold rangeArguments
  rw [start .indented, stop]

namespace Python

theorem expr_congr {e : Node} (h : r.Agree r' e) : @expr r e = @expr r' e := h .indented

theorem templateBody_congr (segments : List Segment) {args : List Node} (h : ∀ e ∈ args, r.Agree r' e) :
    @templateBody r segments args = @templateBody r' segments args := by
  induction segments generalizing args with
  | nil => rfl
  | cons segment segments ih =>
    cases segment with
    | text | percent => simp only [templateBody, ih h]
    | marker m =>
      cases args with
      | nil => simp only [templateBody, ih h]
      | cons arg args =>
        obtain ⟨here, later⟩ := List.forall_mem_cons.mp h
        simp only [templateBody, field, here .field, ih later]

theorem printLines_congr {args : List Node} (h : ∀ e ∈ args, r.Agree r' e) :
    @printLines r args = @printLines r' args := by
  cases args with
  | nil => rfl
  | cons first rest =>
    obtain ⟨here, later⟩ := List.forall_mem_cons.mp h
    unfold printLines
    dsimp only
    split
    · rw [expr_congr here]
    · rfl
    · unfold template
      rw [templateBody_congr _ later]

theorem scanLines_congr {args : List Node} (h : ∀ e ∈ args, r.Agree r' e) :
    @scanLines r args = @scanLines r' args := by
  unfold scanLines
  split
  · rfl
  · refine List.map_congr_left ?_
    rintro ⟨target, conversion⟩ found
    dsimp only
    rw [expr_congr (h target (mem_of_scanTargets found))]

theorem assignment_congr (target : String) (op : AssignOp) {value : Option Node} (h : ∀ e ∈ value, r.Agree r' e) :
    @assignment r target op value = @assignment r' target op value := by
  unfold assignment
  rw [Option.map_congr fun e he => expr_congr (h e he)]

/-- With both renderers the node has the same lines, also behind an `else`. -/
structure Same (r r' : Renderer) (n : Node) : Prop where
  statement : ∀ globals depth, @statement r globals depth n = @statement r' globals depth n
  otherwise : ∀ globals depth, @otherwise r globals depth (some n) = @otherwise r' globals depth (some n)

theorem statements_congr {ns : List Node} (h : ∀ n ∈ ns, Same r r' n) (globals : List String) (depth : Nat) :
    @statements r globals depth ns = @statements r' globals depth ns := by
  rw [@statements_eq_flatMap r, @statements_eq_flatMap r', List.flatMap_def, List.flatMap_def]
  exact congrArg List.flatten (List.map_congr_left fun n hn => (h n hn).statement globals depth)

theorem otherwise_congr {n : Option Node} (h : ∀ m ∈ n, Same r r' m) (globals : List String) (depth : Nat) :
    @otherwise r globals depth n = @otherwise r' globals depth n := by
  cases n with
  | none => simp only [otherwise]
  | some m => exact (h m rfl).otherwise globals depth

/-- A loop that counts has its ends rendered, and another one nothing. -/
theorem forLoop_congr {init test update : Option Node} {body : Node} {l : Location}
    (h : ∀ e ∈ (Node.forLoop init test update body l).handed .python, r.Agree r' e)
    (inside : ∀ globals depth, @statement r globals depth body = @statement r' globals depth body)
    (globals : List String) (depth : Nat) :
    @statement r globals depth (.forLoop init test update body l) =
      @statement r' globals depth (.forLoop init test update body l) := by
  simp only [statement]
  simp only [Node.handed] at h
  cases counts : CountingLoop.of? init test update with
  | none => rfl
  | some loop =>
    rw [counts] at h
    have ends := CountingLoop.rangeArguments_congr (h loop.start (by simp)) (h loop.bound (by simp))
    simp only [ends, inside]

/-- **The indented language has no more rendered than what is listed.** -/
theorem same_of_handed {n : Node} (h : n.Everywhere fun m => ∀ e ∈ m.handed .python, r.Agree r' e) :
    Same r r' n := by
  induction h with
  | @mk n here _ ih =>
    have alone (other : ∀ test onTrue onFalse l, n ≠ .branch test onTrue onFalse l)
        (same : ∀ globals depth, @statement r globals depth n = @statement r' globals depth n) : Same r r' n := by
      refine ⟨same, fun globals depth => ?_⟩
      rw [@otherwise_else r _ other, @otherwise_else r' _ other, same]
    cases n with
    | program body | block body l | function header body l =>
      have inside := statements_congr fun m hm => ih m (by simpa [Node.children] using hm)
      exact alone (by simp) fun globals depth => by simp only [statement, inside]
    | inclusion => exact alone (by simp) fun globals depth => by simp only [statement]
    | declare name type init l =>
      have written : init.map (@expr r) = init.map (@expr r') :=
        Option.map_congr fun e he => expr_congr (here e (Option.mem_toList.mpr he))
      exact alone (by simp) fun globals depth => by simp only [statement, written]
    | assign target op value l =>
      have written := assignment_congr target op fun e he => here e (Option.mem_toList.mpr he)
      exact alone (by simp) fun globals depth => by simp only [statement, written]
    | branch test onTrue onFalse l =>
      have tested := expr_congr (here test List.mem_cons_self)
      have first := (ih onTrue (by simp [Node.children])).statement
      have second := otherwise_congr (n := onFalse) fun m hm =>
        ih m (by simp [Node.children, Node.inRole, Option.mem_def.mp hm])
      refine ⟨fun globals depth => ?_, fun globals depth => ?_⟩
      · simp only [statement, tested, first, second]
      · simp only [otherwise, tested, first, second]
    | whileLoop test body l =>
      have tested := expr_congr (here test List.mem_cons_self)
      have inside := (ih body (by simp [Node.children])).statement
      exact alone (by simp) fun globals depth => by simp only [statement, tested, inside]
    | forLoop init test update body l =>
      exact alone (by simp) (forLoop_congr here (ih body (by simp [Node.children])).statement)
    | ret value l =>
      refine alone (by simp) fun globals depth => ?_
      cases value with
      | none => simp only [statement]
      | some e => simp only [statement, expr_congr (here e List.mem_cons_self)]
    | printf args l =>
      have written : @printLines r args = @printLines r' args := printLines_congr here
      exact alone (by simp) fun globals depth => by simp only [statement, written]
    | scanf args l =>
      have written : @scanLines r args = @scanLines r' args := scanLines_congr here
      exact alone (by simp) fun globals depth => by simp only [statement, written]
    | call | binary | unary | literal | identifier =>
      have written := expr_congr (here _ List.mem_cons_self)
      exact alone (by simp) fun globals depth => by simp only [statement, written]

theorem topLevel_congr {body : List Node} (h : ∀ n ∈ body, Same r r' n) (globals : List String)
    (afterFunction : Bool) : @topLevel r globals afterFunction body = @topLevel r' globals afterFunction body := by
  induction body generalizing afterFunction with
  | nil => rfl
  | cons n ns ih =>
    obtain ⟨here, later⟩ := List.forall_mem_cons.mp h
    cases n <;> simp only [topLevel, here.statement, ih later]

theorem program_congr {body : List Node}
    (h : ∀ n ∈ body, n.Everywhere fun m => ∀ e ∈ m.handed .python, r.Agree r' e) :
    @program r body = @program r' body := by
  unfold program items
  rw [topLevel_congr fun n hn => same_of_handed (h n hn)]

end Python

/-- **No generator has more rendered than what is listed**: where two renderers agree on that,
the text is the same. -/
theorem emit_congr {dialect : Dialect} {tree : Node}
    (h : tree.Everywhere fun n => ∀ e ∈ n.handed dialect, r.Agree r' e) :
    @emit r dialect tree = @emit r' dialect tree := by
  cases tree with
  | program body =>
    have below : ∀ n ∈ body, n.Everywhere fun n => ∀ e ∈ n.handed dialect, r.Agree r' e :=
      fun n hn => h.child (by simpa [Node.children] using hn)
    cases dialect with
    | java => exact Java.program_congr below
    | python => exact Python.program_congr below
  | _ => rfl

/-! ### Parsed trees -/

theorem CountingLoop.start?_place {n value : Node} {x : String} (h : start? n = some (x, value)) :
    value ∈ n.valuePlaces := by
  unfold start? at h
  split at h
  · obtain ⟨-, rfl⟩ := Prod.mk.inj (Option.some.inj h)
    simp [Node.valuePlaces]
  · obtain ⟨-, rfl⟩ := Prod.mk.inj (Option.some.inj h)
    simp [Node.valuePlaces]
  · cases h

/-- The ends of a counting loop stand in the places of values. -/
theorem CountingLoop.of?_places {init test update : Option Node} {loop : CountingLoop}
    (h : of? init test update = some loop) :
    (∃ n ∈ init, loop.start ∈ n.valuePlaces) ∧ ∃ e ∈ test, loop.bound ∈ e.valuePlaces := by
  simp only [of?, bind, Option.bind_eq_some_iff] at h
  obtain ⟨n, rfl, ⟨x, value⟩, started, e, rfl, h⟩ := h
  split at h
  · split at h
    · simp only [Option.bind_eq_some_iff] at h
      obtain ⟨_, -, step, -, inclusive, -, found⟩ := h
      obtain rfl := Option.some.inj found
      exact ⟨⟨n, rfl, start?_place started⟩, _, rfl, by simp [Node.valuePlaces]⟩
    · cases h
  · cases h

/-- The generator has the function rendered that stands in the first clause of the loop. -/
def Node.StrayFunction (n e : Node) : Prop :=
  e.isFunction ∧ ∃ test update body l, n = .forLoop (some e) test update body l

namespace Node.Phrased

variable {n : Node}

theorem clauseHanded (h : n.Phrased) :
    ∀ e ∈ n.clauseHanded, e.isExpr ∨ e = n ∧ n.isDeclared = false ∧ n.isAssigned = false := by
  intro e he
  cases n with
  | declare | assign => exact .inl (h.shaped.values e he)
  | _ => exact .inr ⟨List.mem_singleton.mp he, rfl, rfl⟩

theorem forLoop_handed {init test update : Option Node} {body : Node} {l : Location}
    (h : (Node.forLoop init test update body l).Phrased) :
    ∀ e ∈ (Node.forLoop init test update body l).handed .java,
      e.isExpr ∨ StrayFunction (.forLoop init test update body l) e := by
  obtain ⟨firstKinds, lastKinds⟩ : (Node.forLoop init test update body l).WellMade := h.shaped.made
  have clause {m : Node} (member : m ∈ init ∨ m ∈ update) : m.Phrased :=
    h.parts.clauses m (by simpa [clausePlaces] using member)
  intro e he
  simp only [handed, List.mem_append, List.mem_flatMap, Option.mem_toList] at he
  rcases he with (⟨m, hm, he⟩ | he) | ⟨m, hm, he⟩
  · rcases (clause (.inl hm)).clauseHanded e he with isExpr | ⟨rfl, notDeclared, notAssigned⟩
    · exact .inl isExpr
    · rcases firstKinds e hm with declared | function | assigned | isExpr
      · simp [notDeclared] at declared
      · obtain rfl : init = some e := hm
        exact .inr ⟨function, test, update, body, l, rfl⟩
      · simp [notAssigned] at assigned
      · exact .inl isExpr
  · exact .inl (h.shaped.values e (by simpa [valuePlaces] using he))
  · rcases (clause (.inr hm)).clauseHanded e he with isExpr | ⟨rfl, -, notAssigned⟩
    · exact .inl isExpr
    · rcases lastKinds e hm with assigned | isExpr
      · simp [notAssigned] at assigned
      · exact .inl isExpr

theorem counting_handed {init test update : Option Node} {body : Node} {l : Location}
    (h : (Node.forLoop init test update body l).Phrased) :
    ∀ e ∈ (Node.forLoop init test update body l).handed .python, e.isExpr := by
  intro e he
  simp only [handed, List.mem_flatMap, Option.mem_toList] at he
  obtain ⟨loop, found, he⟩ := he
  obtain ⟨⟨first, hfirst, start⟩, second, hsecond, bound⟩ := CountingLoop.of?_places found
  rcases List.mem_cons.mp he with rfl | he
  · have clause : first.Phrased := h.parts.clauses first (by simp [clausePlaces, Option.mem_def.mp hfirst])
    exact clause.shaped.values _ start
  · obtain rfl := List.mem_singleton.mp he
    have tested : second.Phrased := .inr (h.parts.values second (by simpa [valuePlaces] using hsecond))
    exact tested.shaped.values _ bound

/-- What is rendered is an expression, or the function in the first clause of a loop. -/
theorem handed_isExpr (h : n.Phrased) (dialect : Dialect) :
    ∀ e ∈ n.handed dialect, e.isExpr ∨ dialect = .java ∧ StrayFunction n e := by
  have plain : ∀ e ∈ (if n.isExpr then [n] else []) ++ n.valuePlaces, e.isExpr := by
    intro e he
    rcases List.mem_append.mp he with he | he
    · by_cases isExpr : n.isExpr
      · obtain rfl : e = n := by simpa [isExpr] using he
        exact isExpr
      · simp [isExpr] at he
    · exact h.shaped.values e he
  intro e he
  cases n with
  | forLoop init test update body l =>
    cases dialect with
    | java => exact (h.forLoop_handed e he).imp_right fun stray => ⟨rfl, stray⟩
    | python => exact .inl (h.counting_handed e he)
  | _ => exact .inl (plain e he)

end Node.Phrased

/-- **Parsed trees are well shaped, whatever the tokens are.** The root is a program and
the only one. Conditions, arguments, operands, initial, assigned and returned values are
expressions; the clauses of a `for` are of the kinds it can have; an assignment lacks a
value just if it is a step; a prototype has no body; a number is a float just if its text
holds a point; and an expression that stands as a statement starts with a name or a
call, with operators that bind ever tighter on the way down to it. So it does not matter
to a generator how a statement is rendered: renderers that agree on expressions lead to
the same text, if they agree on functions in the first clause of a `for` as well, and in
the indented language even if they do not. -/
theorem parse_shape (tokens : List Token) :
    let tree := (parseTokens tokens).tree
    tree.isProgram ∧ tree.Everywhere Node.Shaped ∧
      ∀ r r' : Renderer, (∀ e, e.isExpr → r.Agree r' e) →
        @emit r .python tree = @emit r' .python tree ∧
        ((tree.Everywhere fun n => ∀ e, n.StrayFunction e → r.Agree r' e) →
          @emit r .java tree = @emit r' .java tree) := by
  intro tree
  have handed : tree.Everywhere fun n => ∀ dialect, ∀ e ∈ n.handed dialect,
      e.isExpr ∨ dialect = .java ∧ n.StrayFunction e := by
    refine parse_everywhere Node.Phrased.handed_isExpr (fun _ dialect e he => ?_) tokens
    simp [Node.handed, Node.isExpr, Node.valuePlaces] at he
  refine ⟨?_, parse_shaped tokens, fun r r' agree => ⟨emit_congr ?_, fun strays => emit_congr ?_⟩⟩
  · obtain ⟨body, root, -⟩ := parse_phrased tokens
    show (parseTokens tokens).tree.isProgram
    rw [root]
    rfl
  · refine handed.imp fun {n} here e he => ?_
    rcases here .python e he with isExpr | ⟨typed, -⟩
    · exact agree e isExpr
    · cases typed
  · refine (handed.and strays).imp fun {n} here e he => ?_
    rcases here.1 .java e he with isExpr | ⟨-, stray⟩
    · exact agree e isExpr
    · exact here.2 e stray

/-- Renders functions too, by a mark. -/
abbrev markFunctions : Renderer := ⟨fun s n => if n.isFunction then "?" else n.render s⟩

/-- The exception occurs: a function in the first clause is handed over, and its mark is
seen in the typed language. -/
theorem parse_shape_strayFunction :
    let tree := (parseTokens (tokenize "for (int f() \x7b \x7d ; ; ) x;").tokens).tree
    let plain : Renderer := ⟨Node.render⟩
    (∀ e, e.isExpr → plain.Agree markFunctions e) ∧
      @emit plain .python tree = @emit markFunctions .python tree ∧
      @emit plain .java tree ≠ @emit markFunctions .java tree := by
  intro tree plain
  have agree : ∀ e, e.isExpr → plain.Agree markFunctions e := by
    intro e isExpr s
    cases e with
    | binary | unary | literal | identifier | call => rfl
    | _ => cases isExpr
  exact ⟨agree, ((parse_shape _).2.2 plain markFunctions agree).1, by decide +kernel⟩

end MiniC
