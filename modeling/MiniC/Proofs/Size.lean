/-
# How many nodes a parsed tree has

A tree is no larger than its text: the tokens pay for its nodes. An expression has at
most as many nodes as tokens were taken for it, since each literal, name and operator is
a token and parentheses are tokens without a node. A statement has at most twice as
many. There a node may come without a token of its own: the empty block that stands for
a missing body. But before such a block stands the keyword of a branch or loop or an
`else`, and at two nodes a token the keyword pays for the block, too.

`Pays rate c n c'` says that the tokens taken on the way from `c` to `c'` pay for `n`
nodes. Payments add up along the way, so each parser has one lemma, which adds up those of
the parsers it calls. Tokens that are skipped pay for nothing, and that is all there is to
recovery from faults.

Key definitions: `Node.size`, `Pays`, `Parse.Sized`.
Key theorems: `Parse.expression_sized`, `Parse.statement_sized`, `parse_size_bounded`.
-/
import MiniC.Proofs.Yield

namespace MiniC

namespace Node

mutual

/-- The nodes of the tree. -/
@[simp] def size : Node → Nat
  | .program body | .function _ body _ | .block body _ => sizeAll body + 1
  | .printf args _ | .scanf args _ | .call _ args _ => sizeAll args + 1
  | .declare _ _ value _ | .assign _ _ value _ | .ret value _ => size? value + 1
  | .branch test onTrue onFalse _ => size test + size onTrue + size? onFalse + 1
  | .whileLoop test body _ => size test + size body + 1
  | .forLoop init test update body _ => size? init + size? test + size? update + size body + 1
  | .binary _ left right _ => size left + size right + 1
  | .unary _ operand _ => size operand + 1
  | .inclusion .. | .literal .. | .identifier .. => 1

/-- The nodes of some trees. -/
@[simp] def sizeAll : List Node → Nat
  | [] => 0
  | n :: ns => size n + sizeAll ns

/-- The nodes of a tree that may be missing. -/
@[simp] def size? : Option Node → Nat
  | none => 0
  | some n => size n

end

theorem sizeAll_append (ns ms : List Node) : sizeAll (ns ++ ms) = sizeAll ns + sizeAll ms := by
  induction ns with
  | nil => rw [List.nil_append, sizeAll, Nat.zero_add]
  | cons n ns ih => rw [List.cons_append, sizeAll, sizeAll, ih, Nat.add_assoc]

theorem sizeAll_toList (n : Option Node) : sizeAll n.toList = size? n := by
  cases n with
  | none => rfl
  | some n => rw [Option.toList_some, sizeAll, sizeAll, size?, Nat.add_zero]

theorem size_pos (n : Node) : 0 < n.size := by
  cases n <;> simp

end Node

/-! ### Payments -/

/-- Tokens are taken on the way from `c` to `c'`, and at `rate` nodes a token they pay for
`n` nodes. -/
def Pays (rate : Nat) (c : Cursor) (n : Nat) (c' : Cursor) : Prop :=
  ∃ taken, c.rest = taken ++ c'.rest ∧ n ≤ rate * taken.length

namespace Pays

variable {rate m n : Nat} {c c' c'' : Cursor}

theorem refl (c : Cursor) : Pays rate c 0 c :=
  ⟨[], rfl, Nat.zero_le _⟩

theorem trans (h : Pays rate c m c') (h' : Pays rate c' n c'') : Pays rate c (m + n) c'' := by
  obtain ⟨taken, hrest, hm⟩ := h
  obtain ⟨taken', hrest', hn⟩ := h'
  refine ⟨taken ++ taken', by rw [hrest, hrest', List.append_assoc], ?_⟩
  rw [List.length_append, Nat.mul_add]
  exact Nat.add_le_add hm hn

/-- What pays for more nodes pays for fewer. -/
theorem mono (h : Pays rate c n c') (le : m ≤ n) : Pays rate c m c' := by
  obtain ⟨taken, hrest, hn⟩ := h
  exact ⟨taken, hrest, Nat.le_trans le hn⟩

/-- A token that pays for one node pays for two at the double rate. -/
theorem double (h : Pays 1 c n c') : Pays 2 c n c' := by
  obtain ⟨taken, hrest, hn⟩ := h
  exact ⟨taken, hrest, by omega⟩

theorem advance {t : Token} {ts : List Token} (h : c.rest = t :: ts) : Pays rate c rate c.advance := by
  rw [Cursor.advance_rest h]
  exact ⟨[t], h, by simp⟩

/-- Tokens that are read without a node pay for none. -/
theorem reads {words : List Lexeme} (h : Pays rate c n c') (h' : Reads c' words c'') : Pays rate c n c'' := by
  obtain ⟨taken, -, hrest, -⟩ := h'
  exact h.trans ⟨taken, hrest, Nat.zero_le _⟩

/-- A token that is taken pays for one node. -/
theorem of_takes {words : List Lexeme} (h : Takes c words c') : Pays 1 c 1 c' := by
  obtain ⟨⟨taken, -, hrest, -⟩, shorter⟩ := h
  refine ⟨taken, hrest, ?_⟩
  rw [hrest, List.length_append] at shorter
  omega

end Pays

/-- Nor do they where the payment comes after them. -/
theorem Reads.pays {rate n : Nat} {c c' c'' : Cursor} {words : List Lexeme} (h : Reads c words c')
    (h' : Pays rate c' n c'') : Pays rate c n c'' :=
  (((Pays.refl c).reads h).trans h').mono (by omega)

namespace Parse

/-- The tokens that the parser takes pay for the tree that it gives. -/
def Sized (rate : Nat) (p : Parse (Option Node)) : Prop :=
  ∀ c, Ensures p c fun n c' => Pays rate c (Node.size? n) c'

theorem Sized.double {p : Parse (Option Node)} (h : Sized 1 p) : Sized 2 p :=
  fun c => (h c).mono fun _ _ paid => paid.double

theorem Sized.pays {rate : Nat} {p : Parse (Option Node)} (h : Sized rate p) {c : Cursor} {n : Option Node}
    (found : (p c).1 = n) : Pays rate c (Node.size? n) (p c).2 := by
  subst found
  exact h c

/-- The same for the trees that it gives, none or one, in a list. -/
theorem Sized.item {rate : Nat} {p : Parse (Option Node)} (h : Sized rate p) (c : Cursor) :
    Ensures p c fun n c' => Pays rate c (Node.sizeAll n.toList) c' :=
  (h c).mono fun n _ paid => Node.sizeAll_toList n ▸ paid

/-! ### Small parsers -/

/-- A token that is accepted pays for two nodes of a statement. -/
theorem accept_pays (kind : Token.Kind) (text : String) (c : Cursor) :
    Ensures (accept kind text) c fun found c' => Pays 2 c (if found then 2 else 0) c' := by
  unfold Ensures accept
  split
  · next looks =>
    obtain ⟨t, ts, hrest, -⟩ := Cursor.exists_of_looksAt looks
    exact .advance hrest
  · exact .refl c

theorem acceptKind_pays (kind : Token.Kind) (c : Cursor) :
    Ensures (acceptKind kind) c fun found c' => Pays 2 c (if found.isSome then 2 else 0) c' := by
  unfold Ensures acceptKind
  split
  · exact .refl c
  · next t ts hrest =>
    split
    · exact .advance hrest
    · exact .refl c

theorem tooDeep_sized {rate : Nat} : Sized rate tooDeep := by
  intro c
  unfold tooDeep
  refine .peek (fun _ => .pure (.refl c)) fun t ts hrest => ?_
  exact .bind_eq rfl (.bind_eq rfl (.pure ((Pays.advance hrest).mono (Nat.zero_le _))))

/-! ### Expressions -/

section

variable {operand expression : Parse (Option Node)}

/-- What a chain adds to its left operand is paid for. -/
theorem chain_pays (level : Nat) (h : Sized 1 operand) (left : Node) (c : Cursor) :
    Ensures (chain level operand left) c fun n c' => Pays 1 c (n.size - left.size) c' := by
  unfold Ensures chain
  fun_induction chain.go level operand left c with
  | case1 left c => exact (Pays.refl c).mono (Nat.le_of_eq (Nat.sub_self left.size))
  | case2 left c => exact (Pays.refl c).mono (Nat.le_of_eq (Nat.sub_self left.size))
  | case3 left c t ts hrest o ho found missing =>
    refine ((Pays.advance hrest).trans (h _)).mono ?_
    show left.size - left.size ≤ _
    omega
  | case4 left c t ts hrest o ho found right hright _ ih =>
    refine (((Pays.advance hrest).trans (h.pays hright)).trans ih).mono ?_
    simp only [Node.size, Node.size?]
    omega
  | case5 left c t ts hrest o ho found right hright _ =>
    refine ((Pays.advance hrest).trans (h.pays hright)).mono ?_
    simp only [Node.size, Node.size?]
    omega

theorem binaryLevel_sized (level : Nat) (h : Sized 1 operand) : Sized 1 (binaryLevel level operand) := by
  intro c
  unfold binaryLevel
  refine .bind (h c) fun n c1 paid => ?_
  cases n with
  | none => exact .pure paid
  | some left =>
    refine .bind (chain_pays level h left c1) fun n c2 more => .pure ((paid.trans more).mono ?_)
    simp only [Node.size?]
    omega

theorem tier_sized (h : Sized 1 operand) : ∀ k, Sized 1 (tier operand k)
  | 0 => h
  | k + 1 => binaryLevel_sized (6 - k) (tier_sized h k)

theorem argumentsOver_pays (h : Sized 1 expression) (c : Cursor) :
    Ensures (argumentsOver expression) c fun args c' => Pays 1 c (Node.sizeAll args) c' := by
  unfold Ensures argumentsOver
  fun_induction argumentsOver.go expression c with
  | case1 c found missing => exact h.pays missing
  | case2 c found arg harg comma _ more ih => exact ((h.pays harg).reads (.punct comma)).trans ih
  | case3 c found arg harg comma _ => exact (h.pays harg).reads (.punct comma)
  | case4 c found arg harg _ => exact h.pays harg

theorem argumentList_pays (h : Sized 1 expression) (c : Cursor) :
    Ensures (argumentList expression) c fun args c' => Pays 1 c (Node.sizeAll args) c' := by
  unfold argumentList
  refine .bind (acceptDelimiter_reads "(" c) fun _ c1 opened => .bind_eq rfl ?_
  split
  · refine .bind_eq rfl ?_
    exact .bind (closeGroup_reads c1) fun _ c2 closed => .pure (opened.pays ((Pays.refl c1).reads closed))
  · refine .bind (argumentsOver_pays h c1) fun args c2 paid => ?_
    exact .bind (closeGroup_reads c2) fun _ c3 closed => .pure ((opened.pays paid).reads closed)

theorem primary_sized (h : Sized 1 expression) : Sized 1 (primary expression) := by
  intro c
  unfold primary
  refine .peek (fun _ => .pure (.refl c)) fun t ts hrest => ?_
  have taken : Pays 1 c 1 c.advance := .advance hrest
  dsimp only
  split
  · exact .bind_eq rfl (.pure taken)
  · exact .bind_eq rfl (.pure taken)
  · refine .bind_eq rfl (.bind_eq rfl ?_)
    split
    · refine .bind (argumentList_pays h _) fun args c1 paid => .pure ((taken.trans paid).mono ?_)
      simp only [Node.size?, Node.size]
      omega
    · exact .pure taken
  · split
    · refine .bind_eq rfl (.bind (h _) fun inner c1 paid => ?_)
      refine .bind (closeGroup_reads c1) fun _ c2 closed => .pure ?_
      exact ((taken.trans paid).reads closed).mono (Nat.le_add_left _ _)
    · exact .pure (.refl c)
  · exact .pure (.refl c)

theorem prefixed_sized (h : Sized 1 operand) : Sized 1 (prefixed operand) := by
  have hprimary : Sized 1 (primary (expressionOver operand)) := primary_sized (tier_sized h 6)
  intro c
  unfold prefixed
  refine .peek (fun _ => .pure (.refl c)) fun t ts hrest => ?_
  dsimp only
  split
  · split
    · exact .pure (.refl c)
    · next o ho =>
      refine .bind_eq rfl ?_
      -- both kinds of operand are paid for alike, and the sign pays for itself
      have rest : ∀ inner c1, Pays 1 c.advance (Node.size? inner) c1 →
          Ensures (match inner with
            | none => do
              report (.missingOperand o) t.location
              return none
            | some inner => return some (.unary o inner t.location)) c1
            fun n c' => Pays 1 c (Node.size? n) c' := by
        intro inner c1 paid
        have paid := (Pays.advance hrest).trans paid
        cases inner with
        | none => exact .bind_eq rfl (.pure (paid.mono (Nat.zero_le _)))
        | some inner =>
          refine .pure (paid.mono ?_)
          simp only [Node.size?, Node.size]
          omega
      split
      · exact .bind (hprimary _) rest
      · exact .bind (h _) rest
  · exact hprimary c

end

theorem operand_sized : ∀ levels, Sized 1 (operand levels)
  | 0 => tooDeep_sized
  | levels + 1 => fun c => .nested (prefixed_sized (operand_sized levels) { c with depth := c.depth + 1 })

/-- **An expression has at most as many nodes as tokens were taken for it.** -/
theorem expression_sized (levels : Nat) : Sized 1 (expression levels) :=
  tier_sized (operand_sized levels) 6

/-! ### Declarations -/

/-- A list is paid for if each item is, for any count of nodes that adds up. -/
theorem collectUntil_pays {α : Type} {rate : Nat} (stop : Token → Bool) {item : Parse (Option α)}
    {count : List α → Nat} (empty : count [] = 0) (adds : ∀ as bs, count (as ++ bs) = count as + count bs)
    (h : ∀ c, Ensures item c fun a c' => Pays rate c (count a.toList) c') (c : Cursor) :
    Ensures (collectUntil stop item) c fun as c' => Pays rate c (count as) c' := by
  unfold Ensures collectUntil
  fun_induction collectUntil.go stop item c with
  | case1 c => exact (Pays.refl c).mono (Nat.le_of_eq empty)
  | case2 c => exact (Pays.refl c).mono (Nat.le_of_eq empty)
  | case3 c t ts hrest _ found _ more ih =>
    show Pays rate c (count (found.1.toList ++ more.1)) more.2
    rw [adds]
    exact Pays.trans (h c) ih
  | case4 c t ts hrest _ found _ => exact h c

section

variable {statement expression : Parse (Option Node)}

/-- The brace in front of a block pays for the block. -/
theorem blockBody_pays (h : Sized 2 statement) {c : Cursor} {t : Token} {ts : List Token} (hrest : c.rest = t :: ts)
    (ht : t.is .delimiter openBrace) :
    Ensures (blockBody statement) c fun body c' => Pays 2 c (Node.sizeAll body + 1) c' := by
  unfold blockBody
  refine .bind_eq (accept_cons hrest ht) ?_
  refine .bind (collectUntil_pays _ rfl Node.sizeAll_append h.item _) fun body c1 paid => ?_
  refine .bind (acceptDelimiter_reads closeBrace c1) fun _ c2 closed => .pure ?_
  exact (((Pays.advance hrest).trans paid).reads closed).mono (by omega)

/-- Behind its name a declaration has all its nodes but one. -/
theorem functionRest_pays (h : Sized 2 statement) (type : String) (name : Token) (c : Cursor) :
    Ensures (functionRest statement type name) c fun n c' => Pays 2 c (n.size - 1) c' := by
  unfold functionRest
  refine .bind (parameters_reads c) fun ps c1 read => .bind_eq rfl ?_
  split
  · next looks =>
    obtain ⟨t, ts, hrest, ht⟩ := Cursor.exists_of_looksAt looks
    refine .bind (blockBody_pays h hrest ht) fun body c2 paid => .pure (read.pays (paid.mono ?_))
    simp only [Node.size]
    omega
  · exact .bind (acceptDelimiter_reads ";" c1) fun _ c2 closed => .pure (read.pays ((Pays.refl c1).reads closed))

theorem initializer_sized (h : Sized 1 expression) (name : Token) : Sized 1 (initializer expression name) := by
  intro c
  unfold initializer
  refine .bind (accept_reads .operator "=" c) fun found c1 taken => ?_
  cases found with
  | false => exact .pure (taken.pays (.refl c1))
  | true =>
    refine .bind (h c1) fun init c2 paid => ?_
    cases init with
    | some value => exact .pure (taken.pays paid)
    | none => exact .bind_eq rfl (.pure (taken.pays paid))

theorem variableRest_pays (h : Sized 1 expression) (type : String) (name : Token) (c : Cursor) :
    Ensures (variableRest expression type name) c fun n c' => Pays 2 c (n.size - 1) c' := by
  unfold variableRest
  refine .bind (initializer_sized h name c) fun init c1 paid => ?_
  refine .bind (skipDeclarators_reads name c1) fun _ c2 skipped => ?_
  exact .bind (acceptDelimiter_reads ";" c2) fun _ c3 closed => .pure ((paid.double.reads skipped).reads closed)

/-- A declaration is paid for by its name and what stands behind it. -/
theorem declaration_sized (hs : Sized 2 statement) (he : Sized 1 expression) :
    Sized 2 (declaration statement expression) := by
  intro c
  unfold declaration
  refine .bind_eq rfl ?_
  refine .bind (typeName_reads c) fun type c1 typed => ?_
  refine .bind (acceptKind_pays .identifier c1) fun name c2 named => ?_
  have named := typed.pays named
  cases name with
  | none => exact .bind_eq rfl (.pure named)
  | some name =>
    refine .bind_eq rfl ?_
    split
    · refine .bind (functionRest_pays hs type name c2) fun n c3 paid => .pure ((named.trans paid).mono ?_)
      simp only [Node.size?, Option.isSome_some, if_true]
      omega
    · refine .bind (variableRest_pays he type name c2) fun n c3 paid => .pure ((named.trans paid).mono ?_)
      simp only [Node.size?, Option.isSome_some, if_true]
      omega

/-! ### Statements -/

/-- The empty block in the place of a missing body is the one node that no token pays for. -/
theorem body_pays (h : Sized 2 statement) (c : Cursor) :
    Ensures (body statement) c fun n c' => Pays 2 c (n.size - 1) c' := by
  unfold body
  refine .bind_eq rfl (.bind (h c) fun n c1 paid => .pure ?_)
  cases n with
  | none => exact paid
  | some n => exact paid.mono (Nat.sub_le _ _)

theorem condition_sized (h : Sized 1 expression) : Sized 1 (condition expression) := by
  intro c
  unfold condition
  refine .bind (acceptDelimiter_reads "(" c) fun _ c1 opened => ?_
  refine .bind (h c1) fun n c2 paid => ?_
  exact .bind (closeGroup_reads c2) fun _ c3 closed => .pure ((opened.pays paid).reads closed)

section

variable {c : Cursor} {t : Token} {ts : List Token}

/-- The keyword pays for the branch and the first block, `else` for the second one. -/
theorem branchStatement_pays (hs : Sized 2 statement) (he : Sized 1 expression) (hrest : c.rest = t :: ts)
    (start : Location) :
    Ensures (branchStatement statement expression start) c fun n c' => Pays 2 c (Node.size? n) c' := by
  unfold branchStatement
  refine .bind_eq rfl ?_
  refine .bind (condition_sized he _) fun test c1 tested => ?_
  refine .bind (body_pays hs c1) fun onTrue c2 yes => ?_
  refine .bind (accept_pays .keyword "else" c2) fun found c3 other => ?_
  have paid := (((Pays.advance hrest).trans tested.double).trans yes).trans other
  cases found with
  | true =>
    refine .bind_map (body_pays hs c3) fun onFalse c4 no => ?_
    have paid := paid.trans no
    cases test with
    | none => exact .bind_eq rfl (.pure (paid.mono (Nat.zero_le _)))
    | some test =>
      refine .pure (paid.mono ?_)
      simp only [Node.size?, Node.size, if_true]
      omega
  | false =>
    refine .bind_eq rfl ?_
    cases test with
    | none => exact .bind_eq rfl (.pure (paid.mono (Nat.zero_le _)))
    | some test =>
      refine .pure (paid.mono ?_)
      simp only [Node.size?, Node.size]
      omega

theorem whileStatement_pays (hs : Sized 2 statement) (he : Sized 1 expression) (hrest : c.rest = t :: ts)
    (start : Location) :
    Ensures (whileStatement statement expression start) c fun n c' => Pays 2 c (Node.size? n) c' := by
  unfold whileStatement
  refine .bind_eq rfl ?_
  refine .bind (condition_sized he _) fun test c1 tested => ?_
  refine .bind (body_pays hs c1) fun repeated c2 more => ?_
  have paid := ((Pays.advance hrest).trans tested.double).trans more
  cases test with
  | none => exact .bind_eq rfl (.pure (paid.mono (Nat.zero_le _)))
  | some test =>
    refine .pure (paid.mono ?_)
    simp only [Node.size?, Node.size]
    omega

theorem nameStatement_sized (he : Sized 1 expression) : Sized 2 (nameStatement expression) := by
  have plain : Sized 2 (nameStatement.plain expression) := by
    intro c
    unfold nameStatement.plain
    refine .bind (he c) fun n c1 paid => ?_
    exact .bind (acceptDelimiter_reads ";" c1) fun _ c2 closed => .pure (paid.double.reads closed)
  intro c
  unfold nameStatement
  refine .bind_eq rfl ?_
  split
  · next target operator ts hrest =>
    split
    · exact plain c
    · next o ho =>
      -- target and sign are taken, and they pay for the node
      refine .bind_eq rfl (.bind_eq rfl ?_)
      have hrest' : c.advance.rest = operator :: ts := by rw [Cursor.advance_rest hrest]
      have taken : Pays 2 c 4 c.advance.advance := (Pays.advance hrest).trans (.advance hrest')
      split
      · refine .bind (acceptDelimiter_reads ";" _) fun _ c1 closed => .pure ?_
        exact (taken.reads closed).mono (by simp only [Node.size?, Node.size]; omega)
      · refine .bind (he _) fun value c1 paid => ?_
        have paid := taken.trans paid.double
        cases value with
        | some value =>
          refine .bind (acceptDelimiter_reads ";" c1) fun _ c2 closed => .pure ((paid.reads closed).mono ?_)
          simp only [Node.size?, Node.size]
          omega
        | none =>
          refine .bind_eq rfl (.bind (acceptDelimiter_reads ";" _) fun _ c2 closed => .pure ?_)
          have read : Pays 2 c1 0 c2 := (Pays.refl (c1.report _ _)).reads closed
          exact (paid.trans read).mono (Nat.zero_le _)
  · exact plain c

theorem forClause_sized (hs : Sized 2 statement) (he : Sized 1 expression) :
    Sized 2 (forInit.clause statement expression) := by
  intro c
  unfold forInit.clause
  refine .peek (fun _ => .bind_eq rfl (.bind_eq rfl (.pure (.refl c)))) fun t ts hrest => ?_
  dsimp only
  split
  · exact declaration_sized hs he c
  split
  · exact nameStatement_sized he c
  · exact .bind_eq rfl (.pure (.refl c))

theorem forInit_sized (hs : Sized 2 statement) (he : Sized 1 expression) : Sized 2 (forInit statement expression) := by
  intro c
  unfold forInit
  refine .bind (acceptDelimiter_reads ";" c) fun found c1 closed => ?_
  split
  · exact .pure (closed.pays (.refl c1))
  refine .bind (forClause_sized hs he c1) fun init c2 first => .bind_eq rfl ?_
  have paid := closed.pays first
  split
  · split
    · exact .pure paid
    · exact .bind (acceptDelimiter_reads ";" c2) fun _ c3 closed => .pure (paid.reads closed)
  · exact .pure paid

theorem forCondition_sized (he : Sized 1 expression) : Sized 1 (forCondition expression) := by
  intro c
  unfold forCondition
  refine .bind_eq rfl ?_
  split
  · refine .bind_eq rfl (.bind (acceptDelimiter_reads ";" c) fun _ c1 closed => .pure ?_)
    exact (Pays.refl c).reads closed
  · refine .bind (he c) fun test c1 paid => ?_
    exact .bind (acceptDelimiter_reads ";" c1) fun _ c2 closed => .pure (paid.reads closed)

theorem forUpdate_sized (he : Sized 1 expression) : Sized 2 (forUpdate expression) := by
  intro c
  have finish : ∀ update c1, Pays 2 c (Node.size? update) c1 →
      Ensures (closeGroup >>= fun _ => pure update) c1 fun n c' => Pays 2 c (Node.size? n) c' := fun update c1 paid =>
    .bind (closeGroup_reads c1) fun _ c2 closed => .pure (paid.reads closed)
  unfold forUpdate
  refine .bind_eq rfl ?_
  split
  · exact .bind_eq rfl (finish none c (.refl c))
  · refine .peek (fun _ => .bind (he.double c) finish) fun t ts hrest => ?_
    dsimp only
    split
    · exact .bind (nameStatement_sized he c) finish
    · exact .bind (he.double c) finish

/-- The keyword pays for the loop and the block. -/
theorem forStatement_pays (hs : Sized 2 statement) (he : Sized 1 expression) (hrest : c.rest = t :: ts)
    (start : Location) :
    Ensures (forStatement statement expression start) c fun n c' => Pays 2 c n.size c' := by
  unfold forStatement
  refine .bind_eq rfl ?_
  refine .bind (acceptDelimiter_reads "(" _) fun _ c1 opened => ?_
  refine .bind (forInit_sized hs he c1) fun init c2 first => ?_
  refine .bind (forCondition_sized he c2) fun test c3 second => ?_
  refine .bind (forUpdate_sized he c3) fun update c4 third => ?_
  refine .bind (body_pays hs c4) fun repeated c5 more => .pure ?_
  have clauses := ((opened.pays first).trans second.double).trans third
  refine (((Pays.advance hrest).trans clauses).trans more).mono ?_
  simp only [Node.size]
  omega

theorem returnStatement_pays (he : Sized 1 expression) (hrest : c.rest = t :: ts) (start : Location) :
    Ensures (returnStatement expression start) c fun n c' => Pays 2 c n.size c' := by
  have finish : ∀ value c1, Pays 1 c.advance (Node.size? value) c1 →
      Ensures (acceptDelimiter ";" >>= fun _ => pure (Node.ret value start)) c1 fun n c' => Pays 2 c n.size c' := by
    intro value c1 paid
    refine .bind (acceptDelimiter_reads ";" c1) fun _ c2 closed => .pure ?_
    refine (((Pays.advance hrest).trans paid.double).reads closed).mono ?_
    simp only [Node.size]
    omega
  unfold returnStatement
  refine .bind_eq rfl ?_
  refine .peek (fun _ => .bind_eq rfl (finish none _ (.refl _))) fun u us _ => ?_
  dsimp only
  split
  · exact .bind_eq rfl (finish none _ (.refl _))
  · exact .bind (he _) finish

theorem ioArguments_pays (he : Sized 1 expression) (hrest : c.rest = t :: ts) :
    Ensures (ioArguments expression) c fun args c' => Pays 2 c (Node.sizeAll args + 1) c' := by
  unfold ioArguments
  refine .bind_eq rfl (.bind (argumentList_pays he _) fun args c1 paid => ?_)
  refine .bind (acceptDelimiter_reads ";" c1) fun _ c2 closed => .pure ?_
  exact (((Pays.advance hrest).trans paid.double).reads closed).mono (by omega)

theorem directive_pays (hrest : c.rest = t :: ts) :
    Ensures (directive t) c fun n c' => Pays 2 c (Node.size? n) c' := by
  have taken : Pays 2 c 2 c.advance := .advance hrest
  unfold directive
  refine .bind_eq rfl (.bind (accept_reads .identifier "include" _) fun found c1 accepted => ?_)
  cases found with
  | true =>
    refine .bind (library_reads _ c1) fun library c2 ⟨words, read⟩ => .pure ?_
    exact ((taken.reads accepted).reads read).mono (Nat.le_succ 1)
  | false =>
    refine .bind_eq rfl (.bind_eq rfl (.pure ?_))
    exact ((taken.reads accepted).reads (.skipWhile c1 _)).mono (Nat.zero_le _)

/-- What is skipped pays for nothing. -/
theorem skip_pays (hrest : c.rest = t :: ts) :
    Ensures (do skip t; return none) c fun n c' => Pays 2 c (Node.size? n) c' :=
  .bind (skip_takes hrest) fun _ _ skipped => .pure ((Pays.refl c).reads skipped.1)

theorem keywordStatement_pays (hs : Sized 2 statement) (he : Sized 1 expression) (hrest : c.rest = t :: ts) :
    Ensures (keywordStatement statement expression t) c fun n c' => Pays 2 c (Node.size? n) c' := by
  unfold keywordStatement
  split
  · exact declaration_sized hs he c
  split
  · exact branchStatement_pays hs he hrest _
  split
  · exact whileStatement_pays hs he hrest _
  split
  · exact .map (forStatement_pays hs he hrest _) fun _ _ paid => paid
  split
  · exact .map (returnStatement_pays he hrest _) fun _ _ paid => paid
  split
  · exact .bind (ioArguments_pays he hrest) fun _ _ paid => .pure paid
  split
  · exact .bind (ioArguments_pays he hrest) fun _ _ paid => .pure paid
  · exact skip_pays hrest

theorem statementFrom_pays (hs : Sized 2 statement) (he : Sized 1 expression) (hrest : c.rest = t :: ts) :
    Ensures (statementFrom statement expression t) c fun n c' => Pays 2 c (Node.size? n) c' := by
  unfold statementFrom
  split
  · split
    · exact directive_pays hrest
    split
    · next ht => exact .bind (blockBody_pays hs hrest ht) fun _ _ paid => .pure paid
    · exact skip_pays hrest
  · exact keywordStatement_pays hs he hrest
  · exact nameStatement_sized he c
  · exact skip_pays hrest

end

end

/-- **A statement has at most twice as many nodes as tokens were taken for it.** -/
theorem statement_sized : ∀ levels, Sized 2 (statement levels)
  | 0 => tooDeep_sized
  | levels + 1 => by
    intro c
    unfold statement
    refine .peek (fun _ => .pure (.refl c)) fun t ts hrest => .nested ?_
    exact statementFrom_pays (c := { c with depth := c.depth + 1 }) (statement_sized levels)
      (expression_sized levels) hrest

/-- A statement is one item at most, and it takes a token. -/
theorem statement_counted (levels : Nat) (c : Cursor) :
    Ensures (statement levels) c fun n c' => Pays 1 c n.toList.length c' := by
  cases hrest : c.rest with
  | nil =>
    -- where no token is ahead, there is none to pay for a node
    refine (statement_sized levels c).mono fun n c' ⟨taken, all, paid⟩ => ?_
    rw [hrest] at all
    obtain ⟨rfl, done⟩ := List.append_eq_nil_iff.mp all.symm
    cases n with
    | none => exact ⟨[], hrest.trans done.symm, Nat.zero_le _⟩
    | some n => exact absurd paid (Nat.not_le_of_gt n.size_pos)
  | cons t ts =>
    refine (statement_takes hrest levels).mono fun n c' taken => (Pays.of_takes taken).mono ?_
    cases n <;> simp

/-- The statements of a program, counted and sized. -/
theorem program_pays (c : Cursor) : Ensures program c fun n c' =>
    ∃ body, n = .program body ∧ Pays 1 c body.length c' ∧ Pays 2 c (Node.sizeAll body) c' := by
  have counted := collectUntil_pays (fun _ => false) List.length_nil (fun _ _ => List.length_append)
    (statement_counted maxNesting) c
  have sized := collectUntil_pays (fun _ => false) rfl Node.sizeAll_append (statement_sized maxNesting).item c
  have all : Ensures (collectUntil (fun _ => false) (statement maxNesting)) c fun body c' =>
      Pays 1 c body.length c' ∧ Pays 2 c (Node.sizeAll body) c' := ⟨counted, sized⟩
  unfold program
  exact .bind all fun body c' paid => .pure ⟨body, rfl, paid⟩

end Parse

/-- The tokens that a parser reads: those in front of the first end-of-input mark, without newlines. -/
theorem Cursor.ofTokens_rest (tokens : List Token) (earlier : List Diagnostic) :
    (ofTokens tokens earlier).rest =
      (tokens.takeWhile (·.kind ≠ .endOfInput)).filter (·.kind ≠ .newline) := by
  show (tokens.filter (·.kind ≠ .newline)).takeWhile (·.kind ≠ .endOfInput) = _
  induction tokens with
  | nil => rfl
  | cons t ts ih =>
    by_cases newline : t.kind = .newline
    · rw [List.filter_cons_of_neg (by simp [newline]), ih, List.takeWhile_cons_of_pos (by simp [newline]),
        List.filter_cons_of_neg (by simp [newline])]
    · rw [List.filter_cons_of_pos (by simp [newline])]
      by_cases last : t.kind = .endOfInput
      · rw [List.takeWhile_cons_of_neg (by simp [last]), List.takeWhile_cons_of_neg (by simp [last])]
        rfl
      · rw [List.takeWhile_cons_of_pos (by simp [last]), List.takeWhile_cons_of_pos (by simp [last]),
          List.filter_cons_of_pos (by simp [newline]), ih]

theorem Pays.le_ahead {rate n : Nat} {c c' : Cursor} (h : Pays rate c n c') : n ≤ rate * c.rest.length := by
  obtain ⟨taken, hrest, le⟩ := h
  rw [hrest, List.length_append, Nat.mul_add]
  omega

/-- **The size of parsed trees.** Let `count` tokens stand in front of the first end-of-input mark, newlines
not counted. The program has at most `count` items and the tree at most `2 * count + 1` nodes. An
expression, wherever and at whatever level it is read, has at most as many nodes as tokens are taken. -/
theorem parse_size_bounded (tokens : List Token) :
    let count := ((tokens.takeWhile (·.kind ≠ .endOfInput)).filter (·.kind ≠ .newline)).length
    (∃ body, (parseTokens tokens).tree = .program body ∧ body.length ≤ count) ∧
      (parseTokens tokens).tree.size ≤ 2 * count + 1 ∧
      ∀ levels c n, (Parse.expression levels c).1 = some n →
        ∃ taken, c.rest = taken ++ (Parse.expression levels c).2.rest ∧ n.size ≤ taken.length := by
  obtain ⟨body, tree, counted, sized⟩ := Parse.program_pays (Cursor.ofTokens tokens [])
  have counted := counted.le_ahead
  have sized := sized.le_ahead
  rw [Cursor.ofTokens_rest] at counted sized
  refine ⟨⟨body, tree, by omega⟩, ?_, fun levels c n found => ?_⟩
  · rw [parseTokens_tree, tree, Node.size]
    exact Nat.succ_le_succ sized
  · obtain ⟨taken, hrest, paid⟩ := (Parse.expression_sized levels).pays found
    exact ⟨taken, hrest, by simpa [Node.size?] using paid⟩

/-- A newline, the keyword of a loop, a mark and a name behind it. -/
def bareLoop : List Token :=
  [⟨.newline, some "\n", ⟨1, 1⟩⟩, ⟨.keyword, some "for", ⟨2, 1⟩⟩, .endAt ⟨2, 4⟩, ⟨.identifier, some "x", ⟨2, 5⟩⟩]

/-- The tokens of `-(a)`. -/
def negatedGroup : List Token :=
  [⟨.operator, some "-", ⟨1, 1⟩⟩, ⟨.delimiter, some "(", ⟨1, 2⟩⟩, ⟨.identifier, some "a", ⟨1, 3⟩⟩,
    ⟨.delimiter, some ")", ⟨1, 4⟩⟩]

/-- One token is enough for a program, a loop and the block in it, so the bound is reached. An
expression of two nodes may take four tokens. -/
theorem parse_size_bounded_bareLoop :
    (parseTokens bareLoop).tree.size = 3 ∧ (parseTokens bareLoop).tree.size ≤ 2 * 1 + 1 ∧
      ∃ n taken, (Parse.expression 3 (.ofTokens negatedGroup [])).1 = some n ∧ n.size = 2 ∧
        negatedGroup = taken ++ (Parse.expression 3 (.ofTokens negatedGroup [])).2.rest ∧ n.size ≤ taken.length := by
  obtain ⟨-, bound, expressions⟩ := parse_size_bounded bareLoop
  have read : (Parse.expression 3 (.ofTokens negatedGroup [])).1.map Node.size = some 2 := by decide +kernel
  obtain ⟨n, found, size⟩ := Option.map_eq_some_iff.mp read
  obtain ⟨taken, all, paid⟩ := expressions 3 (.ofTokens negatedGroup []) n found
  exact ⟨by decide +kernel, bound, n, taken, found, size, all, paid⟩

end MiniC
