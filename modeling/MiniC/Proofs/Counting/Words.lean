/-
# The words of the loops that count

The ends of a counting loop are written out again as expressions of the indented
language. For this their words must be ones that the language reads back. The names and
numbers of a source text are, reserved names apart, and a string is if another word of
the text stands behind it. The parser keeps the words in their order, whatever it skips,
and a loop that counts has an update behind its ends (`parse_loops_builtFrom`).

Key definitions: `Node.Plain`, `Node.Readable`.
Key theorems: `Node.BuiltFrom.indented`, `parse_loops_builtFrom`.
-/
import MiniC.Proofs.Counting.Clauses
import MiniC.Proofs.Words

namespace MiniC

open Lexeme Formula

/-! ### Trees that are read back -/

/-- The node takes no address and has no reserved name. -/
def Node.Plain : Node → Prop
  | .unary o _ _ => o ≠ .addressOf
  | .identifier x _ | .call x _ _ => x ∉ reserved
  | _ => True

/-- The tree is plain, and each backslash of its strings has its partner. -/
structure Node.Readable (e : Node) : Prop where
  plain : e.Everywhere Node.Plain
  paired (raw : String) : (.string, raw) ∈ e.yield → Text.paired raw.toList

theorem Node.Readable.child {e m : Node} (h : e.Readable) (member : m ∈ e.children.map Prod.snd) : m.Readable :=
  ⟨h.plain.child member, fun raw hraw => h.paired raw ((Node.yield_child member).mem hraw)⟩

/-- What the lexer gives is read back in readable trees. -/
theorem Node.BuiltFrom.indented {e : Node} (he : e.BuiltFrom .lexed) (h : e.Readable) : e.BuiltFrom .indented := by
  induction he with
  | number l notString text => exact .number l notString text
  | @string raw l _ => exact .string l (h.paired raw (by simp [Node.yield, LiteralKind.lexeme]))
  | identifier l name => exact .identifier l ⟨name, h.plain.here⟩
  | call l name _ ih =>
    exact .call l ⟨name, h.plain.here⟩ fun a ha => ih a ha (h.child (by simpa [Node.children] using ha))
  | binary o l _ _ ihLeft ihRight =>
    exact .binary o l (ihLeft (h.child (by simp [Node.children]))) (ihRight (h.child (by simp [Node.children])))
  | unary l _ _ ih => exact .unary l h.plain.here (ih (h.child (by simp [Node.children])))

theorem Node.Steps.name_mem_yield {x : String} {u : Node} {step : Int} (h : u.Steps x step) :
    ident x ∈ u.yield := by
  cases h with
  | increment value | decrement value => cases value <;> exact List.mem_cons_self
  | add | sub => exact List.mem_cons_self

namespace CountingLoop

variable {init test update : Option Node} {loop : CountingLoop}

/-- A word of the ends of a counting loop has another word of the loop behind it. -/
theorem word_before_update (h : of? init test update = some loop) (body : Node) (l : Location) {w : Lexeme}
    (hw : w ∈ loop.start.yield ∨ w ∈ loop.bound.yield) :
    ∃ w', [w, w'].Sublist (Node.forLoop init test update body l).yield := by
  obtain ⟨n, op, k, k', u, rfl, sets, rfl, rfl, steps, -⟩ := clauses_of_of? h
  have ahead : w ∈ Node.yield? (some n) ++ Node.yield? (some (.binary op (.identifier loop.name k) loop.bound k')) := by
    rcases hw with first | second
    · refine List.mem_append_left _ ?_
      cases sets <;> exact List.mem_cons_of_mem _ (List.mem_cons_of_mem _ first)
    · exact List.mem_append_right _ (List.mem_append_right _ (List.mem_cons_of_mem _ second))
  have both := (List.singleton_sublist.mpr ahead).append (List.singleton_sublist.mpr steps.name_mem_yield)
  refine ⟨_, both.trans ?_⟩
  rw [Node.yield, List.cons_append, List.cons_append, List.cons_append]
  exact (List.sublist_append_left _ _).cons _

end CountingLoop

/-- **The ends of a counting loop are read back**, whatever source text it is parsed from. -/
theorem parse_loops_builtFrom (source : String) :
    (parseTokens (tokenize source).tokens).tree.Everywhere fun n =>
      ∀ {init test update : Option Node} {body : Node} {l : Location} {loop : CountingLoop},
        n = .forLoop init test update body l → CountingLoop.of? init test update = some loop →
        (loop.start.Everywhere Node.Plain → loop.start.BuiltFrom .indented) ∧
          (loop.bound.Everywhere Node.Plain → loop.bound.BuiltFrom .indented) := by
  have order := parse_keeps_order (tokenize source).tokens
  obtain ⟨items, tree, made⟩ := @parseTokens_madeFrom .lexed (fun _ => trivial) (tokenize source).tokens
    fun t => lexed_admits
  rw [tree] at order ⊢
  refine .mk (fun loop => by cases loop) fun m member => ?_
  have inside : m ∈ items := by simpa [Node.children] using member
  have below : m.Everywhere fun n => n.MadeFrom .lexed ∧ n.yield.Sublist (content (tokenize source).tokens) := by
    refine .of_child (fun here member => ?_) ⟨made m inside, (Node.yield_child member).trans order⟩
    exact ⟨here.1.child member, (Node.yield_child member).trans here.2⟩
  refine below.imp ?_
  rintro _ ⟨made, words⟩ init test update body l loop rfl counts
  obtain ⟨-, start, bound⟩ : Vocabulary.lexed.name loop.name ∧ loop.start.BuiltFrom .lexed ∧
      loop.bound.BuiltFrom .lexed := by
    cases made with
    | forLoop _ first second _ _ => exact CountingLoop.of?_words counts first second
    | expression built => cases built
  have paired (raw : String)
      (hraw : (.string, raw) ∈ loop.start.yield ∨ (.string, raw) ∈ loop.bound.yield) : Text.paired raw.toList := by
    obtain ⟨w, behind⟩ := CountingLoop.word_before_update counts body l hraw
    rw [content_tokenize] at words
    exact paired_of_before ((behind.trans words).trans List.filter_sublist)
  exact ⟨fun plain => start.indented ⟨plain, fun raw hraw => paired raw (.inl hraw)⟩,
    fun plain => bound.indented ⟨plain, fun raw hraw => paired raw (.inr hraw)⟩⟩

end MiniC
