/-
# The words of a text in its tree

A tree holds words of the text it is parsed from, in their order, and each part of it
holds some of them (`yield_child`). Names and numbers are ones that are read back
by themselves; strings may be anything (`lexed_admits`). What holds of all trees over such words
holds everywhere in a parsed tree (`parse_madeFrom`).

One string of a text may lack the partner of its last backslash: a literal whose end mark
is missing. It takes all the rest of the text, so no other word stands behind it
(`paired_of_before`).

Key definitions: `Vocabulary.lexed`.
Key theorems: `Node.yield_child`, `parse_madeFrom`, `paired_of_before`, `lexed_admits`.
-/
import MiniC.Proofs.Literal
import MiniC.Proofs.Shape
import MiniC.Proofs.Yield

namespace MiniC

open Lexeme

/-! ### Trees and what stands below -/

namespace Node

theorem yield_sublist_all {m : Node} {ns : List Node} (h : m ∈ ns) : m.yield.Sublist (yieldAll ns) := by
  obtain ⟨front, behind, rfl⟩ := List.append_of_mem h
  rw [yieldAll_eq, List.flatMap_append, List.flatMap_cons]
  exact (List.sublist_append_left _ _).trans (List.sublist_append_right _ _)

theorem yield_sublist_option {m : Node} {n : Option Node} (h : m ∈ n.toList) : m.yield.Sublist (yield? n) := by
  obtain rfl := Option.mem_toList.mp h
  exact .refl _

/-- The words of a part are words of the whole, in their order. -/
theorem yield_child {n m : Node} (h : m ∈ n.children.map Prod.snd) : m.yield.Sublist n.yield := by
  cases n with
  | program body | block body _ => exact yield_sublist_all (by simpa [children] using h)
  | function header body _ =>
    rw [yield]
    exact (yield_sublist_all (by simpa [children] using h)).trans (List.sublist_append_right _ _)
  | printf args _ | scanf args _ | call _ args _ =>
    rw [yield]
    exact (yield_sublist_all (by simpa [children] using h)).cons _
  | declare x type init l =>
    obtain rfl := Option.mem_toList.mp (mem_inRole.mp h)
    exact (List.sublist_cons_self _ _).cons _
  | assign x o value l =>
    obtain rfl := Option.mem_toList.mp (mem_inRole.mp h)
    exact (List.sublist_cons_self _ _).cons _
  | ret value l =>
    rw [yield]
    exact (yield_sublist_option (mem_inRole.mp h)).cons _
  | branch test onTrue onFalse l =>
    simp only [children, List.map_cons, List.mem_cons, mem_inRole] at h
    cases onFalse with
    | none =>
      rcases h with rfl | rfl | h
      · exact (List.sublist_append_left _ _).cons _
      · exact List.sublist_append_right _ _
      · cases h
    | some onFalse =>
      rcases h with rfl | rfl | h
      · exact ((List.sublist_append_left _ _).trans (List.sublist_append_left _ _)).cons _
      · exact ((List.sublist_append_right _ _).trans (List.sublist_append_left _ _))
      · obtain rfl : m = onFalse := by simpa using h
        exact (List.sublist_cons_self _ _).trans (List.sublist_append_right _ _)
  | whileLoop test body l =>
    rcases (by simpa [children] using h : m = test ∨ m = body) with rfl | rfl
    · exact (List.sublist_append_left _ _).cons _
    · exact List.sublist_append_right _ _
  | forLoop init test update body l =>
    simp only [children, List.map_append, List.mem_append, mem_inRole, List.map_cons, List.map_nil,
      List.mem_singleton] at h
    rw [yield]
    rcases h with ((h | h) | h) | rfl
    · exact (((yield_sublist_option h).cons _).trans (List.sublist_append_left _ _)).trans
        ((List.sublist_append_left _ _).trans (List.sublist_append_left _ _))
    · exact (yield_sublist_option h).trans ((List.sublist_append_right _ _).trans
        ((List.sublist_append_left _ _).trans (List.sublist_append_left _ _)))
    · exact (yield_sublist_option h).trans ((List.sublist_append_right _ _).trans (List.sublist_append_left _ _))
    · exact List.sublist_append_right _ _
  | binary o left right l =>
    rcases (by simpa [children] using h : m = left ∨ m = right) with rfl | rfl
    · exact List.sublist_append_left _ _
    · exact (List.sublist_cons_self _ _).trans (List.sublist_append_right _ _)
  | unary o operand l =>
    obtain rfl : m = operand := by simpa [children] using h
    exact List.sublist_cons_self _ _
  | inclusion | literal | identifier => simp [children] at h

end Node

/-- What stands below an expression over a vocabulary is one. -/
theorem Node.BuiltFrom.child {v : Vocabulary} {e m : Node} (h : e.BuiltFrom v)
    (member : m ∈ e.children.map Prod.snd) : m.BuiltFrom v := by
  cases h with
  | number | string | identifier => simp [Node.children] at member
  | call _ _ args => exact args m (by simpa [Node.children] using member)
  | @binary left right o l first second =>
    rcases (by simpa [Node.children] using member : m = left ∨ m = right) with rfl | rfl
    · exact first
    · exact second
  | @unary o operand l _ inner =>
    obtain rfl : m = operand := by simpa [Node.children] using member
    exact inner

/-- So it is below a statement. -/
theorem Node.MadeFrom.child {v : Vocabulary} {n m : Node} (h : n.MadeFrom v)
    (member : m ∈ n.children.map Prod.snd) : m.MadeFrom v := by
  have value {child : Option Node} (h : ∀ e ∈ child, e.BuiltFrom v) (member : m ∈ child.toList) : m.MadeFrom v :=
    .expression (h m (Option.mem_toList.mp member))
  cases h with
  | inclusion => simp [Node.children] at member
  | function _ _ _ body | block _ body => exact body m (by simpa [Node.children] using member)
  | declare _ _ _ init => exact value init (Node.mem_inRole.mp member)
  | assign _ _ _ init | ret _ init => exact value init (Node.mem_inRole.mp member)
  | printf _ args | scanf _ args => exact .expression (args m (by simpa [Node.children] using member))
  | branch _ test onTrue onFalse =>
    simp only [Node.children, List.map_cons, List.mem_cons, Node.mem_inRole] at member
    rcases member with rfl | rfl | member
    · exact .expression test
    · exact onTrue
    · exact onFalse m (Option.mem_toList.mp member)
  | @whileLoop test body _ condition repeated =>
    rcases (by simpa [Node.children] using member : m = test ∨ m = body) with rfl | rfl
    · exact .expression condition
    · exact repeated
  | forLoop _ init test update body =>
    simp only [Node.children, List.map_append, List.mem_append, Node.mem_inRole, List.map_cons, List.map_nil,
      List.mem_singleton] at member
    rcases member with ((member | member) | member) | rfl
    · exact init m (Option.mem_toList.mp member)
    · exact value test member
    · exact update m (Option.mem_toList.mp member)
    · exact body
  | expression built => exact .expression (built.child member)

/-- What holds of all statements over a vocabulary holds everywhere in a tree that is parsed
from its words. -/
theorem parse_madeFrom {v : Vocabulary} (marks : ∀ o, v.mark o) {tokens : List Token}
    (words : ∀ t ∈ tokens, v.Admits t.lexeme) {P : Node → Prop} (root : ∀ body, P (.program body))
    (each : ∀ {n : Node}, n.MadeFrom v → P n) : (parseTokens tokens).tree.Everywhere P := by
  obtain ⟨items, tree, made⟩ := parseTokens_madeFrom marks words
  rw [tree]
  refine .mk (root items) fun m member => ?_
  have inside : m ∈ items := by simpa [Node.children] using member
  exact (Node.Everywhere.of_child (fun made member => made.child member) (made m inside)).imp each

/-! ### Strings with words behind them -/

/-- Each piece of a text is formed for the pieces behind it. -/
theorem formed_of_pieces {cs : List Char} {front behind : List Piece} {p : Piece}
    (h : pieces cs = front ++ p :: behind) : p.Formed (behind.flatMap Piece.chars) := by
  fun_induction pieces cs generalizing front with
  | case1 => simp at h
  | case2 c cs ih =>
    cases front with
    | nil =>
      obtain ⟨rfl, rfl⟩ := List.cons.inj h
      rw [pieces_chars]
      exact Piece.next_formed c cs
    | cons _ front => exact ih (List.cons.inj h).2

theorem content_tokenize (source : String) :
    content (tokenize source).tokens = (wordsIn source.toList).filter isContent := by
  rw [content, tokenize_words, List.filter_append]
  exact List.append_nil _

/-- A string with another word behind it has the partners of its backslashes. -/
theorem paired_of_before {source raw : String} {w : Lexeme}
    (h : [(.string, raw), w].Sublist (wordsIn source.toList)) : Text.paired raw.toList := by
  obtain ⟨upTo, rest, split, string, word⟩ := List.cons_sublist_iff.mp h
  obtain ⟨front, behind, cut, rfl, rfl⟩ := List.filterMap_eq_append_iff.mp split
  obtain ⟨p, hp, lexeme⟩ := List.mem_filterMap.mp string
  obtain ⟨before, between, rfl⟩ := List.append_of_mem hp
  have more : (between ++ behind).flatMap Piece.chars ≠ [] := by
    obtain ⟨q, hq, -⟩ := List.mem_filterMap.mp (word.mem List.mem_cons_self)
    obtain ⟨_, formed⟩ := @pieces_formed source.toList q (by rw [cut]; exact List.mem_append_right _ hq)
    intro nothing
    exact formed.chars_ne_nil (List.flatMap_eq_nil_iff.mp nothing q (List.mem_append_right _ hq))
  have formed := @formed_of_pieces source.toList before (between ++ behind) p (by rw [cut]; simp)
  obtain ⟨delimiter, closed, rfl⟩ := Text.piece_of_string lexeme
  generalize (between ++ behind).flatMap Piece.chars = behind at formed more
  generalize raw.toList = text at formed ⊢
  cases formed with
  | literal _ raw => exact Text.paired_of_raw raw
  | unclosedLiteral => exact absurd rfl more
  | danglingLiteral => exact absurd rfl more

/-! ### Words that are read back -/

/-- A piece that is all of a text is the word of the text. -/
theorem LexesAs.of_formed {p : Piece} {text : String} {l : Lexeme} (formed : p.Formed [])
    (chars : p.chars = text.toList) (word : p.word? = some l) : LexesAs text l := by
  obtain ⟨c, cs, same⟩ := List.exists_cons_of_ne_nil formed.chars_ne_nil
  have whole := congrArg List.length (Piece.next_chars c cs)
  rw [List.length_append] at whole
  have short : (Piece.next c cs).1.chars.length ≤ p.chars.length := by
    rw [same]
    omega
  exact .of_next c cs (chars ▸ same) ((formed.yields (by rw [List.append_nil, same])).2 short) word

/-- All that the lexer gives, whatever its strings are. -/
def Vocabulary.lexed : Vocabulary :=
  { Vocabulary.written with string := fun _ => True, mark := fun _ => True }

theorem lexed_admits {source : String} {t : Token} (h : t ∈ (tokenize source).tokens) :
    Vocabulary.lexed.Admits t.lexeme := by
  cases hk : t.kind with
  | identifier =>
    obtain ⟨p, rest, formed, word⟩ := formed_of_token h (by rw [hk]; decide)
    rw [Token.lexeme, hk] at word ⊢
    obtain rfl := piece_of_ident word
    have alone : (Piece.word t.spelling.toList).Formed [] := by
      generalize t.spelling.toList = letters at formed ⊢
      cases formed with
      | word letter more => exact .word letter more
    exact LexesAs.of_formed alone rfl word
  | number =>
    obtain ⟨p, rest, formed, word⟩ := formed_of_token h (by rw [hk]; decide)
    rw [Token.lexeme, hk] at word ⊢
    obtain rfl := piece_of_number word
    have alone : (Piece.number t.spelling.toList).Formed [] := by
      generalize t.spelling.toList = digits at formed ⊢
      cases formed with
      | whole some all => exact .whole some all
      | decimal some all fraction => exact .decimal some all fraction
    exact LexesAs.of_formed alone rfl word
  | _ => simp [Vocabulary.Admits, Token.lexeme, hk, Vocabulary.lexed]

end MiniC
