/-
# The words of a tree are words of the text

The parser makes up no words: each name, number and string in its tree is the spelling
of a token of that kind. So what holds of the tokens holds of the tree, for all
conditions on words at once: a tree is made from a vocabulary that admits its tokens
(`parseTokens_madeFrom`).

A name of a source text is a letter and characters of words, a number is digits with
at most a point among them. Of strings nothing is known but that they are tokens.

Key definitions: `Node.MadeFrom`, `Vocabulary.Admits`, `IsName`, `IsNumeral`.
Key theorems: `parseTokens_madeFrom`, `tokenize_name`, `tokenize_numeral`.
-/
import MiniC.Proofs.Correspondence
import MiniC.Proofs.Orthography
import MiniC.Proofs.Seam

namespace MiniC

/-! ### Statements over a vocabulary -/

/-- The tree is a statement, and its words are in the vocabulary. -/
inductive Node.MadeFrom (v : Vocabulary) : Node → Prop
  | inclusion (library : String) (l : Location) : MadeFrom v (.inclusion library l)
  | function {h : Header} {body : List Node} (l : Location) : v.name h.name →
    (∀ p ∈ h.params, v.name p.name) → (∀ n ∈ body, MadeFrom v n) → MadeFrom v (.function h body l)
  | declare {x : String} {init : Option Node} (type : String) (l : Location) : v.name x →
    (∀ e ∈ init, e.BuiltFrom v) → MadeFrom v (.declare x type init l)
  | assign {x : String} {value : Option Node} (o : AssignOp) (l : Location) : v.name x →
    (∀ e ∈ value, e.BuiltFrom v) → MadeFrom v (.assign x o value l)
  | branch {test onTrue : Node} {onFalse : Option Node} (l : Location) : test.BuiltFrom v →
    MadeFrom v onTrue → (∀ n ∈ onFalse, MadeFrom v n) → MadeFrom v (.branch test onTrue onFalse l)
  | whileLoop {test body : Node} (l : Location) : test.BuiltFrom v → MadeFrom v body →
    MadeFrom v (.whileLoop test body l)
  | forLoop {init test update : Option Node} {body : Node} (l : Location) : (∀ n ∈ init, MadeFrom v n) →
    (∀ e ∈ test, e.BuiltFrom v) → (∀ n ∈ update, MadeFrom v n) → MadeFrom v body →
    MadeFrom v (.forLoop init test update body l)
  | ret {value : Option Node} (l : Location) : (∀ e ∈ value, e.BuiltFrom v) → MadeFrom v (.ret value l)
  | printf {args : List Node} (l : Location) : (∀ e ∈ args, e.BuiltFrom v) → MadeFrom v (.printf args l)
  | scanf {args : List Node} (l : Location) : (∀ e ∈ args, e.BuiltFrom v) → MadeFrom v (.scanf args l)
  | block {body : List Node} (l : Location) : (∀ n ∈ body, MadeFrom v n) → MadeFrom v (.block body l)
  | expression {e : Node} : e.BuiltFrom v → MadeFrom v e

/-- The word may occur in a tree over the vocabulary. -/
def Vocabulary.Admits (v : Vocabulary) : Lexeme → Prop
  | (.identifier, x) => v.name x
  | (.number, text) => v.number text (Parse.numberKind text)
  | (.string, raw) => v.string raw
  | _ => True

theorem numberKind_ne_string (text : String) : Parse.numberKind text ≠ .string := by
  unfold Parse.numberKind
  split <;> decide

section

variable {α : Type} {P : α → Prop}

theorem all_of_forall₂ {as bs : List α} (h : List.Forall₂ (fun a _ => P a) as bs) : ∀ a ∈ as, P a := by
  induction h with
  | nil => exact List.forall_mem_nil _
  | cons first _ ih => exact List.forall_mem_cons.mpr ⟨first, ih⟩

theorem all_of_rel {a b : Option α} (h : Option.Rel (fun a _ => P a) a b) : ∀ x ∈ a, P x := by
  cases h with
  | none => exact fun x hx => by cases hx
  | some first =>
    rintro x hx
    cases hx
    exact first

end

/-- A run over words of the vocabulary, beside itself. -/
def madeFrom (v : Vocabulary) (marks : ∀ o, v.mark o) : Correspondence where
  token t u := t = u ∧ v.Admits t.lexeme
  place _ _ := True
  word kind x := v.Admits (kind, x)
  log _ _ := True
  expr a _ := a.BuiltFrom v
  stmt a _ := a.MadeFrom v
  kind h := by rw [h.1]
  text h := by rw [h.1]
  spelled h := h.2
  located _ := trivial
  line _ _ h := by rw [h.1]
  report _ _ _ := trivial
  number word _ := .number _ (numberKind_ne_string _) word
  string word _ := .string _ word
  name word _ := .identifier _ word
  call word args _ := .call _ word (all_of_forall₂ args)
  binary o left right _ := .binary o _ left right
  unary o inner _ := .unary _ (marks o) inner
  inclusion library _ := .inclusion library _
  function word words body _ := .function _ word words (all_of_forall₂ body)
  declare type word init _ := .declare type _ word (all_of_rel init)
  assign o word value _ := .assign o _ word (all_of_rel value)
  branch test onTrue onFalse _ := .branch _ test onTrue (all_of_rel onFalse)
  whileLoop test body _ := .whileLoop _ test body
  forLoop init test update body _ := .forLoop _ (all_of_rel init) (all_of_rel test) (all_of_rel update) body
  ret value _ := .ret _ (all_of_rel value)
  printf args _ := .printf _ (all_of_forall₂ args)
  scanf args _ := .scanf _ (all_of_forall₂ args)
  block body _ := .block _ (all_of_forall₂ body)
  expression built := .expression built

/-- **The words of a tree are words of its tokens.** -/
theorem parseTokens_madeFrom {v : Vocabulary} (marks : ∀ o, v.mark o) {tokens : List Token}
    (words : ∀ t ∈ tokens, v.Admits t.lexeme) :
    ∃ body, (parseTokens tokens).tree = .program body ∧ ∀ n ∈ body, n.MadeFrom v := by
  have content : ∀ ts : List Token, (∀ t ∈ ts, v.Admits t.lexeme) →
      List.Forall₂ (madeFrom v marks).token ts ts := by
    intro ts admitted
    exact List.forall₂_same.mpr fun t ht => ⟨rfl, admitted t ht⟩
  obtain ⟨⟨body, _, tree, -, statements⟩, -⟩ :=
    @Parse.ofTokens_tracks (madeFrom v marks) tokens tokens [] []
      (content _ fun t ht => words t (List.mem_of_mem_filter ht)) trivial trivial
  exact ⟨body, tree, all_of_forall₂ statements⟩

/-! ### The words of a source text -/

/-- A letter and characters of words. -/
def IsName (x : String) : Prop :=
  ∃ c cs, x.toList = c :: cs ∧ Piece.isLetter c ∧ ∀ d ∈ cs, Piece.isWordChar d

/-- A digit, and digits and points. -/
def IsNumeral (text : String) : Prop :=
  ∃ c cs, text.toList = c :: cs ∧ c.isDigit ∧ ∀ d ∈ cs, d.isDigit ∨ d = '.'

theorem pieces_formed {cs : List Char} {p : Piece} (h : p ∈ pieces cs) : ∃ rest, p.Formed rest := by
  fun_induction pieces cs with
  | case1 => cases h
  | case2 c cs ih =>
    rcases List.mem_cons.mp h with rfl | later
    · exact ⟨_, Piece.next_formed c cs⟩
    · exact ih later

/-- Each word of a source text is that of a piece. -/
theorem piece_of_token {source : String} {t : Token} (h : t ∈ (tokenize source).tokens)
    (notEnd : t.kind ≠ .endOfInput) : ∃ p ∈ pieces source.toList, p.word? = some t.lexeme := by
  have word : t.lexeme ∈ wordsIn source.toList ++ [(.endOfInput, "")] := by
    rw [← tokenize_words]
    exact List.mem_map_of_mem h
  rcases List.mem_append.mp word with word | mark
  · exact List.mem_filterMap.mp word
  · exact absurd (congrArg Prod.fst (List.mem_singleton.mp mark)) notEnd

theorem formed_of_token {source : String} {t : Token} (h : t ∈ (tokenize source).tokens)
    (notEnd : t.kind ≠ .endOfInput) : ∃ p rest, Piece.Formed p rest ∧ p.word? = some t.lexeme := by
  obtain ⟨p, hp, word⟩ := piece_of_token h notEnd
  obtain ⟨rest, formed⟩ := pieces_formed hp
  exact ⟨p, rest, formed, word⟩

theorem tokenize_name {source : String} {t : Token} (h : t ∈ (tokenize source).tokens)
    (name : t.kind = .identifier) : IsName t.spelling := by
  obtain ⟨p, rest, formed, word⟩ := formed_of_token h (by rw [name]; decide)
  rw [Token.lexeme, name] at word
  obtain rfl := piece_of_ident word
  generalize hx : t.spelling.toList = letters at formed
  cases formed with
  | word letter more => exact ⟨_, _, hx, letter, more⟩

theorem tokenize_numeral {source : String} {t : Token} (h : t ∈ (tokenize source).tokens)
    (number : t.kind = .number) : IsNumeral t.spelling := by
  obtain ⟨p, rest, formed, word⟩ := formed_of_token h (by rw [number]; decide)
  rw [Token.lexeme, number] at word
  obtain rfl := piece_of_number word
  generalize hx : t.spelling.toList = text at formed
  cases formed with
  | whole some digits =>
    obtain ⟨c, cs, rfl⟩ := List.exists_cons_of_ne_nil some
    obtain ⟨first, more⟩ := List.forall_mem_cons.mp digits
    exact ⟨c, cs, hx, first, fun d hd => .inl (more d hd)⟩
  | @decimal whole fraction _ some digits fractional =>
    obtain ⟨c, cs, rfl⟩ := List.exists_cons_of_ne_nil some
    obtain ⟨first, more⟩ := List.forall_mem_cons.mp digits
    refine ⟨c, cs ++ '.' :: fraction, hx, first, fun d hd => ?_⟩
    rcases List.mem_append.mp hd with hd | hd
    · exact .inl (more d hd)
    · rcases List.mem_cons.mp hd with rfl | hd
      · exact .inr rfl
      · exact .inl (fractional d hd)

end MiniC
