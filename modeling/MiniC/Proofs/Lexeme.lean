/-
# Lexemes

What a token says, wherever it stands: its kind and its spelling. The parser asks
for a token in three ways, by its lexeme, by its kind alone, or by looking up its
spelling in a table of operators, and each way is tied to the lexeme here.

Key definitions: `Lexeme`, `Token.lexeme`.
Key theorems: `Token.lexeme_of_is`, `Token.is_of_lexeme`, `BinOp.ofSymbol?_eq_some_iff`,
`UnaryOp.ofSymbol?_eq_some_iff`, `AssignOp.ofSymbol?_eq_some_iff`.
-/
import MiniC.Operator
import MiniC.Token

namespace MiniC

/-- A kind and a spelling. -/
abbrev Lexeme := Token.Kind × String

namespace Lexeme

def ident (name : String) : Lexeme := (.identifier, name)

def keyword (text : String) : Lexeme := (.keyword, text)

def op (symbol : String) : Lexeme := (.operator, symbol)

def punct (text : String) : Lexeme := (.delimiter, text)

end Lexeme

namespace Token

def lexeme (t : Token) : Lexeme := (t.kind, t.spelling)

theorem lexeme_of_is {t : Token} {kind : Kind} {text : String} (h : t.is kind text) :
    t.lexeme = (kind, text) := by
  obtain ⟨hk, ht⟩ : t.kind = kind ∧ t.text = some text := by simpa [Token.is] using h
  simp [lexeme, spelling, hk, ht]

/-- A token without a text is spelled as the empty one, so only a text that is
not empty can be asked for by its spelling. -/
theorem is_of_lexeme {t : Token} {kind : Kind} {text : String} (h : t.lexeme = (kind, text))
    (ne : text ≠ "") : t.is kind text := by
  obtain ⟨hk, ht⟩ := Prod.mk.inj h
  cases hx : t.text with
  | none =>
    rw [spelling, hx] at ht
    exact absurd ht.symm ne
  | some x =>
    rw [spelling, hx] at ht
    simp only [Option.getD_some] at ht
    simp [Token.is, hk, hx, ht]

end Token

/-! ### Operators and their symbols -/

/-- In a table that finds every entry by its own symbol, what is found for a text
is spelled as the text. -/
theorem find?_symbol {α : Type} {all : List α} {symbol : α → String}
    (own : ∀ o, all.find? (fun x => symbol x = symbol o) = some o) {text : String} {o : α} :
    all.find? (fun x => symbol x = text) = some o ↔ text = symbol o := by
  constructor
  · intro h
    have found : symbol o = text := by simpa using List.find?_some h
    exact found.symm
  · rintro rfl
    exact own o

theorem BinOp.ofSymbol?_eq_some_iff {text : String} {o : BinOp} :
    BinOp.ofSymbol? text = some o ↔ text = o.symbol :=
  find?_symbol fun o => by cases o <;> rfl

theorem UnaryOp.ofSymbol?_eq_some_iff {text : String} {o : UnaryOp} :
    UnaryOp.ofSymbol? text = some o ↔ text = o.symbol :=
  find?_symbol fun o => by cases o <;> rfl

theorem AssignOp.ofSymbol?_eq_some_iff {text : String} {o : AssignOp} :
    AssignOp.ofSymbol? text = some o ↔ text = o.symbol :=
  find?_symbol fun o => by cases o <;> rfl

theorem BinOp.precedence_bounds (o : BinOp) : 1 ≤ o.precedence ∧ o.precedence ≤ 6 := by
  cases o <;> decide

theorem BinOp.symbol_inj {o o' : BinOp} (h : o.symbol = o'.symbol) : o = o' := by
  have found : BinOp.ofSymbol? o.symbol = some o' := BinOp.ofSymbol?_eq_some_iff.mpr h
  rw [BinOp.ofSymbol?_eq_some_iff.mpr rfl] at found
  exact Option.some.inj found

/-- No operator of an expression is one of an assignment. -/
theorem AssignOp.ofSymbol?_binary (o : BinOp) : AssignOp.ofSymbol? o.symbol = none := by
  cases o <;> rfl

end MiniC
