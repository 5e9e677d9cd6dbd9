/-
# Tokens

A token is a kind, a spelling and the place of its first character. Only the
end-of-input token has no spelling; a string token is spelled by the characters
between its quotes. Lists of tokens may also come from elsewhere than a source
text, so any kind may occur with any spelling or none.

Key definitions: `Token`, `Token.is`, `Token.describe`, `isKeyword`, `isTypeKeyword`.
-/
import MiniC.Location

namespace MiniC

/-- The kinds of token; character literals are strings too. -/
inductive Token.Kind where
  | keyword
  | identifier
  | number
  | string
  | operator
  | delimiter
  | newline
  | endOfInput
  deriving DecidableEq

/-- The kind's name in token lists and messages. -/
def Token.Kind.name : Token.Kind → String
  | .keyword => "KEYWORD"
  | .identifier => "IDENTIFIER"
  | .number => "NUMBER"
  | .string => "STRING"
  | .operator => "OPERATOR"
  | .delimiter => "DELIMITER"
  | .newline => "NEWLINE"
  | .endOfInput => "EOF"

/-- A lexeme with its place. -/
structure Token where
  kind : Token.Kind
  text : Option String
  location : Location
  deriving DecidableEq

namespace Token

/-- The mark that closes a token list. -/
def endAt (l : Location) : Token := ⟨.endOfInput, none, l⟩

/-- The token's text, empty if it has none. -/
def spelling (t : Token) : String := t.text.getD ""

/-- The token has this kind and exactly this spelling. -/
def is (t : Token) (kind : Kind) (text : String) : Bool :=
  t.kind = kind && t.text = some text

/-- The token as messages quote it. -/
def describe (t : Token) : String :=
  match t.kind, t.text with
  | .endOfInput, _ => "end of input"
  | _, none => "end of input"
  | .newline, some _ => t.kind.name ++ " \\n"
  | .string, some text => t.kind.name ++ " \"" ++ text ++ "\""
  | _, some text => t.kind.name ++ " " ++ text

end Token

/-- The delimiter that opens a block. -/
def openBrace : String := "\x7b"

/-- The delimiter that closes a block. -/
def closeBrace : String := "\x7d"

/-- The words that name a type and open a declaration. -/
def typeKeywords : List String :=
  ["int", "float", "double", "char", "void", "long", "short", "unsigned", "signed", "bool"]

/-- The reserved words: types, control flow, input and output, qualifiers. -/
def keywords : List String :=
  typeKeywords ++
    ["if", "else", "while", "for", "do", "return", "break", "continue", "switch", "case",
     "default", "goto", "sizeof", "printf", "scanf", "const", "static", "extern", "auto",
     "register", "volatile", "struct", "union", "enum", "typedef"]

def isTypeKeyword (word : String) : Bool := typeKeywords.contains word

def isKeyword (word : String) : Bool := keywords.contains word

/-- The token is a keyword that names a type. -/
def Token.isType (t : Token) : Bool :=
  t.kind = .keyword && isTypeKeyword t.spelling

end MiniC
