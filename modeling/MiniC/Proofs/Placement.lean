/-
# Trees do not depend on layout

A newline is not read by the parser, and of a place it takes no notice, except that a
directive ends with its line. So a token list without directives may be laid out anew:
the tokens moved, newlines put in or taken out. The tree stays what it was, up to the
places in it, and so do the reports.

The argument is that "up to places" is a correspondence (`upToPlaces`).

Key definitions: `Token.erase`, `Diagnostic.erase`, `upToPlaces`.
Key theorem: `parseTokens_layout`.
-/
import MiniC.Proofs.Correspondence
import MiniC.Proofs.Grammar

namespace MiniC

/-- The token without its place. -/
def Token.erase (t : Token) : Token := { t with location := .nowhere }

/-- The diagnostic without its place. -/
def Diagnostic.erase (d : Diagnostic) : Diagnostic := { d with location := .nowhere }

theorem Token.erase_eq_iff {t u : Token} : t.erase = u.erase ↔ t.kind = u.kind ∧ t.text = u.text := by
  simp [Token.erase]

namespace Node

/-- The trees are equal up to the places in them. -/
def SameShape (a b : Node) : Prop := a.erase = b.erase

theorem eraseAll_eq {as bs : List Node} (h : List.Forall₂ SameShape as bs) : eraseAll as = eraseAll bs := by
  induction h with
  | nil => rfl
  | cons first _ ih => rw [eraseAll, eraseAll, first, ih]

theorem erase?_eq {a b : Option Node} (h : Option.Rel SameShape a b) : erase? a = erase? b := by
  cases h with
  | none => rfl
  | some same => rw [erase?, erase?, same]

end Node

open Node in
/-- Two runs over the same words in different places, none of them the sign of a directive. -/
def upToPlaces : Correspondence where
  token t u := t.erase = u.erase ∧ t.is .delimiter "#" = false
  place _ _ := True
  word _ _ := True
  log ls ms := ls.map Diagnostic.erase = ms.map Diagnostic.erase
  expr := SameShape
  stmt := SameShape
  kind h := (Token.erase_eq_iff.mp h.1).1
  text h := (Token.erase_eq_iff.mp h.1).2
  spelled _ := trivial
  located _ := trivial
  line hash directive _ := by
    rw [hash.2] at directive
    cases directive
  report message log _ := by rw [List.map_cons, List.map_cons, log]; rfl
  number _ _ := rfl
  string _ _ := rfl
  name _ _ := rfl
  call _ args _ := by rw [SameShape, erase, erase, eraseAll_eq args]
  binary o left right _ := by rw [SameShape, erase, erase, left, right]
  unary o inner _ := by rw [SameShape, erase, erase, inner]
  inclusion _ _ := rfl
  function _ _ body _ := by rw [SameShape, erase, erase, eraseAll_eq body]
  declare _ _ init _ := by rw [SameShape, erase, erase, erase?_eq init]
  assign o _ value _ := by rw [SameShape, erase, erase, erase?_eq value]
  branch test onTrue onFalse _ := by rw [SameShape, erase, erase, test, onTrue, erase?_eq onFalse]
  whileLoop test body _ := by rw [SameShape, erase, erase, test, body]
  forLoop init test update body _ := by
    rw [SameShape, erase, erase, erase?_eq init, erase?_eq test, erase?_eq update, body]
  ret value _ := by rw [SameShape, erase, erase, erase?_eq value]
  printf args _ := by rw [SameShape, erase, erase, eraseAll_eq args]
  scanf args _ := by rw [SameShape, erase, erase, eraseAll_eq args]
  block body _ := by rw [SameShape, erase, erase, eraseAll_eq body]
  expression same := same

/-- Lists with the same words that hold no sign of a directive correspond. -/
theorem forall₂_upToPlaces {ts us : List Token} (same : ts.map Token.erase = us.map Token.erase)
    (plain : ∀ t ∈ ts, t.is .delimiter "#" = false) : List.Forall₂ upToPlaces.token ts us := by
  induction ts generalizing us with
  | nil =>
    cases us with
    | nil => exact .nil
    | cons u us => cases same
  | cons t ts ih =>
    cases us with
    | nil => cases same
    | cons u us =>
      obtain ⟨first, more⟩ := List.cons.inj same
      obtain ⟨here, later⟩ := List.forall_mem_cons.mp plain
      exact .cons ⟨first, here⟩ (ih more later)

/-- **Trees do not depend on layout.** If two token lists hold the same words, newlines
aside, and no sign of a directive is among them, then they have the same tree and the
same diagnostics, up to places. -/
theorem parseTokens_layout (ts us : List Token)
    (same : (ts.filter (·.kind ≠ .newline)).map Token.erase = (us.filter (·.kind ≠ .newline)).map Token.erase)
    (plain : ∀ t ∈ ts, t.is .delimiter "#" = false) :
    (parseTokens ts).tree.erase = (parseTokens us).tree.erase ∧
      (parseTokens ts).diagnostics.map Diagnostic.erase = (parseTokens us).diagnostics.map Diagnostic.erase := by
  have content := forall₂_upToPlaces same fun t ht => plain t (List.mem_of_mem_filter ht)
  obtain ⟨⟨as, bs, ha, hb, statements⟩, logs⟩ := @Parse.ofTokens_tracks upToPlaces ts us [] [] content trivial rfl
  constructor
  · show (Parsing.ofCursor _).tree.erase = (Parsing.ofCursor _).tree.erase
    rw [ha, hb, Node.erase, Node.erase, Node.eraseAll_eq statements]
  · have logs : List.map Diagnostic.erase _ = List.map Diagnostic.erase _ := logs
    rw [List.map_reverse, List.map_reverse] at logs
    exact List.reverse_injective logs

/-- A branch with a fault in it, on one line and on five. -/
theorem parseTokens_layout_branch :
    ((tokenize "if (a) x = 1; else y = ;").tokens.filter (·.kind ≠ .newline)).map Token.erase =
        ((tokenize "if (a)\n  x\n= 1; // one\nelse\n\ty = ;").tokens.filter (·.kind ≠ .newline)).map Token.erase ∧
      (parseTokens (tokenize "if (a) x = 1; else y = ;").tokens).tree.erase =
        (parseTokens (tokenize "if (a)\n  x\n= 1; // one\nelse\n\ty = ;").tokens).tree.erase ∧
      (parseTokens (tokenize "if (a) x = 1; else y = ;").tokens).diagnostics.map Diagnostic.erase =
        (parseTokens (tokenize "if (a)\n  x\n= 1; // one\nelse\n\ty = ;").tokens).diagnostics.map Diagnostic.erase := by
  have same : ((tokenize "if (a) x = 1; else y = ;").tokens.filter (·.kind ≠ .newline)).map Token.erase =
      ((tokenize "if (a)\n  x\n= 1; // one\nelse\n\ty = ;").tokens.filter (·.kind ≠ .newline)).map Token.erase := by
    decide +kernel
  exact ⟨same, parseTokens_layout _ _ same (by decide +kernel)⟩

end MiniC
