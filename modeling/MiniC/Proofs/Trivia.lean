/-
# Comments and unknown characters are as good as blanks

A comment separates what stands around it and a character that no rule takes is
skipped, so both may be overwritten with spaces, newlines kept: each piece before such a
gap ends where it did, each piece behind it starts where it did, and no piece is joined
to another across it (`pieces_blanked`). The tokens stay the same, up to the newlines
that a comment held, and of the diagnostics those remain that tell of a literal without
its end mark. The parser reads no newlines, and two runs over the same tokens build the
same tree and make the same reports (`sameTokens`).

Key definitions: `Piece.isTrivia`, `blanked`, `sameTokens`.
Key theorems: `pieces_blanked`, `tokens_blanked`, `diagnostics_blanked`, `parseSource_blanked`.
-/
import MiniC.Proofs.Correspondence
import MiniC.Proofs.Seam

namespace MiniC

/-! ### Overwriting -/

/-- The character that stands in a gap for `c`. -/
def gapChar (c : Char) : Char := if c = '\n' then '\n' else ' '

namespace Piece

/-- The piece is a comment or a character that no rule takes. -/
def isTrivia : Piece → Bool
  | lineComment _ | blockComment _ _ | unknown _ => true
  | _ => false

/-- The characters of the piece, overwritten if it is trivia. -/
def overwritten (p : Piece) : List Char := if p.isTrivia then p.chars.map gapChar else p.chars

/-- The piece that stands in a gap for `c`. -/
def gap (c : Char) : Piece := if c = '\n' then newline else blank ' '

/-- The piece as it is cut after overwriting. -/
def gaps (p : Piece) : List Piece := if p.isTrivia then p.chars.map gap else [p]

end Piece

/-- The text with a space for each character of a comment or that no rule takes, newlines
kept. -/
def blanked (source : String) : String := String.ofList ((pieces source.toList).flatMap Piece.overwritten)

/-! ### The pieces of an overwritten text -/

theorem pieces_gap (cs follow : List Char) :
    pieces (cs.map gapChar ++ follow) = cs.map Piece.gap ++ pieces follow := by
  induction cs with
  | nil => rfl
  | cons c cs ih =>
    rw [List.map_cons, List.map_cons, List.cons_append, List.cons_append, ← ih, gapChar, Piece.gap]
    split
    · exact pieces_newline _
    · rw [pieces]
      rfl

namespace Piece

/-- A comment or literal without its end mark is the last piece. -/
theorem rest_of_unclosed (c : Char) (cs : List Char) (h : (next c cs).1.isClosed = false) :
    (next c cs).2 = [] := by
  revert h
  apply next_cases (motive := fun r => r.1.isClosed = false → r.2 = [])
  case blockComment => exact fun rest _ _ unclosed => blockBody_unclosed unclosed
  case literal =>
    intro _ unclosed
    rcases literalBody_raw c cs with ⟨closed, -⟩ | ⟨all, -⟩
    · rw [closed] at unclosed
      cases unclosed
    · rw [all]
  all_goals
    intros
    contradiction

theorem endsBefore_space {p : Piece} (lexeme : p.isTrivia = false) (closed : p.isClosed) : p.endsBefore ' ' := by
  cases p with
  | lineComment | blockComment | unknown => cases lexeme
  | literal => exact closed
  | _ => rfl

/-- Trivia starts with no newline. -/
theorem head_overwritten {c : Char} {cs : List Char} (trivia : (next c cs).1.isTrivia) (follow : List Char) :
    ((next c cs).1.overwritten ++ follow).head? = some ' ' := by
  rw [overwritten, if_pos trivia]
  revert trivia
  apply next_cases (motive := fun r => r.1.isTrivia → (r.1.chars.map gapChar ++ follow).head? = some ' ')
  case lineComment | blockComment => intros; rfl
  case unknown =>
    intro notNewline _ _ _ _ _ _ _
    simp [chars, gapChar, notNewline]
  all_goals
    intros
    contradiction

/-- Overwriting starts a text anew with the same character or with a space. -/
theorem replaces_overwritten {c : Char} {cs : List Char} (lexeme : (next c cs).1.isTrivia = false) :
    (next c cs).1.Replaces (next c cs).2 ((pieces (next c cs).2).flatMap overwritten) := by
  cases hrest : (next c cs).2 with
  | nil => exact .inl (by rw [pieces_nil]; rfl)
  | cons d rest =>
    rw [pieces, List.flatMap_cons]
    by_cases trivia : (next d rest).1.isTrivia
    · have closed : (next c cs).1.isClosed := by
        by_contra unclosed
        rw [rest_of_unclosed c cs (by simpa using unclosed)] at hrest
        cases hrest
      exact .inr ⟨' ', head_overwritten trivia _, endsBefore_space lexeme closed⟩
    · refine .inl ?_
      rw [overwritten, if_neg trivia, List.head?_append_of_ne_nil _ (next_chars_ne_nil d rest),
        ← List.head?_append_of_ne_nil (next d rest).1.chars (next_chars_ne_nil d rest), next_chars]

end Piece

/-- **An overwritten text is cut as before**, with blanks and newlines for trivia. -/
theorem pieces_blanked (cs : List Char) :
    pieces ((pieces cs).flatMap Piece.overwritten) = (pieces cs).flatMap Piece.gaps := by
  fun_induction pieces cs with
  | case1 => exact pieces_nil
  | case2 c cs ih =>
    rw [List.flatMap_cons, List.flatMap_cons, ← ih, Piece.gaps]
    by_cases trivia : (Piece.next c cs).1.isTrivia
    · rw [Piece.overwritten, if_pos trivia, if_pos trivia]
      exact pieces_gap _ _
    · have lexeme : (Piece.next c cs).1.isTrivia = false := by simpa using trivia
      rw [Piece.overwritten, if_neg trivia, if_neg trivia]
      exact pieces_append (Piece.replaces_overwritten lexeme)

/-! ### Tokens and diagnostics -/

theorem Location.after_gap (l : Location) (cs : List Char) : l.after (cs.map gapChar) = l.after cs := by
  induction cs generalizing l with
  | nil => rfl
  | cons c cs ih =>
    have step : l.step (gapChar c) = l.step c := by
      by_cases newline : c = '\n'
      · rw [newline]; rfl
      · simp [gapChar, newline, Location.step]
    rw [List.map_cons, after_cons, after_cons, step, ih]

theorem Location.after_overwritten (l : Location) (p : Piece) : l.after p.overwritten = l.after p.chars := by
  rw [Piece.overwritten]
  split
  · exact after_gap l p.chars
  · rfl

theorem Piece.gaps_chars (p : Piece) : p.gaps.flatMap chars = p.overwritten := by
  rw [gaps, overwritten]
  split
  · induction p.chars with
    | nil => rfl
    | cons c cs ih =>
      rw [List.map_cons, List.flatMap_cons, ih, List.map_cons, gap, gapChar]
      split <;> rfl
  · exact List.flatMap_singleton chars p

theorem Location.after_blanked (l : Location) (ps : List Piece) :
    l.after (ps.flatMap Piece.overwritten) = l.after (ps.flatMap Piece.chars) := by
  induction ps generalizing l with
  | nil => rfl
  | cons p ps ih =>
    rw [List.flatMap_cons, List.flatMap_cons, after_append, after_append, after_overwritten, ih]

/-- The message tells that a literal has no end mark. -/
def Diagnostic.isOpenLiteral (d : Diagnostic) : Bool := d.message = "Unterminated string literal"

theorem openLiterals_comment (l : Location) :
    List.filter Diagnostic.isOpenLiteral [⟨.lexer, "Unterminated block comment", l⟩] = [] := by
  simp [Diagnostic.isOpenLiteral]

theorem openLiterals_unrecognized (c : Char) (l : Location) : List.filter Diagnostic.isOpenLiteral
    [⟨.lexer, "Skipped unrecognized character '" ++ c.toString ++ "'", l⟩] = [] := by
  refine List.filter_cons_of_neg fun same => ?_
  have heads := congrArg (fun text : String => text.toList.head?) (of_decide_eq_true same)
  simp at heads

/-- A gap gives no token but newlines, and no diagnostic. -/
theorem place_gap (l : Location) (cs : List Char) :
    (tokensOf (place l (cs.map Piece.gap))).filter (·.kind ≠ .newline) = [] ∧
      diagnosticsOf (place l (cs.map Piece.gap)) = [] := by
  induction cs generalizing l with
  | nil => exact ⟨rfl, rfl⟩
  | cons c cs ih =>
    rw [List.map_cons, Piece.gap]
    split
    · exact ih _
    · exact ih _

/-- What one piece gives before and after overwriting. -/
theorem place_gaps (l : Location) (p : Piece) :
    (tokensOf (place l p.gaps)).filter (·.kind ≠ .newline) =
        (tokensOf [(p, l)]).filter (·.kind ≠ .newline) ∧
      diagnosticsOf (place l p.gaps) = (diagnosticsOf [(p, l)]).filter Diagnostic.isOpenLiteral := by
  by_cases trivia : p.isTrivia
  · obtain ⟨tokens, diagnostics⟩ := place_gap l p.chars
    rw [Piece.gaps, if_pos trivia, tokens, diagnostics]
    cases p with
    | lineComment => exact ⟨rfl, rfl⟩
    | blockComment _ closed =>
      cases closed with
      | true => exact ⟨rfl, rfl⟩
      | false => exact ⟨rfl, (openLiterals_comment l).symm⟩
    | unknown c => exact ⟨rfl, (openLiterals_unrecognized c l).symm⟩
    | _ => cases trivia
  · rw [Piece.gaps, if_neg trivia]
    refine ⟨rfl, ?_⟩
    cases p with
    | lineComment | blockComment | unknown => exact absurd rfl trivia
    | literal _ _ closed => cases closed <;> rfl
    | _ => rfl

theorem place_blanked (l : Location) (ps : List Piece) :
    (tokensOf (place l (ps.flatMap Piece.gaps))).filter (·.kind ≠ .newline) =
        (tokensOf (place l ps)).filter (·.kind ≠ .newline) ∧
      diagnosticsOf (place l (ps.flatMap Piece.gaps)) =
        (diagnosticsOf (place l ps)).filter Diagnostic.isOpenLiteral := by
  induction ps generalizing l with
  | nil => exact ⟨rfl, rfl⟩
  | cons p ps ih =>
    obtain ⟨tokens, diagnostics⟩ := place_gaps l p
    obtain ⟨moreTokens, moreDiagnostics⟩ := ih (l.after p.chars)
    have split : place l ((p :: ps).flatMap Piece.gaps) =
        place l p.gaps ++ place (l.after p.chars) (ps.flatMap Piece.gaps) := by
      rw [List.flatMap_cons, place_append, Piece.gaps_chars, Location.after_overwritten]
    have split' : place l (p :: ps) = [(p, l)] ++ place (l.after p.chars) ps := rfl
    constructor
    · rw [split, split', tokensOf_append, tokensOf_append, List.filter_append, List.filter_append, tokens, moreTokens]
    · rw [split, split', diagnosticsOf_append, diagnosticsOf_append, List.filter_append, diagnostics, moreDiagnostics]

/-- The tokens of an overwritten text, newlines aside. -/
theorem tokens_blanked (source : String) : (tokenize (blanked source)).tokens.filter (·.kind ≠ .newline) =
    (tokenize source).tokens.filter (·.kind ≠ .newline) := by
  have finish : Location.start.after (blanked source).toList = Location.start.after source.toList := by
    rw [blanked, String.toList_ofList, Location.after_blanked, pieces_chars]
  rw [tokenize_tokens, tokenize_tokens, finish, List.filter_append, List.filter_append, blanked,
    String.toList_ofList, pieces_blanked, (place_blanked _ _).1]

/-- Of the diagnostics, those remain that tell of a literal without its end mark. -/
theorem diagnostics_blanked (source : String) : (tokenize (blanked source)).diagnostics =
    (tokenize source).diagnostics.filter Diagnostic.isOpenLiteral := by
  rw [tokenize_diagnostics, tokenize_diagnostics, blanked, String.toList_ofList, pieces_blanked,
    (place_blanked _ _).2]

/-! ### The parser -/

theorem eq_of_rel {α : Type} {a b : Option α} (h : Option.Rel Eq a b) : a = b := by
  cases h with
  | none => rfl
  | some same => rw [same]

/-- Two runs over the same tokens, with `earlier` and `earlier'` recorded before. -/
def sameTokens (earlier earlier' : List Diagnostic) : Correspondence where
  token := Eq
  place := Eq
  word _ _ := True
  log ls ms := ∃ reports, (∀ d ∈ reports, d.stage = .parser) ∧ ls = reports ++ earlier ∧ ms = reports ++ earlier'
  expr := Eq
  stmt := Eq
  kind same := by rw [same]
  text same := by rw [same]
  spelled _ := trivial
  located same := by rw [same]
  line _ _ same := by rw [same]
  report message log same := by
    obtain ⟨reports, parser, rfl, rfl⟩ := log
    exact ⟨_ :: reports, List.forall_mem_cons.mpr ⟨rfl, parser⟩, rfl, by rw [same]; rfl⟩
  number _ same := by rw [same]
  string _ same := by rw [same]
  name _ same := by rw [same]
  call _ args same := by rw [List.forall₂_eq_eq_eq] at args; rw [args, same]
  binary _ left right same := by rw [left, right, same]
  unary _ inner same := by rw [inner, same]
  inclusion _ same := by rw [same]
  function _ _ body same := by rw [List.forall₂_eq_eq_eq] at body; rw [body, same]
  declare _ _ init same := by rw [eq_of_rel init, same]
  assign _ _ value same := by rw [eq_of_rel value, same]
  branch test onTrue onFalse same := by rw [test, onTrue, eq_of_rel onFalse, same]
  whileLoop test body same := by rw [test, body, same]
  forLoop init test update body same := by rw [eq_of_rel init, eq_of_rel test, eq_of_rel update, body, same]
  ret value same := by rw [eq_of_rel value, same]
  printf args same := by rw [List.forall₂_eq_eq_eq] at args; rw [args, same]
  scanf args same := by rw [List.forall₂_eq_eq_eq] at args; rw [args, same]
  block body same := by rw [List.forall₂_eq_eq_eq] at body; rw [body, same]
  expression same := same

/-- From the same tokens, newlines aside, the parser builds the same tree and makes the
same reports, whatever was recorded before. -/
theorem ofTokens_same {ts us : List Token} (earlier earlier' : List Diagnostic)
    (content : ts.filter (·.kind ≠ .newline) = us.filter (·.kind ≠ .newline)) :
    ∃ tree reports, (∀ d ∈ reports, d.stage = .parser) ∧
      Parsing.ofCursor (.ofTokens ts earlier) = ⟨tree, earlier ++ reports⟩ ∧
      Parsing.ofCursor (.ofTokens us earlier') = ⟨tree, earlier' ++ reports⟩ := by
  have finish : (Cursor.ofTokens ts earlier).finish = (Cursor.ofTokens us earlier').finish :=
    congrArg Cursor.finishOf content
  have tokens : List.Forall₂ Eq (ts.filter (·.kind ≠ .newline)) (us.filter (·.kind ≠ .newline)) := by
    rw [content]
    exact List.forall₂_refl _
  obtain ⟨⟨as, bs, ha, hb, statements⟩, reports, parser, log, log'⟩ :=
    @Parse.ofTokens_tracks (sameTokens earlier.reverse earlier'.reverse) ts us earlier earlier' tokens finish
      ⟨[], List.forall_mem_nil _, rfl, rfl⟩
  have equal : List.Forall₂ Eq as bs := statements
  obtain rfl : as = bs := by rwa [List.forall₂_eq_eq_eq] at equal
  have recorded {ds es : List Diagnostic} (h : ds.reverse = reports ++ es.reverse) : ds = es ++ reports.reverse := by
    rw [← List.reverse_reverse ds, h, List.reverse_append, List.reverse_reverse]
  refine ⟨.program as, reports.reverse, by simpa using parser, ?_, ?_⟩
  · rw [← ha, ← recorded log]
  · rw [← hb, ← recorded log']

/-- **Comments and unknown characters are as good as blanks.** Overwritten with spaces,
they leave the tokens as they were, with their places and newlines aside; of the
diagnostics they leave those on literals without an end mark; and the parser builds the
same tree and makes the same reports. -/
theorem parseSource_blanked (source : String) :
    (tokenize (blanked source)).tokens.filter (·.kind ≠ .newline) =
        (tokenize source).tokens.filter (·.kind ≠ .newline) ∧
      (tokenize (blanked source)).diagnostics =
        (tokenize source).diagnostics.filter Diagnostic.isOpenLiteral ∧
      ∃ tree reports, (∀ d ∈ reports, d.stage = .parser) ∧
        parseSource source = ⟨tree, (tokenize source).diagnostics ++ reports⟩ ∧
        parseSource (blanked source) = ⟨tree, (tokenize (blanked source)).diagnostics ++ reports⟩ :=
  ⟨tokens_blanked source, diagnostics_blanked source, ofTokens_same _ _ (tokens_blanked source).symm⟩

end MiniC
