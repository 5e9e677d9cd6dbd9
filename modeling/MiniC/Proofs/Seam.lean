/-
# Texts on separate lines are read apart

A piece takes as much as its class allows, so what it is depends on what follows it:
on the next character, or, in a comment or literal, on all characters up to the end
mark. Once the piece is cut, another text may stand behind it if that starts with the
same character or with one that ends the piece (`Piece.endsBefore`, `next_append`).

A newline ends every piece but a comment or literal that lacks its end mark. The
pieces of two texts with a newline between them are therefore those of the one, the
newline and those of the other (`pieces_lines`). The tokens and diagnostics follow,
those of the second text as many lines further down as the first one fills
(`tokenize_lines`).

Key definitions: `Piece.endsBefore`, `Piece.Replaces`, `Location.down`, `Token.down`, `Diagnostic.down`.
Key theorems: `Piece.next_append`, `pieces_lines`, `place_down`, `tokenize_lines`.
-/
import MiniC.Proofs.Factorization

namespace MiniC

namespace Piece

/-- Right behind the piece, the character ends it. -/
def endsBefore : Piece → Char → Bool
  | lineComment _, d => d = '\n'
  | blockComment _ closed, _ | literal _ _ closed, _ => closed
  | _, d => Text.isBlank d

/-- Behind the piece, `follow` may stand in the place of `rest`. -/
def Replaces (p : Piece) (rest follow : List Char) : Prop :=
  follow.head? = rest.head? ∨ ∃ d ∈ follow.head?, p.endsBefore d

/-! ### A piece stays what it is -/

variable {c : Char} {cs rest follow : List Char}

/-- A class without blanks that ends before `rest` ends before `follow`. -/
theorem stops_before {p : Char → Bool} (noBlank : ∀ d, Text.isBlank d → p d = false)
    (h : follow.head? = rest.head? ∨ ∃ d ∈ follow.head?, Text.isBlank d)
    (stops : ∀ d ∈ rest.head?, p d = false) : ∀ d ∈ follow.head?, p d = false := by
  intro d hd
  rcases h with same | ⟨blank, first, isBlank⟩
  · exact stops d (same ▸ hd)
  · obtain rfl : blank = d := Option.mem_unique first hd
    exact noBlank blank isBlank

/-- Nothing may stand behind a piece that nothing ends. -/
theorem Replaces.eq_nil {p : Piece} (h : p.Replaces [] follow) (never : ∀ d, p.endsBefore d = false) :
    follow = [] := by
  rcases h with same | ⟨d, -, ends⟩
  · exact List.head?_eq_none_iff.mp same
  · rw [never d] at ends
    cases ends

theorem dropWhile_stops (p : Char → Bool) (cs : List Char) : ∀ d ∈ (cs.dropWhile p).head?, p d = false := by
  intro d hd
  have stop := List.head?_dropWhile_not p cs
  rw [Option.mem_def.mp hd] at stop
  simpa using stop

theorem isWordChar_eq (d : Char) : isWordChar d = (isLetter d || d.isDigit) :=
  Bool.or_right_comm d.isAlpha d.isDigit (d = '_')

/-- No blank is part of a word, a number or an operator. -/
theorem blank_apart {d : Char} (blank : Text.isBlank d) :
    isWordChar d = false ∧ d.isDigit = false ∧ d ≠ '.' ∧ d ∉ operatorChars := by
  have visible : ¬(33 ≤ d.toNat ∧ d.toNat ≤ 126) := fun h => not_isBlank h.1 h.2 blank
  have notDigit : d.isDigit = false := by
    by_contra digit
    have range := isDigit_range (c := d) (by simpa using digit)
    omega
  have notLetter : isLetter d = false := by
    by_contra letter
    have range := isLetter_range (c := d) (by simpa using letter)
    omega
  refine ⟨?_, notDigit, ?_, fun symbol => ?_⟩
  · rw [isWordChar_eq, notLetter, notDigit]
    rfl
  · rintro rfl
    exact visible (by decide)
  · exact absurd blank (symbol_plain (List.mem_append_left _ symbol)).2.1

/-- A number is digits, or digits with a point among them, up to where the digits end. -/
theorem numberBody_cases {motive : List Char × List Char → Prop} (cs : List Char)
    (whole : ∀ digits rest, (∀ d ∈ digits, d.isDigit) →
      (∀ d ∈ rest.head?, (d.isDigit || d = '.') = false) → motive (digits, rest))
    (decimal : ∀ digits fraction rest, (∀ d ∈ digits, d.isDigit) → (∀ d ∈ fraction, d.isDigit) →
      (∀ d ∈ rest.head?, d.isDigit = false) → motive (digits ++ '.' :: fraction, rest)) :
    motive (numberBody cs) := by
  have digits : ∀ d ∈ cs.takeWhile Char.isDigit, d.isDigit := fun d => List.mem_takeWhile_imp
  unfold numberBody
  split
  · next tail point =>
    exact decimal _ _ _ digits (fun d => List.mem_takeWhile_imp) (dropWhile_stops _ tail)
  · next noPoint =>
    refine whole _ _ digits fun d hd => ?_
    have notDot : d ≠ '.' := by
      rintro rfl
      obtain ⟨tail, htail⟩ := List.head?_eq_some_iff.mp hd
      exact noPoint tail htail
    rw [dropWhile_stops _ cs d hd]
    simpa using notDot

theorem numberBody_digits {digits : List Char} (all : ∀ d ∈ digits, d.isDigit)
    (stops : ∀ d ∈ rest.head?, (d.isDigit || d = '.') = false) :
    numberBody (digits ++ rest) = (digits, rest) := by
  have noDigit : ∀ d ∈ rest.head?, d.isDigit = false := fun d hd => (Bool.or_eq_false_iff.mp (stops d hd)).1
  obtain ⟨taken, left⟩ := takeWhile_append_stop all noDigit
  unfold numberBody
  rw [taken, left]
  split
  · exact absurd (stops '.' rfl) (by decide)
  · rfl

theorem numberBody_point {digits fraction : List Char} (all : ∀ d ∈ digits, d.isDigit)
    (tail : ∀ d ∈ fraction, d.isDigit) (stops : ∀ d ∈ rest.head?, d.isDigit = false) :
    numberBody ((digits ++ '.' :: fraction) ++ rest) = (digits ++ '.' :: fraction, rest) := by
  have dot : ∀ d ∈ ('.' :: (fraction ++ rest)).head?, d.isDigit = false := by simp
  obtain ⟨taken, left⟩ := takeWhile_append_stop all dot
  obtain ⟨tailTaken, tailLeft⟩ := takeWhile_append_stop tail stops
  unfold numberBody
  rw [List.append_assoc, List.cons_append, taken, left]
  simp only [tailTaken, tailLeft]

/-- A number that was cut is the number before what may follow it. -/
theorem numberBody_again (cs : List Char)
    (h : follow.head? = (numberBody cs).2.head? ∨ ∃ d ∈ follow.head?, Text.isBlank d) :
    numberBody ((numberBody cs).1 ++ follow) = ((numberBody cs).1, follow) := by
  revert h
  apply numberBody_cases (motive := fun r => (follow.head? = r.2.head? ∨ ∃ d ∈ follow.head?, Text.isBlank d) →
    numberBody (r.1 ++ follow) = (r.1, follow)) cs
  case whole =>
    intro digits rest all stops h
    refine numberBody_digits all (stops_before (fun d blank => ?_) h stops)
    obtain ⟨-, noDigit, notDot, -⟩ := blank_apart blank
    simp [noDigit, notDot]
  case decimal =>
    intro digits fraction rest all tail stops h
    exact numberBody_point all tail (stops_before (fun d blank => (blank_apart blank).2.1) h stops)

/-- So is an operator, and behind its first character stands what stood there, or a blank. -/
theorem operatorBody_again (c : Char) (cs : List Char)
    (h : follow.head? = (operatorBody c cs).2.head? ∨ ∃ d ∈ follow.head?, Text.isBlank d) :
    ∃ ds, (operatorBody c cs).1 = c :: ds ∧ operatorBody c (ds ++ follow) = ((operatorBody c cs).1, follow) ∧
      ((ds ++ follow).head? = cs.head? ∨ ∃ d ∈ (ds ++ follow).head?, Text.isBlank d) := by
  have single (stops : ∀ d ∈ follow.head?, operatorPairs.contains (c, d) = false) :
      operatorBody c follow = ([c], follow) := by
    cases follow with
    | nil => rfl
    | cons d ds => rw [operatorBody, if_neg (by simpa using stops d rfl)]
  have noBlank : ∀ d, Text.isBlank d → operatorPairs.contains (c, d) = false := by
    intro d blank
    have second : operatorPairs.all fun p => operatorChars.contains p.2 := by decide
    by_contra pair
    have operator := List.all_eq_true.mp second (c, d) (by simpa using pair)
    exact (blank_apart blank).2.2.2 (by simpa using operator)
  cases cs with
  | nil =>
    refine ⟨[], rfl, single (stops_before noBlank h ?_), h⟩
    simp [operatorBody]
  | cons d ds =>
    rw [operatorBody] at h ⊢
    by_cases pair : operatorPairs.contains (c, d) = true
    · rw [if_pos pair]
      refine ⟨[d], rfl, ?_, .inl rfl⟩
      rw [List.singleton_append, operatorBody, if_pos pair]
    · rw [if_neg pair] at h ⊢
      refine ⟨[], rfl, single (stops_before noBlank h ?_), h⟩
      simpa using pair

/-- **A piece that was cut stays the same before what may follow it.** -/
theorem next_append (h : (next c cs).1.Replaces (next c cs).2 follow) :
    ∃ ds, (next c cs).1.chars = c :: ds ∧ next c (ds ++ follow) = ((next c cs).1, follow) := by
  revert h
  apply next_cases (motive := fun r => r.1.Replaces r.2 follow →
    ∃ ds, r.1.chars = c :: ds ∧ next c (ds ++ follow) = (r.1, follow))
  case newline =>
    rintro rfl -
    exact ⟨[], rfl, rfl⟩
  case blank => exact fun notNewline blank _ => ⟨[], rfl, next_blank notNewline blank⟩
  case lineComment =>
    rintro rest rfl rfl h
    have noNewline : '\n' ∉ rest.takeWhile (· ≠ '\n') := fun member => by
      simpa using List.mem_takeWhile_imp member
    -- what follows is nothing or a newline
    have ended : ∀ d ∈ follow.head?, decide (d ≠ '\n') = false := by
      intro d hd
      rcases h with same | ⟨e, first, isNewline⟩
      · exact dropWhile_stops (· ≠ '\n') rest d (same ▸ hd)
      · obtain rfl : e = d := Option.mem_unique first hd
        have isNewline : decide (e = '\n') = true := isNewline
        simpa using isNewline
    obtain ⟨nothing, all⟩ := takeWhile_append_stop (List.forall_mem_nil _) ended
    rw [List.nil_append] at nothing all
    refine ⟨'/' :: rest.takeWhile (· ≠ '\n'), rfl, ?_⟩
    rw [List.cons_append, next_lineComment _ follow noNewline, nothing, all, List.append_nil]
  case blockComment =>
    rintro rest rfl rfl h
    have free := blockBody_free rest
    cases closed : (blockBody rest).2.1 with
    | true =>
      refine ⟨'*' :: ((blockBody rest).1 ++ ['*', '/']), rfl, ?_⟩
      have noSlash : ('*' :: '/' :: follow).head? ≠ some '/' := by simp
      have body := blockBody_append free noSlash
      rw [List.cons_append, next_blockComment, List.append_assoc]
      simp only [List.cons_append, List.nil_append, body, blockBody, List.append_nil]
    | false =>
      rw [closed, blockBody_unclosed closed] at h
      have nothing : follow = [] := h.eq_nil fun _ => rfl
      subst nothing
      refine ⟨'*' :: (blockBody rest).1, by simp [chars], ?_⟩
      have noSlash : ([] : List Char).head? ≠ some '/' := by simp
      have body := blockBody_append free noSlash
      rw [List.append_nil] at body
      rw [List.append_nil, next_blockComment, body]
      simp [blockBody]
  case literal =>
    intro isQuote h
    have ne := quote_ne_backslash isQuote
    rcases literalBody_raw c cs with ⟨closed, raw⟩ | ⟨unclosed, _⟩
    · rw [closed]
      refine ⟨(literalBody c cs).1 ++ [c], rfl, ?_⟩
      rw [next_quote isQuote, List.append_assoc, raw.literalBody_append ne, List.singleton_append,
        literalBody_quote]
      simp
    · rw [unclosed] at h ⊢
      have nothing : follow = [] := h.eq_nil fun _ => rfl
      have whole := literalBody_chars c cs
      rw [unclosed] at whole
      have all : (literalBody c cs).1 = cs := by simpa using whole
      subst nothing
      refine ⟨cs, by simp [chars, all], ?_⟩
      rw [List.append_nil, next_quote isQuote, unclosed]
  case number =>
    intro digit h
    obtain ⟨d, ds, split⟩ := List.exists_cons_of_ne_nil (numberBody_ne_nil digit cs)
    have whole := numberBody_chars (c :: cs)
    have again := numberBody_again (c :: cs) h
    rw [split] at whole again ⊢
    obtain ⟨rfl, -⟩ := List.cons.inj whole
    refine ⟨ds, rfl, ?_⟩
    rw [next_number digit, ← List.cons_append, again]
  case word =>
    intro letter h
    have noBlank : ∀ d, Text.isBlank d → isWordChar d = false := fun d blank => (blank_apart blank).1
    have stops := stops_before noBlank h (dropWhile_stops _ cs)
    obtain ⟨taken, left⟩ := takeWhile_append_stop (fun d => List.mem_takeWhile_imp) stops
    exact ⟨cs.takeWhile isWordChar, rfl, by rw [next_word letter, taken, left]⟩
  case operator =>
    intro symbol noComment h
    have member : c ∈ operatorChars := by simpa using symbol
    obtain ⟨ds, split, again, second⟩ := operatorBody_again c cs h
    have notComment : c = '/' → (ds ++ follow).head? ≠ some '/' ∧ (ds ++ follow).head? ≠ some '*' := by
      intro slash
      have here : ∀ d ∈ cs.head?, (d = '/' || d = '*') = false := by
        intro d hd
        rw [Option.mem_def.mp hd] at noComment
        simpa [slash] using noComment
      have noBlank : ∀ d, Text.isBlank d → (d = '/' || d = '*') = false := by
        intro d blank
        have notOperator := (blank_apart blank).2.2.2
        simp only [Bool.or_eq_false_iff, decide_eq_false_iff_not]
        exact ⟨fun eq => notOperator (by simp [eq, operatorChars]), fun eq => notOperator (by simp [eq, operatorChars])⟩
      have stops := stops_before noBlank second here
      exact ⟨fun eq => absurd (stops '/' eq) (by decide), fun eq => absurd (stops '*' eq) (by decide)⟩
    refine ⟨ds, split, ?_⟩
    rw [next_operator member notComment, again]
  case delimiter =>
    intro symbol _
    exact ⟨[], rfl, next_delimiter (by simpa using symbol)⟩
  case unknown =>
    intro notNewline notBlank notQuote notDigit notLetter notOperator notDelimiter _
    exact ⟨[], rfl, next_unknown notNewline notBlank notQuote notDigit notLetter (by simpa using notOperator)
      (by simpa using notDelimiter)⟩

end Piece

/-- The pieces of a text whose first piece stays. -/
theorem pieces_append {c : Char} {cs follow : List Char}
    (h : (Piece.next c cs).1.Replaces (Piece.next c cs).2 follow) :
    pieces ((Piece.next c cs).1.chars ++ follow) = (Piece.next c cs).1 :: pieces follow := by
  obtain ⟨ds, split, again⟩ := Piece.next_append h
  rw [split, List.cons_append, pieces, again]

/-! ### Two texts with a newline between them -/

namespace Piece

/-- A comment or literal has its end mark. -/
def isClosed : Piece → Bool
  | blockComment _ closed | literal _ _ closed => closed
  | _ => true

/-- A newline ends every piece that has its end mark. -/
theorem endsBefore_newline (p : Piece) : p.endsBefore '\n' = p.isClosed := by
  cases p <;> rfl

end Piece

theorem pieces_newline (cs : List Char) : pieces ('\n' :: cs) = .newline :: pieces cs := by
  rw [pieces]
  rfl

/-- **Two texts with a newline between them are cut apart**, unless an end mark is
missing in the first one. -/
theorem pieces_lines {cs : List Char} (closed : ∀ p ∈ pieces cs, p.isClosed) (ds : List Char) :
    pieces (cs ++ '\n' :: ds) = pieces cs ++ .newline :: pieces ds := by
  fun_induction pieces cs with
  | case1 => exact pieces_newline ds
  | case2 c cs ih =>
    obtain ⟨here, later⟩ := List.forall_mem_cons.mp closed
    have follows : (Piece.next c cs).1.Replaces (Piece.next c cs).2 ((Piece.next c cs).2 ++ '\n' :: ds) := by
      cases (Piece.next c cs).2 with
      | nil => exact .inr ⟨'\n', rfl, by rw [Piece.endsBefore_newline, here]⟩
      | cons d rest => exact .inl rfl
    calc pieces (c :: cs ++ '\n' :: ds)
      _ = pieces ((Piece.next c cs).1.chars ++ ((Piece.next c cs).2 ++ '\n' :: ds)) := by
          rw [← List.append_assoc, Piece.next_chars]
      _ = (Piece.next c cs).1 :: pieces ((Piece.next c cs).2 ++ '\n' :: ds) := pieces_append follows
      _ = (Piece.next c cs).1 :: pieces (Piece.next c cs).2 ++ .newline :: pieces ds := by
          rw [ih later, List.cons_append]

/-! ### Places further down -/

/-- The place `n` lines further down. -/
def Location.down (n : Nat) (l : Location) : Location := { l with line := l.line + n }

def Token.down (n : Nat) (t : Token) : Token := { t with location := t.location.down n }

def Diagnostic.down (n : Nat) (d : Diagnostic) : Diagnostic := { d with location := d.location.down n }

theorem Location.step_down (n : Nat) (l : Location) (c : Char) : (l.down n).step c = (l.step c).down n := by
  unfold Location.step
  split
  · simp only [Location.down, Nat.add_right_comm]
  · rfl

theorem Location.after_down (n : Nat) (l : Location) (cs : List Char) :
    (l.down n).after cs = (l.after cs).down n := by
  induction cs generalizing l with
  | nil => rfl
  | cons c cs ih => rw [after_cons, after_cons, step_down, ih]

theorem place_append (l : Location) (ps qs : List Piece) :
    place l (ps ++ qs) = place l ps ++ place (l.after (ps.flatMap Piece.chars)) qs := by
  induction ps generalizing l with
  | nil => rfl
  | cons p ps ih =>
    rw [List.cons_append, place, ih, place, List.flatMap_cons, Location.after_append, List.cons_append]

theorem place_down (n : Nat) (l : Location) (ps : List Piece) :
    place (l.down n) ps = (place l ps).map fun p => (p.1, p.2.down n) := by
  induction ps generalizing l with
  | nil => rfl
  | cons p ps ih => rw [place, Location.after_down, ih, place, List.map_cons]

/-- The tokens of placed pieces. -/
def tokensOf (placed : List (Piece × Location)) : List Token := placed.filterMap fun p => p.1.token? p.2

/-- The diagnostics of placed pieces. -/
def diagnosticsOf (placed : List (Piece × Location)) : List Diagnostic :=
  placed.filterMap fun p => p.1.diagnostic? p.2

theorem tokensOf_append (placed placed' : List (Piece × Location)) :
    tokensOf (placed ++ placed') = tokensOf placed ++ tokensOf placed' := List.filterMap_append

theorem diagnosticsOf_append (placed placed' : List (Piece × Location)) :
    diagnosticsOf (placed ++ placed') = diagnosticsOf placed ++ diagnosticsOf placed' := List.filterMap_append

theorem tokenize_tokens (source : String) : (tokenize source).tokens =
    tokensOf (place .start (pieces source.toList)) ++ [.endAt (Location.start.after source.toList)] := rfl

theorem tokenize_diagnostics (source : String) :
    (tokenize source).diagnostics = diagnosticsOf (place .start (pieces source.toList)) := rfl

theorem tokensOf_down (n : Nat) (placed : List (Piece × Location)) :
    tokensOf (placed.map fun p => (p.1, p.2.down n)) = (tokensOf placed).map (Token.down n) := by
  rw [tokensOf, tokensOf, List.filterMap_map, List.map_filterMap]
  congr 1
  funext p
  simp [Piece.token?, Token.down, Option.map_map, Function.comp_def]

theorem diagnosticsOf_down (n : Nat) (placed : List (Piece × Location)) :
    diagnosticsOf (placed.map fun p => (p.1, p.2.down n)) = (diagnosticsOf placed).map (Diagnostic.down n) := by
  rw [diagnosticsOf, diagnosticsOf, List.filterMap_map, List.map_filterMap]
  congr 1
  funext p
  simp [Piece.diagnostic?, Diagnostic.down, Option.map_map, Function.comp_def]

/-- The message tells that an end mark is missing. -/
def Diagnostic.isUnterminated (d : Diagnostic) : Bool := "Unterminated ".toList.isPrefixOf d.message.toList

/-- A piece without its end mark is reported so. -/
theorem closed_of_reports {source : String}
    (h : ∀ d ∈ (tokenize source).diagnostics, d.isUnterminated = false) :
    ∀ p ∈ pieces source.toList, p.isClosed := by
  intro p hp
  rw [← place_pieces .start (pieces source.toList)] at hp
  obtain ⟨⟨q, l⟩, placed, rfl⟩ := List.mem_map.mp hp
  have reported (d : Diagnostic) (hd : q.diagnostic? l = some d) : d.isUnterminated = false :=
    h d (List.mem_filterMap.mpr ⟨(q, l), placed, hd⟩)
  by_contra unclosed
  cases q with
  | blockComment body closed =>
    obtain rfl : closed = false := by simpa [Piece.isClosed] using unclosed
    exact absurd (reported ⟨.lexer, "Unterminated block comment", l⟩ rfl) (by simp [Diagnostic.isUnterminated])
  | literal quote raw closed =>
    obtain rfl : closed = false := by simpa [Piece.isClosed] using unclosed
    exact absurd (reported ⟨.lexer, "Unterminated string literal", l⟩ rfl) (by simp [Diagnostic.isUnterminated])
  | _ => exact unclosed rfl

/-- **Texts on separate lines are read apart.** If no end mark is missing in the first
text, the tokens of both with a newline between them are the tokens of the first one, a
newline token in the place of its end mark, and the tokens of the second one, as many
lines further down as that place is; and so it is with the diagnostics. -/
theorem tokenize_lines (first second : String)
    (terminated : ∀ d ∈ (tokenize first).diagnostics, d.isUnterminated = false) :
    ∃ tokens finish, (tokenize first).tokens = tokens ++ [.endAt finish] ∧
      (tokenize (first ++ "\n" ++ second)).tokens =
        tokens ++ ⟨.newline, some "\n", finish⟩ :: (tokenize second).tokens.map (Token.down finish.line) ∧
      (tokenize (first ++ "\n" ++ second)).diagnostics =
        (tokenize first).diagnostics ++ (tokenize second).diagnostics.map (Diagnostic.down finish.line) := by
  have chars : (first ++ "\n" ++ second).toList = first.toList ++ '\n' :: second.toList := by simp
  have cut := pieces_lines (closed_of_reports terminated) second.toList
  obtain ⟨finish, hfinish⟩ : ∃ finish, finish = Location.start.after first.toList := ⟨_, rfl⟩
  -- the second text starts right below the end of the first
  have below : finish.step '\n' = Location.start.down finish.line := by
    simp [Location.step, Location.start, Location.down, Nat.add_comm]
  have placed : place .start (pieces (first ++ "\n" ++ second).toList) =
      place .start (pieces first.toList) ++ (.newline, finish) ::
        (place .start (pieces second.toList)).map fun p => (p.1, p.2.down finish.line) := by
    rw [chars, cut, place_append, pieces_chars, ← hfinish, place, ← place_down, ← below]
    rfl
  have ended : Location.start.after (first ++ "\n" ++ second).toList =
      (Location.start.after second.toList).down finish.line := by
    rw [chars, Location.after_append, ← hfinish, Location.after_cons, below, Location.after_down]
  refine ⟨_, finish, hfinish ▸ tokenize_tokens first, ?_, ?_⟩
  · rw [tokenize_tokens, placed, ended, tokenize_tokens, List.map_append, ← tokensOf_down]
    simp [tokensOf, Piece.token?, Piece.lexeme?, Token.down, Token.endAt]
  · rw [tokenize_diagnostics, placed, tokenize_diagnostics, tokenize_diagnostics, ← diagnosticsOf_down]
    simp [diagnosticsOf, Piece.diagnostic?, Piece.problem?]

/-- The first line ends in a point and a comment with a quote in it; the second one has a fault. -/
theorem tokenize_lines_comment :
    (∀ d ∈ (tokenize "x @= 1. // '").diagnostics, d.isUnterminated = false) ∧
      ∃ tokens finish, (tokenize "x @= 1. // '").tokens = tokens ++ [.endAt finish] ∧
        (tokenize ("x @= 1. // '" ++ "\n" ++ "5 $/* */")).tokens =
          tokens ++ ⟨.newline, some "\n", finish⟩ :: (tokenize "5 $/* */").tokens.map (Token.down finish.line) ∧
        (tokenize ("x @= 1. // '" ++ "\n" ++ "5 $/* */")).diagnostics =
          (tokenize "x @= 1. // '").diagnostics ++
            (tokenize "5 $/* */").diagnostics.map (Diagnostic.down finish.line) := by
  have terminated : ∀ d ∈ (tokenize "x @= 1. // '").diagnostics, d.isUnterminated = false := by decide +kernel
  exact ⟨terminated, tokenize_lines _ _ terminated⟩

end MiniC
