/-
# The parser on any token list

A cursor stands for an index into the token list without newlines, which is closed by
an end-of-input mark if it does not end in one. `Cursor.At v i c` says that `c` stands at
index `i` of `v`: ahead of it are the tokens from `i` up to the first mark, and the token
read last is the one before `i`. Single moves keep this, and the levels of nesting keep
the sum of the counter and the levels that are left, so both hold at each call and
return of a run (`program_watched`). Together with the progress of statements this is
the whole of what the parser promises about its cursor, for any tokens (`parser_total`).

Key definitions: `endMarked`, `firstEnd`, `Cursor.At`, `Cursor.Valid`.
Key theorems: `Cursor.ofTokens_at`, `valid_levelled`, `Parse.parameter_takes`, `parser_total`.
-/
import MiniC.Proofs.Watch
import MiniC.Proofs.Yield

namespace MiniC

/-! ### The token vector -/

/-- The list with a mark behind its last token, if that is none. -/
def withMark (content : List Token) : List Token :=
  if content.getLast?.any (·.kind = .endOfInput) then content
  else content ++ [.endAt ((content.getLast?.map Token.location).getD .nowhere)]

/-- The tokens without newlines, closed by a mark. -/
def endMarked (tokens : List Token) : List Token := withMark (tokens.filter (·.kind ≠ .newline))

/-- The index of the first mark. -/
def firstEnd (v : List Token) : Nat := v.findIdx (·.kind = .endOfInput)

theorem withMark_cases (content : List Token) :
    (∃ before mark, content = before ++ [mark] ∧ mark.kind = .endOfInput ∧ withMark content = content) ∨
      withMark content = content ++ [.endAt ((content.getLast?.map Token.location).getD .nowhere)] := by
  unfold withMark
  cases last : content.getLast? with
  | none => exact .inr rfl
  | some mark =>
    by_cases isEnd : mark.kind = .endOfInput
    · obtain ⟨before, split⟩ := List.getLast?_eq_some_iff.mp last
      exact .inl ⟨before, mark, split, isEnd, by simp [isEnd]⟩
    · exact .inr (by simp [isEnd])

theorem endMarked_last (tokens : List Token) :
    ∃ content mark, endMarked tokens = content ++ [mark] ∧ mark.kind = .endOfInput := by
  rcases withMark_cases (tokens.filter (·.kind ≠ .newline)) with ⟨before, mark, split, isEnd, same⟩ | added
  · exact ⟨before, mark, same.trans split, isEnd⟩
  · exact ⟨_, _, added, rfl⟩

theorem endMarked_newline (tokens : List Token) {t : Token} (h : t ∈ endMarked tokens) :
    t.kind ≠ .newline := by
  have content (h : t ∈ tokens.filter (·.kind ≠ .newline)) : t.kind ≠ .newline := by
    simpa using (List.mem_filter.mp h).2
  rw [endMarked] at h
  rcases withMark_cases (tokens.filter (·.kind ≠ .newline)) with ⟨_, _, _, _, same⟩ | added
  · rw [same] at h
    exact content h
  · rw [added] at h
    rcases List.mem_append.mp h with h | h
    · exact content h
    · rw [List.mem_singleton.mp h]
      exact Token.Kind.noConfusion

theorem firstEnd_lt (tokens : List Token) : firstEnd (endMarked tokens) < (endMarked tokens).length := by
  obtain ⟨content, mark, split, isEnd⟩ := endMarked_last tokens
  exact List.findIdx_lt_length_of_exists ⟨mark, by simp [split], by simp [isEnd]⟩

theorem take_firstEnd (v : List Token) : v.take (firstEnd v) = v.takeWhile (·.kind ≠ .endOfInput) := by
  have same : (fun t : Token => !decide (t.kind ≠ .endOfInput)) = fun t => decide (t.kind = .endOfInput) := by
    funext t
    simp
  rw [List.takeWhile_eq_take_findIdx_not, same, firstEnd]

theorem takeWhile_append_mark (content rest : List Token) {mark : Token} (h : mark.kind = .endOfInput) :
    (content ++ mark :: rest).takeWhile (·.kind ≠ .endOfInput) = content.takeWhile (·.kind ≠ .endOfInput) := by
  rw [List.takeWhile_append]
  split
  · next whole =>
    rw [(List.takeWhile_prefix _).eq_of_length whole]
    simp [h]
  · rfl

/-- A mark at the end changes nothing before the first mark. -/
theorem withMark_takeWhile (content : List Token) :
    (withMark content).takeWhile (·.kind ≠ .endOfInput) = content.takeWhile (·.kind ≠ .endOfInput) := by
  rcases withMark_cases content with ⟨_, _, _, _, same⟩ | added
  · rw [same]
  · rw [added, takeWhile_append_mark _ _ rfl]

/-- Where the input ends there is the first mark. -/
theorem withMark_find (content : List Token) :
    ((withMark content).find? (·.kind = .endOfInput)).map Token.location = some (Cursor.finishOf content) := by
  unfold Cursor.finishOf
  rcases withMark_cases content with ⟨before, mark, split, isEnd, same⟩ | added
  · rw [same]
    cases found : content.find? (·.kind = .endOfInput) with
    | some first => rfl
    | none =>
      have := List.find?_eq_none.mp found mark (by simp [split])
      simp [isEnd] at this
  · rw [added, List.find?_append]
    cases content.find? (·.kind = .endOfInput) with
    | some first => rfl
    | none => rfl

/-! ### Cursors at an index -/

/-- The cursor stands at index `i` of the vector, which is not behind its first mark. -/
structure Cursor.At (v : List Token) (i : Nat) (c : Cursor) : Prop where
  inside : i ≤ firstEnd v
  rest : c.rest = (v.take (firstEnd v)).drop i
  last : c.last = (v.take i).getLast?
  finish : (v.find? (·.kind = .endOfInput)).map Token.location = some c.finish

/-- The cursor stands at some index, and no more levels are open than may be: with those
that are left they make up the limit. -/
def Cursor.Valid (v : List Token) (levels : Nat) (c : Cursor) : Prop :=
  (∃ i, c.At v i) ∧ c.depth + levels = maxNesting

namespace Cursor.At

variable {v : List Token} {i : Nat} {c : Cursor}

/-- The tokens ahead tell the index. -/
theorem index (h : c.At v i) : i + c.rest.length = firstEnd v := by
  have short : firstEnd v ≤ v.length := List.findIdx_le_length
  have := h.inside
  rw [h.rest, List.length_drop, List.length_take]
  omega

/-- The current token is the one at the index. -/
theorem head {t : Token} {ts : List Token} (h : c.At v i) (hrest : c.rest = t :: ts) : v[i]? = some t := by
  have ahead : ((v.take (firstEnd v)).drop i)[0]? = some t := by
    rw [← h.rest, hrest]
    rfl
  rw [List.getElem?_drop, List.getElem?_take] at ahead
  split at ahead
  · exact ahead
  · simp at ahead

/-- Taking a token leads to the next index, unless the cursor stands at the mark. -/
theorem advance (h : c.At v i) : ∃ j, c.advance.At v j := by
  cases hrest : c.rest with
  | nil =>
    have stay : c.advance = c := by rw [Cursor.advance, hrest]
    rw [stay]
    exact ⟨i, h⟩
  | cons t ts =>
    have index := h.index
    rw [hrest, List.length_cons] at index
    rw [Cursor.advance_rest hrest]
    refine ⟨i + 1, by omega, ?rest, ?last, h.finish⟩
    case rest => rw [← List.drop_drop, ← h.rest, hrest, List.drop_one, List.tail_cons]
    case last => rw [List.take_add_one, h.head hrest, Option.toList_some, List.getLast?_concat]

end Cursor.At

/-- The cursor in front of a token list stands at its first index. -/
theorem Cursor.ofTokens_at (tokens : List Token) (earlier : List Diagnostic) :
    (ofTokens tokens earlier).At (endMarked tokens) 0 := by
  refine ⟨Nat.zero_le _, ?rest, rfl, ?finish⟩
  case rest => rw [List.drop_zero, take_firstEnd, endMarked, withMark_takeWhile, ofTokens]
  case finish => rw [endMarked, withMark_find, ofTokens]

/-- Parsers move a cursor from index to index. -/
theorem at_levelled (v : List Token) : Parse.Levelled fun _ c => ∃ i, c.At v i where
  kept _ := {
    advance := fun ⟨_, h⟩ => h.advance
    report := fun _ _ ⟨i, h⟩ => ⟨i, h.inside, h.rest, h.last, h.finish⟩ }
  opened _ := fun ⟨i, h⟩ => ⟨i, h.inside, h.rest, h.last, h.finish⟩
  closed _ _ := fun _ ⟨i, h⟩ => ⟨i, h.inside, h.rest, h.last, h.finish⟩

/-- The levels that are open and those that are left have a constant sum. -/
theorem counted_levelled (sum : Nat) : Parse.Levelled fun levels c => c.depth + levels = sum where
  kept levels := {
    advance := fun {c} counted => by
      unfold Cursor.advance
      split
      · exact counted
      · exact counted
    report := fun _ _ counted => counted }
  opened c counted := by
    dsimp only
    omega
  closed c c' before counted := by
    dsimp only
    omega

theorem valid_levelled (v : List Token) : Parse.Levelled (Cursor.Valid v) :=
  (at_levelled v).and (counted_levelled maxNesting)

/-! ### Progress -/

namespace Parse

/-- Away from the end of the input a round of a parameter list takes a token. -/
theorem parameter_takes {c : Cursor} {t : Token} {ts : List Token} (hrest : c.rest = t :: ts) :
    Ensures parameter c fun _ c' => c'.rest.length < c.rest.length := by
  have taken := (Takes.advance hrest).2
  unfold parameter
  refine .bind_eq (peek_cons hrest) ?_
  dsimp only
  split
  · exact .bind_eq rfl (.pure taken)
  split
  · next isType =>
    refine .bind (typeName_takes hrest isType) fun type c1 typed => ?_
    refine .bind (acceptName_reads c1) fun name c2 named => ?_
    have progress := (typed.trans named).2
    cases name with
    | some name => exact .pure progress
    | none =>
      refine .bind_eq rfl ?_
      split
      · exact .pure progress
      · exact .bind_eq rfl (.pure progress)
  · exact .bind_eq rfl (.bind_eq rfl (.pure taken))

/-- A statement closes the levels that it opens. -/
theorem statement_depth (levels : Nat) (c : Cursor) : (statement levels c).2.depth = c.depth :=
  Nat.add_right_cancel ((counted_levelled (c.depth + levels)).statement levels rfl)

/-- So does an operand. -/
theorem operand_depth (levels : Nat) (c : Cursor) : (operand levels c).2.depth = c.depth :=
  Nat.add_right_cancel ((counted_levelled (c.depth + levels)).operand levels rfl)

/-- A statement leads to a later index, unless it starts at the mark. -/
theorem statement_at {v : List Token} {i : Nat} {c : Cursor} (h : c.At v i) (levels : Nat) :
    ∃ j, (statement levels c).2.At v j ∧ i ≤ j ∧ (i < firstEnd v → i < j) := by
  obtain ⟨j, after⟩ := (at_levelled v).statement levels ⟨i, h⟩
  have start := h.index
  have finish := after.index
  refine ⟨j, after, ?_, fun away => ?_⟩
  · have := (statement_keeps levels c).length_le
    omega
  · cases hrest : c.rest with
    | nil =>
      rw [hrest, List.length_nil] at start
      omega
    | cons t ts =>
      have := (statement_takes hrest levels).2
      omega

end Parse

/-! ### What stands behind the first mark -/

/-- The tokens behind a mark are not read. -/
theorem Cursor.ofTokens_mark (before after : List Token) {mark : Token} (h : mark.kind = .endOfInput)
    (earlier : List Diagnostic) :
    ofTokens (before ++ mark :: after) earlier = ofTokens (before ++ [mark]) earlier := by
  have content (rest : List Token) : (before ++ mark :: rest).filter (·.kind ≠ .newline) =
      before.filter (·.kind ≠ .newline) ++ mark :: rest.filter (·.kind ≠ .newline) := by
    simp [h]
  have finish (rest : List Token) : finishOf (before.filter (·.kind ≠ .newline) ++ mark :: rest) =
      finishOf (before.filter (·.kind ≠ .newline) ++ [mark]) := by
    unfold finishOf
    rw [List.find?_append, List.find?_append, List.find?_cons_of_pos (by simp [h]),
      List.find?_cons_of_pos (by simp [h])]
    cases (before.filter (·.kind ≠ .newline)).find? (·.kind = .endOfInput) with
    | some first => rfl
    | none => rfl
  unfold ofTokens
  dsimp only
  rw [content after, content [], takeWhile_append_mark _ _ h, takeWhile_append_mark _ _ h, finish]
  rfl

/-- **The parser on any token list.** -/
theorem parser_total (tokens : List Token) (earlier : List Diagnostic) :
    -- the vector ends in a mark and holds no newline
    (∃ content mark, endMarked tokens = content ++ [mark] ∧ mark.kind = .endOfInput) ∧
    (∀ t ∈ endMarked tokens, t.kind ≠ .newline) ∧
    -- a cursor stands at one of its indices, at first at the first one and outside all levels
    (∀ (c : Cursor) i, c.At (endMarked tokens) i → i < (endMarked tokens).length) ∧
    (Cursor.ofTokens tokens earlier).At (endMarked tokens) 0 ∧
    (Cursor.ofTokens tokens earlier).depth = 0 ∧
    -- single moves and levels keep a cursor valid, and every call and return of the run is at a valid one
    Parse.Levelled (Cursor.Valid (endMarked tokens)) ∧
    (∀ f : Nat → Cursor → Cursor, (∀ levels (c : Cursor), c.Valid (endMarked tokens) levels → f levels c = c) →
      Parse.programWatched f (.ofTokens tokens earlier) = Parse.program (.ofTokens tokens earlier)) ∧
    -- statements go forward, and levels are closed by what opened them
    (∀ levels (c : Cursor) i, c.At (endMarked tokens) i → ∃ j, (Parse.statement levels c).2.At (endMarked tokens) j ∧
      i ≤ j ∧ (i < firstEnd (endMarked tokens) → i < j)) ∧
    (∀ levels c, (Parse.statement levels c).2.depth = c.depth ∧ (Parse.operand levels c).2.depth = c.depth) ∧
    -- no other loop stands still: parameters go forward, and expressions do not go back
    (∀ c : Cursor, c.rest ≠ [] → (Parse.parameter c).2.rest.length < c.rest.length) ∧
    (∀ levels c, (Parse.expression levels c).2.rest.length ≤ c.rest.length ∧
      (Parse.operand levels c).2.rest.length ≤ c.rest.length) ∧
    -- the run gives a program and ends at the first mark, outside all levels
    (∃ body, (Parse.program (.ofTokens tokens earlier)).1 = .program body) ∧
    (Parse.program (.ofTokens tokens earlier)).2.At (endMarked tokens) (firstEnd (endMarked tokens)) ∧
    (Parse.program (.ofTokens tokens earlier)).2.depth = 0 ∧
    -- what stands behind a mark does not matter
    (∀ before (mark : Token) after other, mark.kind = .endOfInput →
      Parsing.ofCursor (.ofTokens (before ++ mark :: after) earlier) =
        Parsing.ofCursor (.ofTokens (before ++ mark :: other) earlier)) := by
  have start := Cursor.ofTokens_at tokens earlier
  have valid : (Cursor.ofTokens tokens earlier).Valid (endMarked tokens) maxNesting :=
    ⟨⟨0, start⟩, Nat.zero_add maxNesting⟩
  obtain ⟨⟨i, finish⟩, counted⟩ := (valid_levelled (endMarked tokens)).program valid
  refine ⟨endMarked_last tokens, fun t => endMarked_newline tokens, fun c i h => ?inside, start, rfl,
    valid_levelled (endMarked tokens), fun f quiet => ?calls, fun levels c i h => Parse.statement_at h levels,
    fun levels c => ⟨Parse.statement_depth levels c, Parse.operand_depth levels c⟩, fun c ahead => ?parameters,
    fun levels c => ⟨?expressions, (Parse.operand_keeps levels c).length_le⟩, ⟨_, rfl⟩, ?finish, ?outside,
    fun before mark after other h => ?behind⟩
  case inside => exact Nat.lt_of_le_of_lt h.inside (firstEnd_lt tokens)
  case calls => exact (Parse.program_watched (valid_levelled _) quiet _ valid).1
  case parameters =>
    obtain ⟨t, ts, hrest⟩ := List.exists_cons_of_ne_nil ahead
    exact Parse.parameter_takes hrest
  case expressions => exact ((Parse.expression_takesNames levels).keeps c).length_le
  case finish =>
    have index := finish.index
    rw [(Parse.program_reads _).2, List.length_nil, Nat.add_zero] at index
    rwa [index] at finish
  case outside => omega
  case behind => rw [Cursor.ofTokens_mark before after h, Cursor.ofTokens_mark before other h]

/-- A keyword without a text, a newline, a mark with a text, and a parenthesis behind it. -/
def strayTokens : List Token :=
  [⟨.keyword, none, .nowhere⟩, ⟨.newline, some "", .nowhere⟩, ⟨.endOfInput, some "x", .nowhere⟩,
    ⟨.delimiter, some "(", .nowhere⟩]

/-- Of the four tokens that are left with the mark behind them, one is read. -/
theorem parser_total_stray :
    (endMarked strayTokens).length = 4 ∧ firstEnd (endMarked strayTokens) = 1 ∧
      (Parse.program (.ofTokens strayTokens [])).2.At (endMarked strayTokens) 1 := by
  have first : firstEnd (endMarked strayTokens) = 1 := by decide
  obtain ⟨-, -, -, -, -, -, -, -, -, -, -, -, finish, -⟩ := parser_total strayTokens []
  rw [first] at finish
  exact ⟨by decide, first, finish⟩

end MiniC
