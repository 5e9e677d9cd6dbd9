/-
# The parser reads what the grammar has

If the words ahead start with a phrase of the grammar, and what follows cannot
extend it, the parser takes the words of the phrase, reports nothing and gives the
tree, up to places (`Parse.expression_completes`). The proof goes rule by rule, like
the grammar: each parser reads its phrases if the parsers it calls read theirs.

A tier of operators groups from the left while the parser reads on. The phrase to
the left of an operator is therefore followed up to the chain of operators that
the parser is in when it has read it (`Parse.tier_chain`).

Key definitions: `Cursor.words`, `Spells`, `Follows`, `Parse.Completes`.
Key theorems: `Parse.tier_chain`, `Parse.operand_completes`, `Parse.expression_completes`.
-/
import MiniC.Proofs.Grammar
import MiniC.Proofs.Run

namespace MiniC

open Lexeme

/-! ### The words ahead -/

/-- The words of the tokens ahead. -/
def Cursor.words (c : Cursor) : List Lexeme := c.rest.map Token.lexeme

/-- The words of a token list in front of its first end-of-input mark, newlines left out. -/
def wordsOf (tokens : List Token) : List Lexeme :=
  ((tokens.filter (·.kind ≠ .newline)).takeWhile (·.kind ≠ .endOfInput)).map Token.lexeme

theorem Cursor.ofTokens_words (tokens : List Token) (earlier : List Diagnostic) :
    (Cursor.ofTokens tokens earlier).words = wordsOf tokens := rfl

theorem wordsOf_of_lexemes {tokens : List Token} {ls : List Lexeme}
    (h : tokens.map Token.lexeme = ls ++ [(.endOfInput, "")])
    (kinds : ∀ l ∈ ls, l.1 ≠ .newline ∧ l.1 ≠ .endOfInput) : wordsOf tokens = ls := by
  have commute : wordsOf tokens =
      ((tokens.map Token.lexeme).filter (·.1 ≠ .newline)).takeWhile (·.1 ≠ .endOfInput) := by
    rw [wordsOf, List.filter_map, List.takeWhile_map]
    rfl
  have inLine : (ls ++ [(Token.Kind.endOfInput, "")]).filter (·.1 ≠ .newline) =
      ls ++ [(.endOfInput, "")] := by
    rw [List.filter_eq_self]
    intro l hl
    rcases List.mem_append.mp hl with hl | hl
    · simpa using (kinds l hl).1
    · simp [List.mem_singleton.mp hl]
  have before : ∀ l ∈ ls, decide (l.1 ≠ .endOfInput) = true := fun l hl => by simpa using (kinds l hl).2
  rw [commute, h, inLine, List.takeWhile_append_of_pos before]
  simp

namespace Cursor

variable {c : Cursor} {l : Lexeme} {more : List Lexeme}

theorem rest_of_words (h : c.words = l :: more) :
    ∃ t ts, c.rest = t :: ts ∧ t.lexeme = l ∧ ts.map Token.lexeme = more :=
  List.map_eq_cons_iff.mp h

theorem looksAt_iff {kind : Token.Kind} {text : String} (ne : text ≠ "") :
    c.looksAt kind text = true ↔ c.words.head? = some (kind, text) := by
  cases hrest : c.rest with
  | nil => simp [looksAt, words, hrest]
  | cons t ts =>
    rw [looksAt_cons hrest, words, hrest, List.map_cons, List.head?_cons, Option.some_inj]
    exact ⟨Token.lexeme_of_is, fun h => Token.is_of_lexeme h ne⟩

theorem looksAt_words {kind : Token.Kind} {text : String} (h : c.words = (kind, text) :: more)
    (ne : text ≠ "") : c.looksAt kind text = true := by
  rw [looksAt_iff ne, h, List.head?_cons]

theorem not_looksAt_words {kind : Token.Kind} {text : String} (h : c.words = l :: more)
    (other : l ≠ (kind, text)) (ne : text ≠ "") : ¬c.looksAt kind text := by
  rw [looksAt_iff ne, h, List.head?_cons, Option.some_inj]
  exact other

theorem closeGroup_words (h : c.words = punct ")" :: more) : c.closeGroup = c.advance := by
  obtain ⟨t, ts, hrest, ht, -⟩ := rest_of_words h
  have closes : t.is .delimiter ")" := Token.is_of_lexeme ht (by decide)
  have nothing : c.skipLeftovers = c := by
    rw [skipLeftovers, hrest, leftovers, if_pos closes]
    rfl
  simp only [closeGroup, nothing, looksAt_cons hrest, if_pos closes]

end Cursor

/-- On the way from `c` to `c'` exactly the words `ls` are taken and nothing is
reported. -/
structure Spells (c : Cursor) (ls : List Lexeme) (c' : Cursor) : Prop where
  words : c.words = ls ++ c'.words
  log : c'.log = c.log
  last : c'.last.map Token.lexeme = ls.getLast?.or (c.last.map Token.lexeme)

namespace Spells

variable {c c' c'' : Cursor} {ls ms : List Lexeme}

theorem refl (c : Cursor) : Spells c [] c :=
  ⟨rfl, rfl, rfl⟩

theorem trans (h : Spells c ls c') (h' : Spells c' ms c'') : Spells c (ls ++ ms) c'' where
  words := by rw [h.words, h'.words, List.append_assoc]
  log := h'.log.trans h.log
  last := by rw [h'.last, h.last, List.getLast?_append, Option.or_assoc]

theorem advance {l : Lexeme} {more : List Lexeme} (h : c.words = l :: more) :
    Spells c [l] c.advance := by
  obtain ⟨t, ts, hrest, ht, -⟩ := Cursor.rest_of_words h
  rw [Cursor.advance_rest hrest]
  refine ⟨?_, rfl, by simp [ht]⟩
  simp [Cursor.words, hrest, ht]

/-- What is ahead after the words. -/
theorem ahead {more : List Lexeme} (h : Spells c ls c') (hc : c.words = ls ++ more) :
    c'.words = more :=
  List.append_cancel_left (h.words.symm.trans hc)

/-- The counter of levels takes no part. -/
theorem leave {opened closed : Nat} (h : Spells { c with depth := opened } ls c') :
    Spells c ls { c' with depth := closed } :=
  ⟨h.words, h.log, h.last⟩

theorem length_lt (h : Spells c ls c') (ne : ls ≠ []) : c'.rest.length < c.rest.length := by
  have total := congrArg List.length h.words
  have pos := List.length_pos_iff.mpr ne
  simp only [Cursor.words, List.length_append, List.length_map] at total
  omega

end Spells

/-- What may stand behind a phrase of tier `k`: no parenthesis that would make a
name a call, and no operator that the tier would read on over. -/
def Follows (k : Nat) (more : List Lexeme) : Prop :=
  ∀ l ∈ more.head?, l ≠ punct "(" ∧ ∀ o : BinOp, l = op o.symbol → o.precedence ≤ 6 - k

theorem follows_op {k : Nat} {o : BinOp} (prec : o.precedence ≤ 6 - k) (more : List Lexeme) :
    Follows k (op o.symbol :: more) := by
  intro l hl
  obtain rfl : op o.symbol = l := by simpa using hl
  refine ⟨by simp [op, punct], fun o' ho => ?_⟩
  have same : o = o' := BinOp.symbol_inj (Prod.mk.inj ho).2
  rwa [← same]

theorem follows_punct {k : Nat} {text : String} (ne : text ≠ "(") (more : List Lexeme) :
    Follows k (punct text :: more) := by
  intro l hl
  obtain rfl : punct text = l := by simpa using hl
  exact ⟨fun h => ne (Prod.mk.inj h).2, fun o h => by simp [op, punct] at h⟩

theorem follows_nil (k : Nat) : Follows k [] := by
  simp [Follows]

namespace Parse

open Grammar

/-- The parser reads the phrases of `P` that stand before what `F` allows. -/
def Completes (p : Parse (Option Node)) (P : Phrase) (F : Node → List Lexeme → Prop) : Prop :=
  ∀ {ls more : List Lexeme} {e : Node} {c : Cursor}, P ls e → F e more → c.words = ls ++ more →
    Ensures p c fun n c' => ∃ e', n = some e' ∧ e'.erase = e.erase ∧ Spells c ls c'

theorem Completes.run {p : Parse (Option Node)} {P : Phrase} {F : Node → List Lexeme → Prop}
    (h : Completes p P F) {ls more : List Lexeme} {e : Node} {c : Cursor} (he : P ls e)
    (hmore : F e more) (hc : c.words = ls ++ more) :
    ∃ e' c', p c = (some e', c') ∧ e'.erase = e.erase ∧ Spells c ls c' := by
  obtain ⟨e', hn, alike, moved⟩ := h he hmore hc
  exact ⟨e', (p c).2, Prod.ext hn rfl, alike, moved⟩

/-! ### Small parsers -/

theorem peek_words {c : Cursor} {kind : Token.Kind} {text : String} {more : List Lexeme}
    (h : c.words = (kind, text) :: more) :
    ∃ t ts, c.rest = t :: ts ∧ peek c = (some t, c) ∧ t.kind = kind ∧ t.spelling = text := by
  obtain ⟨t, ts, hrest, ht, -⟩ := Cursor.rest_of_words h
  obtain ⟨hk, hs⟩ := Prod.mk.inj ht
  exact ⟨t, ts, hrest, peek_cons hrest, hk, hs⟩

theorem accept_words {c : Cursor} {kind : Token.Kind} {text : String} {more : List Lexeme}
    (h : c.words = (kind, text) :: more) (ne : text ≠ "") : accept kind text c = (true, c.advance) := by
  unfold accept
  rw [if_pos (Cursor.looksAt_words h ne)]

theorem accept_other {c : Cursor} {kind : Token.Kind} {text : String} (ne : text ≠ "")
    (h : c.words.head? ≠ some (kind, text)) : accept kind text c = (false, c) := by
  unfold accept
  rw [if_neg fun looks => h ((Cursor.looksAt_iff ne).mp looks)]

/-! ### Chains of operators -/

theorem operatorOf_op {t : Token} {o : BinOp} (h : t.lexeme = op o.symbol) :
    operatorOf o.precedence t = some o := by
  obtain ⟨hk, hs⟩ := Prod.mk.inj h
  rw [operatorOf, if_pos hk, hs, BinOp.ofSymbol?_eq_some_iff.mpr rfl]
  simp

/-- A chain ends before what cannot extend it. -/
theorem chain_ends {k : Nat} (hk : k < 6) (operand : Parse (Option Node)) (left : Node) {c : Cursor}
    (h : Follows (k + 1) c.words) : chain (6 - k) operand left c = (left, c) := by
  unfold chain
  rw [chain.go]
  split
  · rfl
  · next t ts hrest =>
    cases ho : operatorOf (6 - k) t with
    | none => rfl
    | some o =>
      obtain ⟨hkind, hs, prec⟩ := operatorOf_some ho
      have isOp : t.lexeme = op o.symbol := by rw [Token.lexeme, hkind, hs, op]
      have bound := (h t.lexeme (by simp [Cursor.words, hrest])).2 o isOp
      omega

/-- An operator and its right operand extend a chain. -/
theorem chain_step {operand : Parse (Option Node)} (left : Node) {right : Node} {o : BinOp}
    {c c' : Cursor} {more : List Lexeme} (h : c.words = op o.symbol :: more)
    (hright : operand c.advance = (some right, c')) (shorter : c'.rest.length < c.rest.length) :
    ∃ l, chain o.precedence operand left c =
      chain o.precedence operand (.binary o left right l) c' := by
  obtain ⟨t, ts, hrest, ht, -⟩ := Cursor.rest_of_words h
  refine ⟨t.location, ?_⟩
  unfold chain
  rw [chain.go]
  simp only [hrest, operatorOf_op ht, hright]
  rw [if_pos (by simpa [hrest] using shorter)]

theorem tier_succ {operand : Parse (Option Node)} {k : Nat} {c c' : Cursor} {left : Node}
    (h : tier operand k c = (some left, c')) :
    tier operand (k + 1) c = (some <$> chain (6 - k) (tier operand k) left) c' := by
  rw [tier, binaryLevel, bind_apply, h]
  rfl

/-- The parser reads a phrase up to the chain that its last operator belongs to. -/
theorem tier_chain {operand : Parse (Option Node)} {P : Phrase} {k : Nat}
    (h : Completes (tier operand k) (Tier P k) fun _ => Follows k) :
    ∀ {ls more : List Lexeme} {e : Node} {c : Cursor}, Tier P (k + 1) ls e → Follows k more →
      c.words = ls ++ more →
      ∃ e' c', e'.erase = e.erase ∧ Spells c ls c' ∧
        tier operand (k + 1) c = (some <$> chain (6 - k) (tier operand k) e') c'
  | ls, more, e, c, .lift he, hmore, hc => by
    obtain ⟨e', c', hrun, alike, moved⟩ := h.run he hmore hc
    exact ⟨e', c', alike, moved, tier_succ hrun⟩
  | _, more, _, c, .binary o _ hleft prec hright, hmore, hc => by
    rw [List.append_assoc, List.cons_append] at hc
    obtain ⟨left, c1, alike, moved, hrun⟩ := tier_chain h hleft (follows_op (Nat.le_of_eq prec) _) hc
    have hc1 := moved.ahead hc
    have taken := Spells.advance hc1
    obtain ⟨right, c2, hright, alike', moved'⟩ := h.run hright hmore (taken.ahead hc1)
    have shorter : c2.rest.length < c1.rest.length := (taken.trans moved').length_lt (by simp)
    obtain ⟨l, step⟩ := chain_step left hc1 hright shorter
    refine ⟨.binary o left right l, c2, by simp [Node.erase, alike, alike'],
      moved.trans (taken.trans moved'), ?_⟩
    rw [hrun, map_apply, map_apply, ← prec, step]

/-- A tier of operators reads its phrases, if the operand does. -/
theorem tier_completes {operand : Parse (Option Node)} {P : Phrase}
    (h : Completes operand P fun _ => Follows 0) :
    ∀ k ≤ 6, Completes (tier operand k) (Tier P k) fun _ => Follows k
  | 0, _, _, _, _, _, .operand he, hmore, hc => h he hmore hc
  | k + 1, hk, _, more, _, c, he, hmore, hc => by
    have weaker : Follows k more := fun l hl =>
      ⟨(hmore l hl).1, fun o ho => by have := (hmore l hl).2 o ho; omega⟩
    obtain ⟨e', c', alike, moved, hrun⟩ := tier_chain (tier_completes h k (by omega)) he weaker hc
    have hmore' : Follows (k + 1) c'.words := by rwa [moved.ahead hc]
    rw [map_apply, chain_ends (Nat.lt_of_succ_le hk) (tier operand k) e' hmore'] at hrun
    unfold Ensures
    rw [hrun]
    exact ⟨e', rfl, alike, moved⟩

/-! ### Operands -/

section

variable {expression : Parse (Option Node)} {P : Phrase}

theorem argumentsOver_completes (h : Completes expression P fun _ => Follows 6) :
    ∀ {ls more : List Lexeme} {es : List Node} {c : Cursor}, Items P ls es →
      c.words = ls ++ punct ")" :: more →
      Ensures (argumentsOver expression) c fun args c' =>
        Node.eraseAll args = Node.eraseAll es ∧ Spells c ls c'
  | ls, more, _, c, .one he, hc => by
    obtain ⟨e, c1, hrun, alike, moved⟩ := h.run he (follows_punct (by decide) more) hc
    have stop : ¬c1.looksAt .delimiter "," :=
      Cursor.not_looksAt_words (moved.ahead hc) (by decide) (by decide)
    unfold Ensures argumentsOver
    rw [argumentsOver.go]
    simp only [hrun, if_neg stop]
    exact ⟨by simp [Node.eraseAll, alike], moved⟩
  | _, more, _, c, .cons he hes, hc => by
    rw [List.append_assoc, List.cons_append] at hc
    obtain ⟨e, c1, hrun, alike, moved⟩ := h.run he (follows_punct (by decide) _) hc
    have hc1 := moved.ahead hc
    have taken := Spells.advance hc1
    have comma : c1.looksAt .delimiter "," := Cursor.looksAt_words hc1 (by decide)
    have shorter : c1.advance.rest.length < c.rest.length := (moved.trans taken).length_lt (by simp)
    obtain ⟨alike', moved'⟩ := argumentsOver_completes h hes (taken.ahead hc1)
    unfold argumentsOver at alike' moved'
    unfold Ensures argumentsOver
    rw [argumentsOver.go]
    simp only [hrun, if_pos comma, if_pos shorter]
    refine ⟨by simp [Node.eraseAll, alike, alike'], ?_⟩
    simpa using (moved.trans taken).trans moved'

/-- An operand ahead is not taken for a word that opens none. -/
theorem not_looksAt {ls more : List Lexeme} {c : Cursor} (start : StartsOperand ls)
    (hc : c.words = ls ++ more) {kind : Token.Kind} {text : String} (ne : text ≠ "")
    (other : opensOperand (kind, text) = false) : c.looksAt kind text = false := by
  obtain ⟨l, rest, rfl, hl⟩ := start
  refine Bool.eq_false_iff.mpr fun looks => ?_
  rw [Cursor.looksAt_iff ne, hc] at looks
  obtain rfl : l = (kind, text) := by simpa using looks
  rw [hl] at other
  simp at other

theorem argumentList_completes (h : Completes expression P fun _ => Follows 6) (opens : Opens P)
    {ls more : List Lexeme} {es : List Node} {c : Cursor} (hes : Arguments P ls es)
    (hc : c.words = ls ++ more) :
    Ensures (argumentList expression) c fun args c' =>
      Node.eraseAll args = Node.eraseAll es ∧ Spells c ls c' := by
  unfold argumentList
  cases hes with
  | none =>
    have taken := Spells.advance hc
    have hc1 := taken.ahead hc
    have closed := Spells.advance hc1
    refine .bind_eq (accept_words hc (by decide)) ?_
    refine .bind_eq rfl ?_
    rw [if_pos (Cursor.looksAt_words hc1 (by decide))]
    refine .bind_eq rfl (.bind_eq rfl (.pure ⟨rfl, ?_⟩))
    rw [Cursor.closeGroup_words hc1]
    exact taken.trans closed
  | some hes =>
    simp only [List.cons_append, List.append_assoc, List.nil_append] at hc
    have taken := Spells.advance hc
    have hc1 := taken.ahead hc
    have operand : c.advance.looksAt .delimiter ")" = false :=
      not_looksAt (items_start opens hes) hc1 (by decide) rfl
    refine .bind_eq (accept_words hc (by decide)) ?_
    refine .bind_eq rfl ?_
    rw [operand]
    refine .bind (argumentsOver_completes h hes hc1) fun args c2 ⟨alike, moved⟩ => ?_
    have hc2 := moved.ahead hc1
    refine .bind_eq rfl (.pure ⟨alike, ?_⟩)
    rw [Cursor.closeGroup_words hc2]
    exact taken.trans (moved.trans (.advance hc2))

theorem primary_completes (h : Completes expression P fun _ => Follows 6) (opens : Opens P) :
    Completes (primary expression) (Primary P) fun _ => Follows 0 := by
  intro ls more e c he hmore hc
  unfold primary
  cases he with
  | number text l =>
    obtain ⟨t, _, _, hpeek, hk, rfl⟩ := peek_words hc
    refine .bind_eq hpeek ?_
    simp only [hk]
    exact .bind_eq rfl (.pure ⟨_, rfl, rfl, .advance hc⟩)
  | string text l =>
    obtain ⟨t, _, _, hpeek, hk, rfl⟩ := peek_words hc
    refine .bind_eq hpeek ?_
    simp only [hk]
    exact .bind_eq rfl (.pure ⟨_, rfl, rfl, .advance hc⟩)
  | name x l =>
    obtain ⟨t, _, _, hpeek, hk, rfl⟩ := peek_words hc
    have taken := Spells.advance hc
    have single : ¬c.advance.looksAt .delimiter "(" := by
      rw [Cursor.looksAt_iff (by decide), taken.ahead hc]
      exact fun paren => (hmore _ paren).1 rfl
    refine .bind_eq hpeek ?_
    simp only [hk]
    refine .bind_eq rfl (.bind_eq rfl ?_)
    rw [if_neg single]
    exact .pure ⟨_, rfl, rfl, taken⟩
  | call x l hargs =>
    obtain ⟨t, _, _, hpeek, hk, rfl⟩ := peek_words hc
    have taken := Spells.advance hc
    have hc1 := taken.ahead hc
    have called : c.advance.looksAt .delimiter "(" := by
      obtain ⟨inside, rfl⟩ := arguments_start hargs
      exact Cursor.looksAt_words hc1 (by decide)
    refine .bind_eq hpeek ?_
    simp only [hk]
    refine .bind_eq rfl (.bind_eq rfl ?_)
    rw [if_pos called]
    refine .bind (argumentList_completes h opens hargs hc1) fun args c2 ⟨alike, moved⟩ => ?_
    exact .pure ⟨_, rfl, by simp [Node.erase, alike], taken.trans moved⟩
  | group he =>
    simp only [List.cons_append, List.append_assoc, List.nil_append] at hc
    obtain ⟨t, _, hrest, hpeek, hk, hs⟩ := peek_words hc
    have paren : t.is .delimiter "(" := Token.is_of_lexeme (by rw [Token.lexeme, hk, hs]) (by decide)
    have taken := Spells.advance hc
    have hc1 := taken.ahead hc
    refine .bind_eq hpeek ?_
    simp only [hk, if_pos paren]
    refine .bind_eq rfl ?_
    refine .bind (h he (follows_punct (by decide) more) hc1) ?_
    rintro _ c2 ⟨e', rfl, alike, moved⟩
    have hc2 := moved.ahead hc1
    refine .bind_eq rfl (.pure ⟨e', rfl, alike, ?_⟩)
    rw [Cursor.closeGroup_words hc2]
    exact taken.trans (moved.trans (.advance hc2))

end

/-- Operands read their phrases, if the operands one level down do. -/
theorem prefixed_completes {operand : Parse (Option Node)} {P : Phrase}
    (h : Completes operand P fun _ => Follows 0) (opens : Opens P) :
    Completes (prefixed operand) (Prefixed P) fun _ => Follows 0 := by
  have hprimary : Completes (primary (expressionOver operand)) (Primary (Tier P 6)) fun _ => Follows 0 :=
    primary_completes (tier_completes h 6 (Nat.le_refl 6)) (tier_opens opens 6)
  intro ls more e c he hmore hc
  unfold prefixed
  cases he with
  | primary he =>
    obtain ⟨kind, text, rest, rfl, hkind⟩ := primary_start he
    obtain ⟨t, _, _, hpeek, hk, -⟩ := peek_words hc
    refine .bind_eq hpeek ?_
    simp only [hk, if_neg hkind]
    exact hprimary he hmore hc
  | negation o l ho he =>
    obtain ⟨t, _, _, hpeek, hk, hs⟩ := peek_words hc
    have taken := Spells.advance hc
    refine .bind_eq hpeek ?_
    simp only [hk, if_true, UnaryOp.ofSymbol?_eq_some_iff.mpr hs]
    refine .bind_eq rfl ?_
    rw [if_neg ho]
    refine .bind (h he hmore (taken.ahead hc)) ?_
    rintro _ c2 ⟨e', rfl, alike, moved⟩
    exact .pure ⟨_, rfl, by simp [Node.erase, alike], taken.trans moved⟩
  | address l he =>
    obtain ⟨t, _, _, hpeek, hk, hs⟩ := peek_words hc
    have taken := Spells.advance hc
    refine .bind_eq hpeek ?_
    simp only [hk, if_true, UnaryOp.ofSymbol?_eq_some_iff.mpr hs]
    refine .bind_eq rfl ?_
    refine .bind (hprimary he hmore (taken.ahead hc)) ?_
    rintro _ c2 ⟨e', rfl, alike, moved⟩
    exact .pure ⟨_, rfl, by simp [Node.erase, alike], taken.trans moved⟩

/-- **The parser reads every operand** that needs no more levels than are left. -/
theorem operand_completes : ∀ levels, Completes (operand levels) (Operand levels) fun _ => Follows 0
  | 0, _, _, _, _, he, _, _ => he.elim
  | levels + 1, _, _, _, c, he, hmore, hc => by
    have inner := prefixed_completes (operand_completes levels) (operand_opens levels)
      (c := { c with depth := c.depth + 1 }) he hmore hc
    exact .nested (inner.mono fun _ _ ⟨e', found, alike, moved⟩ => ⟨e', found, alike, moved.leave⟩)

theorem expression_completes (levels : Nat) :
    Completes (expression levels) (Expression levels) fun _ => Follows 6 :=
  tier_completes (operand_completes levels) 6 (Nat.le_refl 6)

end Parse
end MiniC
