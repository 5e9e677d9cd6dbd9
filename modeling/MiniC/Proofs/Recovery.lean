/-
# Closing a group

Behind a condition, a list of arguments, a parenthesized expression or the header of a loop the
parser skips what is left of the group and takes the `)` that closes it. What it skips has
a description without a counter: the longest run of tokens ahead in which no token ends the
input or a statement or bounds a block, and in which every `)` has its `(`. A `)` has its `(`
if nothing but whole groups and other tokens stand between the two (`Balanced`).

The counter of the loop is the number of groups that are open behind the tokens skipped so
far (`Opened`), and that is how many more `(` than `)` are among them (`Opened.level_eq`), so
it is taken down only where a group is open. One lemma says what a turn of the loop does
(`leftovers_cases`); the run of the loop follows by induction on the tokens ahead.

Key definitions: `Group.Balanced`, `Group.Matched`, `Group.Skippable`, `Group.Opened`, `Cursor.Faces`.
Key theorems: `Group.leftovers_cases`, `Group.leftovers_skippable`, `Group.leftovers_counter`,
`Cursor.closeGroup_resumes`.
-/
import MiniC.Proofs.Yield

namespace MiniC

namespace Token

def opensGroup (t : Token) : Bool := t.is .delimiter "("

def closesGroup (t : Token) : Bool := t.is .delimiter ")"

/-- The token bounds a block or ends a statement. -/
def endsStatement (t : Token) : Bool :=
  t.is .delimiter openBrace || t.is .delimiter closeBrace || t.is .delimiter ";"

/-- What the token adds to the number of open groups. -/
def openness (t : Token) : Int := if t.opensGroup then 1 else if t.closesGroup then -1 else 0

/-- A token has one spelling. -/
theorem is_ne {t : Token} {kind kind' : Kind} {text text' : String} (h : t.is kind text) (ne : text ≠ text') :
    ¬t.is kind' text' := by
  simp only [Token.is, Bool.and_eq_true, decide_eq_true_eq] at h ⊢
  simp [h.2, ne]

theorem closesGroup_not_opensGroup {t : Token} (h : t.closesGroup) : ¬t.opensGroup :=
  is_ne h (by decide)

/-- No parenthesis ends a statement. -/
theorem is_not_endsStatement {t : Token} {text : String} (h : t.is .delimiter text)
    (ne : text ∉ [openBrace, closeBrace, ";"]) : ¬t.endsStatement := by
  simp only [List.mem_cons, List.not_mem_nil, or_false, not_or] at ne
  simp [endsStatement, is_ne h ne.1, is_ne h ne.2.1, is_ne h ne.2.2]

theorem closesGroup_kind {t : Token} (h : t.closesGroup) : t.kind = .delimiter := by
  simp only [closesGroup, Token.is, Bool.and_eq_true, decide_eq_true_eq] at h
  exact h.1

end Token

namespace Group

/-! ### Groups among tokens -/

/-- Every `(` has its `)` and every `)` its `(`. -/
inductive Balanced : List Token → Prop where
  | nil : Balanced []
  | other {t : Token} {ts : List Token} (opens : ¬t.opensGroup) (closes : ¬t.closesGroup)
      (more : Balanced ts) : Balanced (t :: ts)
  | group {left right : Token} {inner ts : List Token} (opens : left.opensGroup) (closes : right.closesGroup)
      (inside : Balanced inner) (more : Balanced ts) : Balanced (left :: inner ++ right :: ts)

/-- A `)` behind these tokens has its `(` among them. -/
def Matched (before : List Token) : Prop :=
  ∃ outer left inner, before = outer ++ left :: inner ∧ left.opensGroup ∧ Balanced inner

/-- The tokens may be skipped on the way to the end of a group. -/
structure Skippable (run : List Token) : Prop where
  inInput : ∀ t ∈ run, t.kind ≠ .endOfInput
  inStatement : ∀ t ∈ run, ¬t.endsStatement
  matched : ∀ before right after, run = before ++ right :: after → right.closesGroup → Matched before

/-- How many more `(` than `)` are among the tokens. -/
def level : List Token → Int
  | [] => 0
  | t :: ts => t.openness + level ts

/-- Behind the tokens `d` groups are open. -/
inductive Opened : Nat → List Token → Prop where
  | none {ts : List Token} (balanced : Balanced ts) : Opened 0 ts
  | one {d : Nat} {outer inner : List Token} {left : Token} (outside : Opened d outer)
      (opens : left.opensGroup) (inside : Balanced inner) : Opened (d + 1) (outer ++ left :: inner)

theorem level_append (ts us : List Token) : level (ts ++ us) = level ts + level us := by
  induction ts with
  | nil => simp [level]
  | cons t ts ih => rw [List.cons_append, level, level, ih, Int.add_assoc]

theorem level_left {left : Token} (opens : left.opensGroup) (ts : List Token) : level (left :: ts) = 1 + level ts := by
  rw [level, Token.openness, if_pos opens]

theorem level_right {right : Token} (closes : right.closesGroup) (ts : List Token) :
    level (right :: ts) = -1 + level ts := by
  rw [level, Token.openness, if_neg (Token.closesGroup_not_opensGroup closes), if_pos closes]

theorem level_other {t : Token} (opens : ¬t.opensGroup) (closes : ¬t.closesGroup) (ts : List Token) :
    level (t :: ts) = level ts := by
  rw [level, Token.openness, if_neg opens, if_neg closes, Int.zero_add]

namespace Balanced

variable {ts us : List Token}

theorem append (h : Balanced ts) (h' : Balanced us) : Balanced (ts ++ us) := by
  induction h with
  | nil => exact h'
  | other opens closes _ ih => exact .other opens closes ih
  | group opens closes inside _ _ ih =>
    rw [List.append_assoc, List.cons_append]
    exact .group opens closes inside ih

theorem level_eq (h : Balanced ts) : level ts = 0 := by
  induction h with
  | nil => rfl
  | other opens closes _ ih => rw [level_other opens closes, ih]
  | group opens closes _ _ ihInside ihMore =>
    rw [List.cons_append, level_left opens, level_append, level_right closes, ihInside, ihMore]
    rfl

/-- Along the way at least as many groups are opened as closed. -/
theorem level_nonneg (h : Balanced ts) {before : List Token} (first : before <+: ts) : 0 ≤ level before := by
  induction h generalizing before with
  | nil =>
    rw [List.prefix_nil.mp first]
    exact Int.le_refl 0
  | other opens closes _ ih =>
    rcases List.prefix_cons_iff.mp first with rfl | ⟨rest, rfl, behind⟩
    · exact Int.le_refl 0
    · rw [level_other opens closes]
      exact ih behind
  | @group left right inner ts opens closes inside more ihInside ihMore =>
    rcases List.prefix_cons_iff.mp first with rfl | ⟨rest, rfl, behind⟩
    · exact Int.le_refl 0
    rw [level_left opens]
    rcases List.prefix_or_prefix_of_prefix behind (List.prefix_append inner (right :: ts)) with within | ⟨rest, rfl⟩
    · have := ihInside within
      omega
    · rw [level_append, inside.level_eq]
      rcases List.prefix_cons_iff.mp ((List.prefix_append_right_inj inner).mp behind) with rfl | ⟨rest, rfl, further⟩
      · simp [level]
      · have := ihMore further
        rw [level_right closes]
        omega

/-- No group is open behind whole groups. -/
theorem not_matched (h : Balanced ts) : ¬Matched ts := by
  rintro ⟨outer, left, inner, rfl, opens, inside⟩
  have total := h.level_eq
  have begun := h.level_nonneg (List.prefix_append outer (left :: inner))
  rw [level_append, level_left opens, inside.level_eq] at total
  omega

end Balanced

namespace Opened

variable {d : Nat} {ts : List Token} {t : Token}

/-- The number of open groups is the number of `(` less that of `)`. -/
theorem level_eq (h : Opened d ts) : level ts = d := by
  induction h with
  | none balanced => exact balanced.level_eq
  | one _ opens inside ih =>
    rw [level_append, level_left opens, inside.level_eq, ih]
    omega

theorem append (h : Opened d ts) {us : List Token} (balanced : Balanced us) : Opened d (ts ++ us) := by
  cases h with
  | none before => exact .none (before.append balanced)
  | one outside opens inside =>
    rw [List.append_assoc, List.cons_append]
    exact .one outside opens (inside.append balanced)

theorem enter (h : Opened d ts) (opens : t.opensGroup) : Opened (d + 1) (ts ++ [t]) :=
  .one h opens .nil

theorem leave (h : Opened (d + 1) ts) (closes : t.closesGroup) : Opened d (ts ++ [t]) := by
  cases h with
  | one outside opens inside =>
    rw [List.append_assoc]
    exact outside.append (.group opens closes inside .nil)

theorem matched (h : Opened (d + 1) ts) : Matched ts := by
  cases h with
  | one _ opens inside => exact ⟨_, _, _, rfl, opens, inside⟩

theorem not_matched (h : Opened 0 ts) : ¬Matched ts := by
  cases h with
  | none balanced => exact balanced.not_matched

end Opened

/-! ### The loop -/

open Cursor (leftovers)

section

variable {d : Nat} {done : List Token}

theorem leftovers_last {t : Token} (closes : t.closesGroup) (ts : List Token) : leftovers 0 (t :: ts) = [] :=
  if_pos closes

theorem leftovers_right {t : Token} (closes : t.closesGroup) (d : Nat) (ts : List Token) :
    leftovers (d + 1) (t :: ts) = t :: leftovers d ts :=
  if_pos closes

theorem leftovers_left {t : Token} (opens : t.opensGroup) (d : Nat) (ts : List Token) :
    leftovers d (t :: ts) = t :: leftovers (d + 1) ts :=
  (if_neg (Token.is_ne opens (by decide))).trans (if_pos opens)

theorem leftovers_bound {t : Token} (ends : t.endsStatement) (closes : ¬t.closesGroup) (opens : ¬t.opensGroup)
    (d : Nat) (ts : List Token) : leftovers d (t :: ts) = [] :=
  (if_neg closes).trans ((if_neg opens).trans (if_pos ends))

theorem leftovers_other {t : Token} (ends : ¬t.endsStatement) (closes : ¬t.closesGroup) (opens : ¬t.opensGroup)
    (d : Nat) (ts : List Token) : leftovers d (t :: ts) = t :: leftovers d ts :=
  (if_neg closes).trans ((if_neg opens).trans (if_neg ends))

/-- A turn of the loop, `done` being skipped so far: it ends with the input, at a token that
stays, or it skips a token and goes on with the counter that fits. -/
theorem leftovers_cases (opened : Opened d done) (ts : List Token) :
    (ts = [] ∧ leftovers d ts = []) ∨
    (∃ t us, ts = t :: us ∧ leftovers d ts = [] ∧ (t.endsStatement ∨ t.closesGroup ∧ ¬Matched done)) ∨
    ∃ t us d', ts = t :: us ∧ leftovers d ts = t :: leftovers d' us ∧ ¬t.endsStatement ∧
      (t.closesGroup → Matched done) ∧ Opened d' (done ++ [t]) := by
  cases ts with
  | nil => exact .inl ⟨rfl, rfl⟩
  | cons t ts =>
    right
    by_cases closes : t.closesGroup
    · cases d with
      | zero => exact .inl ⟨t, ts, rfl, leftovers_last closes ts, .inr ⟨closes, opened.not_matched⟩⟩
      | succ d =>
        exact .inr ⟨t, ts, d, rfl, leftovers_right closes d ts, Token.is_not_endsStatement closes (by decide),
          fun _ => opened.matched, opened.leave closes⟩
    by_cases opens : t.opensGroup
    · exact .inr ⟨t, ts, d + 1, rfl, leftovers_left opens d ts, Token.is_not_endsStatement opens (by decide),
        fun h => absurd h closes, opened.enter opens⟩
    by_cases ends : t.endsStatement
    · exact .inl ⟨t, ts, rfl, leftovers_bound ends closes opens d ts, .inl ends⟩
    · exact .inr ⟨t, ts, d, rfl, leftovers_other ends closes opens d ts, ends, fun h => absurd h closes,
        opened.append (.other opens closes .nil)⟩

/-- Skippable tokens with one more. -/
theorem skippable_concat {run : List Token} {t : Token} :
    Skippable (run ++ [t]) ↔
      Skippable run ∧ t.kind ≠ .endOfInput ∧ ¬t.endsStatement ∧ (t.closesGroup → Matched run) := by
  constructor
  · rintro ⟨inInput, inStatement, matched⟩
    refine ⟨⟨fun u hu => inInput u (by simp [hu]), fun u hu => inStatement u (by simp [hu]), ?_⟩,
      inInput t (by simp), inStatement t (by simp), matched run t [] rfl⟩
    rintro before right after rfl
    exact matched before right (after ++ [t]) (by simp)
  · rintro ⟨⟨inInput, inStatement, matched⟩, input, statement, last⟩
    refine ⟨?_, ?_, fun before right after split closes => ?_⟩
    · exact List.forall_mem_append.mpr ⟨inInput, List.forall_mem_singleton.mpr input⟩
    · exact List.forall_mem_append.mpr ⟨inStatement, List.forall_mem_singleton.mpr statement⟩
    · rcases List.eq_nil_or_concat after with rfl | ⟨after, u, rfl⟩
      · obtain ⟨rfl, same⟩ := List.append_inj' split rfl
        obtain rfl : t = right := by simpa using same
        exact last closes
      · rw [List.concat_eq_append, ← List.cons_append, ← List.append_assoc] at split
        exact matched before right after (List.append_inj' split rfl).1 closes

theorem Skippable.front {run before : List Token} (h : Skippable run) (first : before <+: run) :
    Skippable before := by
  obtain ⟨after, rfl⟩ := first
  refine ⟨fun t ht => h.inInput t (by simp [ht]), fun t ht => h.inStatement t (by simp [ht]), ?_⟩
  rintro outer right inner rfl
  exact h.matched outer right (inner ++ after) (by simp)

/-- A run of the loop: what is skipped may be skipped, and the token behind it may not. -/
theorem leftovers_skippable (opened : Opened d done) (skipped : Skippable done) {ts : List Token}
    (inInput : ∀ t ∈ ts, t.kind ≠ .endOfInput) :
    Skippable (done ++ leftovers d ts) ∧
      ∀ t more, ts = leftovers d ts ++ t :: more → ¬Skippable (done ++ leftovers d ts ++ [t]) := by
  induction ts generalizing d done with
  | nil => exact ⟨by simpa [leftovers] using skipped, by simp [leftovers]⟩
  | cons t ts ih =>
    rcases leftovers_cases opened (t :: ts) with ⟨none, -⟩ | ⟨u, us, same, stops, why⟩ |
      ⟨u, us, d', same, goesOn, ends, closes, opened'⟩
    · cases none
    · cases same
      rw [stops, List.append_nil]
      refine ⟨skipped, fun u more eq skippable => ?_⟩
      cases eq
      obtain ⟨-, -, notEnds, matched⟩ := skippable_concat.mp skippable
      rcases why with ends | ⟨closes, unmatched⟩
      · exact notEnds ends
      · exact unmatched (matched closes)
    · cases same
      have one : Skippable (done ++ [t]) :=
        skippable_concat.mpr ⟨skipped, inInput t (by simp), ends, closes⟩
      have rest := ih opened' one fun u hu => inInput u (by simp [hu])
      rw [List.append_assoc, List.singleton_append] at rest
      rw [goesOn]
      refine ⟨rest.1, fun u more eq => rest.2 u more ?_⟩
      exact (List.cons.inj eq).2

/-- In the middle of a run the counter is the number of open groups. -/
theorem leftovers_counter (opened : Opened d done) {ts before later : List Token}
    (h : leftovers d ts = before ++ later) :
    ∃ d', Opened d' (done ++ before) ∧ leftovers d ts = before ++ leftovers d' (ts.drop before.length) := by
  induction before generalizing d done ts with
  | nil => exact ⟨d, by simpa using opened, rfl⟩
  | cons t before ih =>
    rcases leftovers_cases opened ts with ⟨-, stops⟩ | ⟨_, _, -, stops, -⟩ | ⟨u, us, d', rfl, goesOn, -, -, opened'⟩
    · simp [stops] at h
    · simp [stops] at h
    · rw [goesOn, List.cons_append] at h
      obtain ⟨rfl, behind⟩ := List.cons.inj h
      obtain ⟨d'', opened'', rest⟩ := ih opened' behind
      refine ⟨d'', by simpa using opened'', ?_⟩
      rw [goesOn, rest]
      rfl

end

/-- A run that cannot be made longer is the longest one. -/
theorem Skippable.longest {run after other : List Token} (stops : ∀ t more, after = t :: more → ¬Skippable (run ++ [t]))
    (skippable : Skippable other) (first : other <+: run ++ after) : other <+: run := by
  rcases List.prefix_or_prefix_of_prefix first (List.prefix_append run after) with within | ⟨more, rfl⟩
  · exact within
  · cases more with
    | nil => simp
    | cons t more =>
      obtain ⟨rest, rfl⟩ := (List.prefix_append_right_inj run).mp first
      exact absurd (skippable.front ⟨more, by simp⟩) (stops t (more ++ rest) rfl)

end Group

/-! ### The cursor -/

namespace Cursor

/-- The cursor stands in front of these tokens: it reads them up to the end of the input. -/
def Faces (c : Cursor) (ahead : List Token) : Prop := c.rest = ahead.takeWhile (·.kind ≠ .endOfInput)

instance (c : Cursor) (ahead : List Token) : Decidable (c.Faces ahead) := inferInstanceAs (Decidable (_ = _))

/-- The report on a token that is skipped in a group. -/
def groupReport (t : Token) : Diagnostic := ⟨.parser, (SyntaxProblem.skippedInGroup t).message, t.location⟩

theorem skip_eq (c : Cursor) {ts more : List Token} (h : c.rest = ts ++ more) :
    ts.foldl (fun c t => c.advance.report (.skippedInGroup t) t.location) c =
      { c with rest := more, last := ts.getLast?.or c.last, log := (ts.map groupReport).reverse ++ c.log } := by
  induction ts generalizing c with
  | nil =>
    rw [List.nil_append] at h
    simp [← h]
  | cons t ts ih =>
    rw [List.foldl_cons, ih _ (by rw [advance_rest h]; rfl), advance_rest h]
    simp [report, groupReport, List.getLast?_cons]

theorem skipLeftovers_eq (c : Cursor) {more : List Token} (h : c.rest = leftovers 0 c.rest ++ more) :
    c.skipLeftovers =
      { c with
        rest := more
        last := (leftovers 0 c.rest).getLast?.or c.last
        log := ((leftovers 0 c.rest).map groupReport).reverse ++ c.log } :=
  c.skip_eq h

theorem closeGroup_closed {c : Cursor} {t : Token} {ts : List Token} (h : c.skipLeftovers.rest = t :: ts)
    (closes : t.closesGroup) : c.closeGroup = { c.skipLeftovers with rest := ts, last := some t } := by
  have looks : c.skipLeftovers.looksAt .delimiter ")" := by rwa [looksAt_cons h]
  unfold closeGroup
  dsimp only
  rw [if_pos looks, advance_rest h]

theorem closeGroup_unclosed {c : Cursor} (h : ∀ t ∈ c.skipLeftovers.rest.head?, ¬t.closesGroup) :
    c.closeGroup = c.skipLeftovers := by
  have other : ¬c.skipLeftovers.looksAt .delimiter ")" := by
    intro looks
    obtain ⟨t, ts, hrest, closes⟩ := exists_of_looksAt looks
    exact h t (by rw [hrest]; rfl) closes
  unfold closeGroup
  dsimp only
  rw [if_neg other]

theorem Faces.inInput {c : Cursor} {ahead : List Token} (faces : c.Faces ahead) :
    ∀ t ∈ c.rest, t.kind ≠ .endOfInput := by
  intro t ht
  rw [faces] at ht
  simpa using List.all_eq_true.mp List.all_takeWhile t ht

/-- What the cursor reads first stands first among the tokens ahead. -/
theorem Faces.split {c : Cursor} {ahead run more : List Token} (faces : c.Faces ahead) (h : c.rest = run ++ more) :
    ∃ after, ahead = run ++ after ∧ more = after.takeWhile (·.kind ≠ .endOfInput) := by
  have all : ahead = run ++ (more ++ ahead.dropWhile (·.kind ≠ .endOfInput)) := by
    rw [← List.append_assoc, ← h, faces, List.takeWhile_append_dropWhile]
  have cut : ahead.takeWhile (·.kind ≠ .endOfInput) = run ++ more := faces.symm.trans h
  refine ⟨_, all, ?_⟩
  rw [all, List.takeWhile_append_of_pos fun t ht => by simpa using faces.inInput t (by simp [h, ht])] at cut
  exact (List.append_cancel_left cut).symm

/-- The tokens that are skipped are the longest run that may be. -/
theorem leftovers_longest {c : Cursor} {ahead : List Token} (faces : c.Faces ahead) :
    Group.Skippable (leftovers 0 c.rest) ∧
      ∀ other, other <+: ahead → Group.Skippable other → other <+: leftovers 0 c.rest := by
  obtain ⟨more, hrest⟩ := leftovers_append 0 c.rest
  obtain ⟨tail, hahead, hmore⟩ := faces.split hrest
  obtain ⟨skippable, stops⟩ :=
    Group.leftovers_skippable (.none .nil) ⟨by simp, by simp, by simp⟩ faces.inInput
  rw [List.nil_append] at skippable stops
  refine ⟨skippable, fun other first otherSkippable => ?_⟩
  rw [hahead] at first
  refine otherSkippable.longest (fun t later tailEq => ?_) first
  by_cases isEnd : t.kind = .endOfInput
  · exact fun h => h.inInput t (by simp) isEnd
  · rw [tailEq, List.takeWhile_cons_of_pos (by simpa using isEnd)] at hmore
    exact stops t _ (hmore ▸ hrest)

/-- Behind what is skipped, the cursor takes a `)` and no other token. -/
theorem closeGroup_takes {c : Cursor} {tail : List Token}
    (h : c.rest = leftovers 0 c.rest ++ tail.takeWhile (·.kind ≠ .endOfInput)) :
    ∃ closing after, tail = closing ++ after ∧ closing = tail.head?.toList.filter Token.closesGroup ∧
      c.closeGroup =
        { c with
          rest := after.takeWhile (·.kind ≠ .endOfInput)
          last := (leftovers 0 c.rest ++ closing).getLast?.or c.last
          log := ((leftovers 0 c.rest).map groupReport).reverse ++ c.log } := by
  have skip := c.skipLeftovers_eq h
  have skipRest := congrArg rest skip
  dsimp only at skipRest
  by_cases closed : ∃ t ts, tail = t :: ts ∧ t.closesGroup
  · obtain ⟨t, ts, rfl, closes⟩ := closed
    rw [List.takeWhile_cons_of_pos (by simp [t.closesGroup_kind closes])] at skipRest
    refine ⟨[t], ts, rfl, by simp [closes], ?_⟩
    rw [closeGroup_closed skipRest closes, skip]
    simp
  · have unclosed : ∀ t ∈ tail.head?, ¬t.closesGroup := by
      intro t ht closes
      obtain ⟨ts, rfl⟩ := List.head?_eq_some_iff.mp ht
      exact closed ⟨t, ts, rfl, closes⟩
    have ahead : ∀ t ∈ c.skipLeftovers.rest.head?, ¬t.closesGroup := by
      intro t ht
      rw [skipRest, List.head?_takeWhile] at ht
      exact unclosed t (Option.filter_eq_some_iff.mp ht).1
    refine ⟨[], tail, rfl, ?_, ?_⟩
    · symm
      rw [List.filter_eq_nil_iff]
      exact fun t ht => unclosed t (Option.mem_toList.mp ht)
    · rw [closeGroup_unclosed ahead, skip, List.append_nil]

/-- **A group is closed behind the longest run that may be skipped.** In front of any tokens, -/
theorem closeGroup_resumes {c : Cursor} {ahead : List Token} (faces : c.Faces ahead) :
    ∃ run closing after, ahead = run ++ closing ++ after ∧
      -- the run is the longest in front of the cursor that may be skipped
      Group.Skippable run ∧ (∀ other, other <+: ahead → Group.Skippable other → other <+: run) ∧
      -- behind it a `)` is taken, and no other token
      closing = (closing ++ after).head?.toList.filter Token.closesGroup ∧
      c.closeGroup.Faces after ∧ c.closeGroup.last = (run ++ closing).getLast?.or c.last ∧
      -- there is one report for each token of the run, in order and at its place
      c.closeGroup.diagnostics = c.diagnostics ++ run.map groupReport ∧
      -- the rest of the cursor is as before
      c.closeGroup.finish = c.finish ∧ c.closeGroup.depth = c.depth ∧
      -- the counter of the loop is the number of `(` less that of `)`, which is never negative
      ∀ before later, run = before ++ later → ∃ counter : Nat, (counter : Int) = Group.level before ∧
        leftovers 0 c.rest = before ++ leftovers counter (c.rest.drop before.length) := by
  obtain ⟨more, hrest⟩ := leftovers_append 0 c.rest
  obtain ⟨tail, hahead, rfl⟩ := faces.split hrest
  obtain ⟨closing, after, rfl, closed, left⟩ := closeGroup_takes hrest
  obtain ⟨skippable, longest⟩ := leftovers_longest faces
  refine ⟨leftovers 0 c.rest, closing, after, ?_, skippable, longest, closed, ?_, ?_, ?_, ?_, ?_, ?_⟩
  · rw [hahead, List.append_assoc]
  · exact congrArg rest left
  · exact congrArg last left
  · simp [left, diagnostics]
  · rw [left]
  · rw [left]
  · intro before later split
    obtain ⟨counter, opened, same⟩ := Group.leftovers_counter (.none .nil) split
    exact ⟨counter, opened.level_eq.symm, same⟩

/-- Behind `x ( y )` a `)` closes the group, and what follows the end of the input is not read. -/
def strayTokens : List Token :=
  [⟨.identifier, some "x", ⟨1, 1⟩⟩, ⟨.delimiter, some "(", ⟨1, 2⟩⟩, ⟨.identifier, some "y", ⟨1, 3⟩⟩,
   ⟨.delimiter, some ")", ⟨1, 4⟩⟩, ⟨.delimiter, some ")", ⟨1, 5⟩⟩, .endAt ⟨1, 6⟩, ⟨.delimiter, some ";", ⟨1, 7⟩⟩]

theorem closeGroup_resumes_stray :
    (ofTokens strayTokens []).Faces strayTokens ∧ Group.Skippable (strayTokens.take 4) ∧
      ¬Group.Skippable (strayTokens.take 5) ∧
      (ofTokens strayTokens []).closeGroup.diagnostics = (strayTokens.take 4).map groupReport := by
  have faces : (ofTokens strayTokens []).Faces strayTokens := by decide
  obtain ⟨run, closing, after, split, skippable, longest, -, -, -, reports, -⟩ := closeGroup_resumes faces
  have none : (ofTokens strayTokens []).diagnostics = [] := rfl
  have four : run.length = 4 := by
    have count : (ofTokens strayTokens []).closeGroup.diagnostics.length = 4 := rfl
    simpa [reports, none] using count
  have first : run <+: strayTokens := ⟨closing ++ after, by rw [split, List.append_assoc]⟩
  have same : run = strayTokens.take 4 := four ▸ List.prefix_iff_eq_take.mp first
  rw [none, List.nil_append, same] at reports
  refine ⟨faces, same ▸ skippable, fun longer => ?_, reports⟩
  have := (longest _ ( List.take_prefix 5 strayTokens) longer).length_le
  rw [four] at this
  exact absurd this (by decide)

end Cursor

end MiniC
