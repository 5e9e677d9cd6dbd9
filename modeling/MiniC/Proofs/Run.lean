/-
# Running a parser

A parser is a step on cursors, so what it does from a given cursor is a pair: its
result and where it leaves the cursor. `Parse.Ensures p c post` says that this pair
satisfies `post`. The rules follow the way parsers are put together, and one fact
for each small parser says what it takes; a proof about a larger one is then
a walk through its text.

Key definitions: `Parse.Ensures`.
Key theorems: `Parse.Ensures.bind`, `Parse.Ensures.bind_eq`, `Parse.Ensures.peek`,
`Parse.Ensures.nested`.
-/
import MiniC.Parse.Statement
import MiniC.Proofs.Lexeme

namespace MiniC

namespace Cursor

theorem advance_rest {c : Cursor} {t : Token} {ts : List Token} (h : c.rest = t :: ts) :
    c.advance = { c with rest := ts, last := some t } := by
  unfold advance
  rw [h]

theorem looksAt_cons {c : Cursor} {t : Token} {ts : List Token} (h : c.rest = t :: ts)
    (kind : Token.Kind) (text : String) : c.looksAt kind text = t.is kind text := by
  unfold looksAt
  rw [h]

/-- A cursor that looks at a token has one ahead. -/
theorem exists_of_looksAt {c : Cursor} {kind : Token.Kind} {text : String}
    (h : c.looksAt kind text) : ∃ t ts, c.rest = t :: ts ∧ t.is kind text := by
  cases hr : c.rest with
  | nil => simp [looksAt, hr] at h
  | cons t ts =>
    rw [looksAt_cons hr] at h
    exact ⟨t, ts, rfl, h⟩

end Cursor

namespace Parse

theorem bind_apply {α β : Type} (p : Parse α) (f : α → Parse β) (c : Cursor) :
    (p >>= f) c = f (p c).1 (p c).2 := rfl

theorem map_apply {α β : Type} (f : α → β) (p : Parse α) (c : Cursor) :
    (f <$> p) c = (f (p c).1, (p c).2) := rfl

theorem peek_cons {c : Cursor} {t : Token} {ts : List Token} (h : c.rest = t :: ts) :
    peek c = (some t, c) := by
  simp [peek, h]

theorem accept_cons {c : Cursor} {t : Token} {ts : List Token} (h : c.rest = t :: ts)
    {kind : Token.Kind} {text : String} (ht : t.is kind text) :
    accept kind text c = (true, c.advance) := by
  unfold accept
  rw [Cursor.looksAt_cons h, if_pos ht]

theorem collectUntil_nil {α : Type} (stop : Token → Bool) (item : Parse (Option α)) {c : Cursor}
    (h : c.rest = []) : collectUntil stop item c = ([], c) := by
  unfold collectUntil
  rw [collectUntil.go, h]

theorem collectUntil_stop {α : Type} {stop : Token → Bool} (item : Parse (Option α)) {c : Cursor}
    {t : Token} {ts : List Token} (h : c.rest = t :: ts) (ht : stop t) :
    collectUntil stop item c = ([], c) := by
  unfold collectUntil
  rw [collectUntil.go]
  simp only [h, if_pos ht]

theorem collectUntil_step {α : Type} {stop : Token → Bool} {item : Parse (Option α)} {c c' : Cursor}
    {t : Token} {ts : List Token} {found : Option α} (h : c.rest = t :: ts) (ht : stop t = false)
    (hitem : item c = (found, c')) (shorter : c'.rest.length < c.rest.length) :
    collectUntil stop item c = ((found.toList ++ ·) <$> collectUntil stop item) c' := by
  rw [map_apply]
  unfold collectUntil
  rw [collectUntil.go]
  rw [h] at shorter
  simp only [h, ht, hitem, shorter, if_true, Bool.false_eq_true, if_false]

/-- An operator of some level is spelled as its symbol. -/
theorem operatorOf_some {level : Nat} {t : Token} {o : BinOp} (h : operatorOf level t = some o) :
    t.kind = .operator ∧ t.spelling = o.symbol ∧ o.precedence = level := by
  unfold operatorOf at h
  split at h
  · next hk =>
    obtain ⟨found, hlevel⟩ := Option.filter_eq_some_iff.mp h
    exact ⟨hk, BinOp.ofSymbol?_eq_some_iff.mp found, by simpa using hlevel⟩
  · simp at h

/-- What `p` leaves behind when it starts at `c`, its result and the cursor,
satisfies `post`. -/
def Ensures {α : Type} (p : Parse α) (c : Cursor) (post : α → Cursor → Prop) : Prop :=
  post (p c).1 (p c).2

namespace Ensures

variable {α β : Type} {c : Cursor}

theorem mono {p : Parse α} {post post' : α → Cursor → Prop} (h : Ensures p c post)
    (imp : ∀ a c', post a c' → post' a c') : Ensures p c post' :=
  imp _ _ h

/-- A step whose outcome does not matter. -/
theorem any (p : Parse α) (c : Cursor) : Ensures p c fun _ _ => True :=
  trivial

theorem pure {a : α} {post : α → Cursor → Prop} (h : post a c) :
    Ensures (Pure.pure a) c post :=
  h

theorem bind {p : Parse α} {f : α → Parse β} {mid : α → Cursor → Prop}
    {post : β → Cursor → Prop} (hp : Ensures p c mid)
    (hf : ∀ a c', mid a c' → Ensures (f a) c' post) : Ensures (p >>= f) c post :=
  hf _ _ hp

theorem map {p : Parse α} {f : α → β} {mid : α → Cursor → Prop} {post : β → Cursor → Prop}
    (hp : Ensures p c mid) (imp : ∀ a c', mid a c' → post (f a) c') :
    Ensures (f <$> p) c post :=
  imp _ _ hp

theorem bind_map {γ : Type} {p : Parse α} {f : α → β} {g : β → Parse γ}
    {mid : α → Cursor → Prop} {post : γ → Cursor → Prop} (hp : Ensures p c mid)
    (hg : ∀ a c', mid a c' → Ensures (g (f a)) c' post) : Ensures (f <$> p >>= g) c post :=
  hg _ _ hp

theorem of_eq {p q : Parse α} {post : α → Cursor → Prop} (h : p c = q c) (hq : Ensures q c post) :
    Ensures p c post := by
  unfold Ensures
  rw [h]
  exact hq

/-- The next step of a parser whose outcome is known. -/
theorem bind_eq {p : Parse α} {f : α → Parse β} {a : α} {c' : Cursor}
    {post : β → Cursor → Prop} (hp : p c = (a, c')) (hf : Ensures (f a) c' post) :
    Ensures (p >>= f) c post := by
  show Ensures (f (p c).1) (p c).2 post
  rw [hp]
  exact hf

/-- Looking at the current token leaves two cases: there is none, or it heads
the tokens ahead. -/
theorem peek {f : Option Token → Parse β} {post : β → Cursor → Prop}
    (none : c.rest = [] → Ensures (f none) c post)
    (some : ∀ t ts, c.rest = t :: ts → Ensures (f (some t)) c post) :
    Ensures (Parse.peek >>= f) c post := by
  cases h : c.rest with
  | nil => exact bind_eq (by simp [Parse.peek, h]) (none h)
  | cons t ts => exact bind_eq (peek_cons h) (some t ts h)

/-- Inside a level the cursor differs by its counter alone. -/
theorem nested {p : Parse α} {post : α → Cursor → Prop}
    (h : Ensures p { c with depth := c.depth + 1 } fun a c' =>
      post a { c' with depth := c'.depth - 1 }) : Ensures (Parse.nested p) c post :=
  h

end Ensures

end Parse

theorem parseTokens_tree (tokens : List Token) :
    (parseTokens tokens).tree = (Parse.program (Cursor.ofTokens tokens [])).1 := rfl

theorem parseTokens_diagnostics (tokens : List Token) :
    (parseTokens tokens).diagnostics = (Parse.program (Cursor.ofTokens tokens [])).2.diagnostics := rfl

end MiniC
