/-
# Drawing again draws the same

Drawing changes the viewer that it draws: it brings the offset of each pane back to its
page and notes how high a page is. Keys move the offsets without a look at the rows,
and a switch or a reload changes the rows under them, so in between an offset may point
anywhere. Right after drawing it stands on its page (`OnPage`). The one exception is the
output pane, which keeps its offset while there is no output to show.

From there on drawing has nothing left to change. The viewer is drawn again and again while
it waits for a key, and as long as the screen keeps its size all these frames are the same
and leave it as it is (`draw_draw`). So the frames that a session shows after its keys do
not depend on how often it was drawn while waiting for them (`framesAfter_waiting`).
Only the first frame after a change of the size does something: it moves the offsets
and notes the new height of a page.

None of this depends on how a terminal divides its screen or draws on it. The statements
are about every terminal whose screens are values of its operations.

Key definitions: `OnPage`, `Viewer.rows`, `Viewer.visibleRows`, `Session.Settled`, `busy`,
`keyFrames`.
Key theorems: `Viewer.draw_onPage`, `Viewer.draw_draw`, `Session.framesAfter_waiting`,
`redraw_settles`.
-/
import MiniC.Proofs.Viewer.Work

namespace MiniC

/-! ### Offsets on their pages -/

/-- A window of `visible` rows at this offset does not reach below the last of `rows` rows,
and starts at the first one if it shows them all. -/
def OnPage (rows visible offset : Nat) : Prop :=
  offset ≤ rows - visible ∧ (rows ≤ visible → offset = 0)

theorem clampOffset_onPage (rows visible offset : Nat) :
    OnPage rows visible (clampOffset rows visible offset) := by
  unfold clampOffset
  split
  · next more => exact ⟨Nat.min_le_right _ _, fun all => absurd more (Nat.not_lt_of_le all)⟩
  · exact ⟨Nat.zero_le _, fun _ => rfl⟩

theorem clampOffset_of_onPage {rows visible offset : Nat} (h : OnPage rows visible offset) :
    clampOffset rows visible offset = offset := by
  unfold clampOffset
  split
  · exact Nat.min_eq_left h.1
  · next all => exact (h.2 (Nat.le_of_not_lt all)).symm

theorem clampOffset_clampOffset (rows visible offset : Nat) :
    clampOffset rows visible (clampOffset rows visible offset) = clampOffset rows visible offset :=
  clampOffset_of_onPage (clampOffset_onPage rows visible offset)

/-! ### Single panes

A pane clamps its offset before it draws, so it draws the same where that was done before. -/

section Panes

variable {σ : Type} [Terminal σ] (s : σ) (a : Area) (focused : Bool) (offset : Nat)

theorem drawSource_clamped (source : String) (marked : List Nat) :
    drawSource s a focused source marked
        (clampOffset (Text.lines source).length (visibleHeight a) offset) =
      drawSource s a focused source marked offset := by
  unfold drawSource
  dsimp only
  rw [clampOffset_clampOffset]

theorem drawTokens_clamped (tokens : List Token) :
    drawTokens s a focused tokens (clampOffset tokens.length (visibleHeight a) offset) =
      drawTokens s a focused tokens offset := by
  unfold drawTokens
  dsimp only
  rw [clampOffset_clampOffset]

theorem drawTree_clamped (root : Node) :
    drawTree s a focused root (clampOffset (treeRows root).length (visibleHeight a) offset) =
      drawTree s a focused root offset := by
  unfold drawTree
  dsimp only
  rw [clampOffset_clampOffset]

/-- The offset of the output pane after drawing it. -/
def outputOffset (output : String) (visible offset : Nat) : Nat :=
  if output = "" then offset else clampOffset (Text.lines output).length visible offset

theorem drawOutput_offset (output : String) (dialect : Dialect) :
    (drawOutput s a focused output dialect offset).2 =
      outputOffset output (visibleHeight a) offset := by
  unfold drawOutput outputOffset
  split
  · rfl
  · rfl

theorem drawOutput_clamped (output : String) (dialect : Dialect) :
    drawOutput s a focused output dialect (outputOffset output (visibleHeight a) offset) =
      drawOutput s a focused output dialect offset := by
  unfold drawOutput outputOffset
  split
  · rfl
  · dsimp only
    rw [clampOffset_clampOffset]

end Panes

/-- The offset of one pane. -/
def Offsets.get (o : Offsets) : Pane → Nat
  | .source => o.source
  | .tokens => o.tokens
  | .tree => o.tree
  | .output => o.output

namespace Viewer

variable (σ : Type) [Terminal σ]

/-- The rows that a pane has to show. -/
def rows (v : Viewer) : Pane → Nat
  | .source => (Text.lines v.source).length
  | .tokens => v.run.tokens.length
  | .tree => (treeRows v.run.tree).length
  | .output => (Text.lines v.run.output).length

/-- The areas of the panes on a screen of this size. -/
def panesOf (width height : Nat) : Panes := panes σ (Terminal.area (Terminal.blank width height : σ))

/-- The rows of a pane that can be seen at a time. -/
def visibleRows (width height : Nat) (pane : Pane) : Nat :=
  let p := panesOf σ width height
  visibleHeight <|
    match pane with
    | .source => p.source
    | .tokens => p.tokens
    | .tree => p.tree
    | .output => p.output

/-- What drawing makes of the offsets. -/
def settledOffsets (v : Viewer) (p : Panes) : Offsets where
  source := clampOffset (Text.lines v.source).length (visibleHeight p.source) v.offsets.source
  tokens := clampOffset v.run.tokens.length (visibleHeight p.tokens) v.offsets.tokens
  tree := clampOffset (treeRows v.run.tree).length (visibleHeight p.tree) v.offsets.tree
  output := outputOffset v.run.output (visibleHeight p.output) v.offsets.output

theorem draw_snd (v : Viewer) (width height : Nat) :
    (v.draw width height : σ × Viewer).2 =
      { v with
        offsets := v.settledOffsets (panesOf σ width height)
        pageHeight := visibleHeight (panesOf σ width height).tokens } := by
  unfold draw
  dsimp only
  rw [drawOutput_offset]
  rfl

/-- Drawing clamps the offset of each pane that has rows to show. -/
theorem draw_offset (v : Viewer) (width height : Nat) {pane : Pane}
    (shown : pane = .output → v.run.output ≠ "") :
    (v.draw width height : σ × Viewer).2.offsets.get pane =
      clampOffset (v.rows pane) (visibleRows σ width height pane) (v.offsets.get pane) := by
  rw [draw_snd]
  cases pane with
  | source | tokens | tree => rfl
  | output => exact if_neg (shown rfl)

theorem draw_rows (v : Viewer) (width height : Nat) (pane : Pane) :
    (v.draw width height : σ × Viewer).2.rows pane = v.rows pane := by
  cases pane <;> rfl

/-- **After drawing, offsets stand on their pages.** -/
theorem draw_onPage (v : Viewer) (width height : Nat) {pane : Pane}
    (shown : pane = .output → v.run.output ≠ "") :
    OnPage ((v.draw width height : σ × Viewer).2.rows pane) (visibleRows σ width height pane)
      ((v.draw width height : σ × Viewer).2.offsets.get pane) := by
  rw [v.draw_offset σ width height shown, draw_rows]
  exact clampOffset_onPage _ _ _

/-- **Drawing again** gives the same frame and the same viewer. -/
theorem draw_draw (v : Viewer) (width height : Nat) :
    (v.draw width height : σ × Viewer).2.draw width height = (v.draw width height : σ × Viewer) := by
  rw [draw_snd]
  unfold draw
  simp only [settledOffsets, panesOf, drawSource_clamped, drawTokens_clamped, drawOutput_clamped,
    drawTree_clamped]

end Viewer

/-! ### Sessions -/

namespace Event

/-- Nothing happens but that time passes. -/
def isIdle : Event → Bool
  | .idle => true
  | _ => false

def isResize : Event → Bool
  | .resize .. => true
  | _ => false

end Event

/-- The events without those at which the viewer is only drawn again at the size it was
drawn at before; `resized` tells whether the size has changed since then. -/
def busy (resized : Bool) : List Event → List Event
  | [] => []
  | .idle :: events => if resized then .idle :: busy false events else busy false events
  | .press key :: events => .press key :: busy false events
  | .resize width height :: events => .resize width height :: busy true events
  | .write text :: events => .write text :: busy resized events
  | .remove :: events => .remove :: busy resized events

/-- While the size stays as it is, these are all idle events. -/
theorem busy_of_noResize {events : List Event} (h : ∀ event ∈ events, event.isResize = false) :
    busy false events = events.filter (!·.isIdle) := by
  induction events with
  | nil => rfl
  | cons event events ih =>
    obtain ⟨first, later⟩ := List.forall_mem_cons.mp h
    cases event with
    | resize => cases first
    | idle => exact ih later
    | press | write | remove => exact congrArg (_ :: ·) (ih later)

/-- The frames drawn after keys, among those drawn for a row of events. -/
def keyFrames {σ : Type} : List Event → List σ → List σ
  | [], _ => []
  | .press _ :: events, frames => frames.take 1 ++ keyFrames events frames.tail
  | .idle :: events, frames => keyFrames events frames.tail
  | .write _ :: events, frames => keyFrames events frames
  | .remove :: events, frames => keyFrames events frames
  | .resize .. :: events, frames => keyFrames events frames

theorem keyFrames_nil {σ : Type} (events : List Event) : keyFrames events ([] : List σ) = [] := by
  induction events with
  | nil => rfl
  | cons event events ih => cases event <;> exact ih

namespace Session

variable {σ : Type} [Terminal σ] {width height : Nat} {s : Session}

/-- Drawing the session leaves it as it is. -/
def Settled (σ : Type) [Terminal σ] (width height : Nat) (s : Session) : Prop :=
  (s.draw width height : σ × Session).2 = s

theorem draw_settled (width height : Nat) (s : Session) :
    (s.draw width height : σ × Session).2.Settled σ width height := by
  show Session.mk ((s.viewer.draw width height : σ × Viewer).2.draw width height : σ × Viewer).2 s.file =
    Session.mk (s.viewer.draw width height : σ × Viewer).2 s.file
  rw [Viewer.draw_draw]

/-- A change of the file is not seen until a reload. -/
theorem Settled.file (h : s.Settled σ width height) (file : Option String) :
    Settled σ width height { s with file } := by
  have viewer : (s.viewer.draw width height : σ × Viewer).2 = s.viewer := congrArg Session.viewer h
  exact congrArg (Session.mk · file) viewer

/-- Where nothing is idle, all frames are drawn after keys. -/
theorem keyFrames_framesAfter {events : List Event} (h : ∀ event ∈ events, event.isIdle = false) :
    keyFrames events (framesAfter width height s events : List σ × Session).1 =
      (framesAfter width height s events).1 := by
  induction events generalizing width height s with
  | nil => rfl
  | cons event events ih =>
    obtain ⟨first, later⟩ := List.forall_mem_cons.mp h
    by_cases quit : s.viewer.quit = true
    · rw [framesAfter_of_quit quit, keyFrames_nil]
    cases event with
    | idle => cases first
    | press key =>
      rw [framesAfter_press quit]
      exact congrArg (_ :: ·) (ih later)
    | write text => rw [framesAfter_write quit]; exact ih later
    | remove => rw [framesAfter_remove quit]; exact ih later
    | resize width' height' => rw [framesAfter_resize quit]; exact ih later

/-- **Waiting is not seen**: without the events at which it is only drawn again, a session
shows the same frames after its keys and ends the same. -/
theorem framesAfter_waiting {resized : Bool} (settled : resized = false → s.Settled σ width height)
    (events : List Event) :
    let shown : List σ × Session := framesAfter width height s events
    let less : List σ × Session := framesAfter width height s (busy resized events)
    keyFrames events shown.1 = keyFrames (busy resized events) less.1 ∧ shown.2 = less.2 := by
  dsimp only
  induction events generalizing width height s resized with
  | nil => exact ⟨rfl, rfl⟩
  | cons event events ih =>
    by_cases quit : s.viewer.quit = true
    · rw [framesAfter_of_quit quit, framesAfter_of_quit quit, keyFrames_nil, keyFrames_nil]
      exact ⟨rfl, rfl⟩
    cases event with
    | press key =>
      have drawn : false = false → Settled σ width height ((s.step (.press key)).draw width height : σ × Session).2 :=
        fun _ => draw_settled width height _
      obtain ⟨frames, ends⟩ := ih drawn
      rw [busy, framesAfter_press quit, framesAfter_press quit]
      exact ⟨congrArg (_ :: ·) frames, ends⟩
    | idle =>
      cases resized with
      | true =>
        rw [busy, if_pos rfl, framesAfter_idle quit, framesAfter_idle quit]
        exact ih fun _ => draw_settled width height s
      | false =>
        -- the frame is drawn once more, and the session is as before
        rw [busy, if_neg Bool.false_ne_true, framesAfter_idle quit, settled rfl]
        exact ih settled
    | write text =>
      rw [busy, framesAfter_write quit, framesAfter_write quit]
      exact ih fun same => (settled same).file (some text)
    | remove =>
      rw [busy, framesAfter_remove quit, framesAfter_remove quit]
      exact ih fun same => (settled same).file none
    | resize width' height' =>
      -- nothing is known of the session at the new size until it is drawn
      rw [busy, framesAfter_resize quit, framesAfter_resize quit]
      exact ih fun changed => by cases changed

end Session

open Viewer in
/-- **Drawing settles**, on every terminal. After drawing, the offset of a pane stands on its page,
and it has moved only if it did not. Drawing again gives the same frame and the same viewer. So
a session shows the same frames after its keys, and ends the same, as it does without the events
at which it is only drawn again; while the size stays as it is, these are all idle events. -/
theorem redraw_settles (σ : Type) [Terminal σ] (width height : Nat) :
    (∀ v : Viewer,
      let drawn : Viewer := (v.draw width height : σ × Viewer).2
      (∀ pane, (pane = .output → v.run.output ≠ "") →
        OnPage (drawn.rows pane) (visibleRows σ width height pane) (drawn.offsets.get pane) ∧
        (OnPage (v.rows pane) (visibleRows σ width height pane) (v.offsets.get pane) →
          drawn.offsets.get pane = v.offsets.get pane)) ∧
      drawn.draw width height = (v.draw width height : σ × Viewer)) ∧
    ∀ (s : Session) (events : List Event),
      let shown : List σ × Session := s.frames width height events
      let less : List σ × Session := s.frames width height (busy false events)
      shown.1.head? = less.1.head? ∧
      keyFrames events shown.1.tail = keyFrames (busy false events) less.1.tail ∧
      shown.2 = less.2 ∧
      ((∀ event ∈ events, event.isResize = false) →
        busy false events = events.filter (!·.isIdle) ∧
        keyFrames (busy false events) less.1.tail = less.1.tail) := by
  refine ⟨fun v => ⟨fun pane shown => ⟨v.draw_onPage σ width height shown, fun before => ?_⟩,
    v.draw_draw σ width height⟩, fun s events => ⟨rfl, ?_⟩⟩
  · rw [v.draw_offset σ width height shown]
    exact clampOffset_of_onPage before
  · have settled : false = false → (s.draw width height : σ × Session).2.Settled σ width height :=
      fun _ => s.draw_settled width height
    obtain ⟨frames, ends⟩ := Session.framesAfter_waiting settled events
    refine ⟨frames, ends, fun steady => ?_⟩
    have noIdle : ∀ event ∈ busy false events, event.isIdle = false := by
      rw [busy_of_noResize steady]
      intro event member
      simpa using (List.mem_filter.mp member).2
    exact ⟨busy_of_noResize steady, Session.keyFrames_framesAfter noIdle⟩

/-- Two rows of output, scrolled down by three. -/
def scrolledOutput : Viewer :=
  [Key.tab, .down, .down, .down].foldl (·.press (.error "")) (.start "x.c" "x = 1;\ny = 2;" .python)

/-- Where one row can be seen, the output comes back to its second row and stays there. -/
theorem redraw_settles_scrolledOutput :
    let drawn : Screen × Viewer := scrolledOutput.draw 40 6
    scrolledOutput.run.output ≠ "" ∧ scrolledOutput.offsets.get .output = 3 ∧
      drawn.2.offsets.get .output = 1 ∧
      OnPage (drawn.2.rows .output) (Viewer.visibleRows Screen 40 6 .output) (drawn.2.offsets.get .output) ∧
      drawn.2.draw 40 6 = drawn := by
  have shown : scrolledOutput.run.output ≠ "" := by decide +kernel
  obtain ⟨panes, again⟩ := (redraw_settles Screen 40 6).1 scrolledOutput
  exact ⟨shown, by decide +kernel, by decide +kernel, (panes .output fun _ => shown).1, again⟩

end MiniC
