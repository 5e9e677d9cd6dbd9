/-
# The viewer shows a run on its source

The viewer holds a source, a dialect and a run with four parts that hang together. Two
keys change the run, in different ways: a reload puts a whole new run in its place,
and a switch of the dialect only writes the output again, from the tree that is there.
Nevertheless the run is at all times the run on the source in the dialect that the
viewer holds (`Viewer.Current`), whatever keys are pressed, however often the viewer is
drawn, on whatever terminal, and however the file changes in between. A session is such a
row of moves (`Session.framesAfter_moves`), so the same is true where a session ends.

Key definitions: `Viewer.Current`, `Viewer.SameWork`, `Viewer.Move`, `Viewer.after`.
Key theorems: `Viewer.press_sameWork`, `Viewer.Current.press`, `Viewer.Current.after`,
`Session.framesAfter_moves`, `viewer_current`.
-/
import MiniC.View.Session

namespace MiniC

namespace Key

/-- The key switches the dialect. -/
def switches (key : Key) : Bool := key = .char 'd' || key = .char 'D'

/-- The key reloads the file. -/
def reloads (key : Key) : Bool := key = .char 'r' || key = .char 'R'

end Key

namespace Viewer

variable (σ : Type) [Terminal σ]

/-- The run that the viewer shows is that on its source, in its dialect. -/
def Current (v : Viewer) : Prop := v.run = MiniC.run v.source v.dialect

/-- The viewers hold the same source, dialect and run. -/
def SameWork (v w : Viewer) : Prop := w.source = v.source ∧ w.dialect = v.dialect ∧ w.run = v.run

/-- What can happen around a viewer: a key is pressed, the viewer is drawn, or the file
changes, so that reading it gives `reading` from then on. -/
inductive Move where
  | press (key : Key)
  | draw (width height : Nat)
  | change (reading : Except String String)

/-- The viewer after some moves on a terminal, where reading the file gives `reading` at
first. -/
def after (v : Viewer) (reading : Except String String) : List Move → Viewer
  | [] => v
  | .press key :: moves => (v.press reading key).after reading moves
  | .draw width height :: moves => (v.draw width height : σ × Viewer).2.after reading moves
  | .change reading :: moves => v.after reading moves

theorem SameWork.current {v w : Viewer} (same : v.SameWork w) (h : v.Current) : w.Current := by
  obtain ⟨source, dialect, run⟩ := same
  rw [Current, source, dialect, run]
  exact h

/-! ### Single moves -/

theorem press_of_switches (v : Viewer) (reading : Except String String) {key : Key} (h : key.switches) :
    v.press reading key = v.switchDialect := by
  obtain rfl | rfl : key = .char 'd' ∨ key = .char 'D' := by simpa [Key.switches] using h
  · rfl
  · rfl

theorem press_of_reloads (v : Viewer) (reading : Except String String) {key : Key} (h : key.reloads) :
    v.press reading key = v.reload reading := by
  obtain rfl | rfl : key = .char 'r' ∨ key = .char 'R' := by simpa [Key.reloads] using h
  · rfl
  · rfl

/-- All other keys leave source, dialect and run alone. -/
theorem press_sameWork (v : Viewer) (reading : Except String String) {key : Key} (stays : key.switches = false)
    (keeps : key.reloads = false) : v.SameWork (v.press reading key) := by
  unfold press
  split
  -- the four keys that are excluded
  case h_11 | h_12 => cases stays
  case h_13 | h_14 => cases keeps
  all_goals exact ⟨rfl, rfl, rfl⟩

/-- Drawing leaves all but the offsets and the height of a page alone. -/
theorem draw_sameWork (v : Viewer) (width height : Nat) : v.SameWork (v.draw width height : σ × Viewer).2 :=
  ⟨rfl, rfl, rfl⟩

/-- The output in the other dialect is that of a run in it, since no other part of a run
depends on the dialect. -/
theorem Current.switchDialect {v : Viewer} (h : v.Current) : v.switchDialect.Current := by
  show { v.run with output := emit v.dialect.toggle v.run.tree } = MiniC.run v.source v.dialect.toggle
  rw [h]
  rfl

theorem Current.reload {v : Viewer} (h : v.Current) (reading : Except String String) :
    (v.reload reading).Current := by
  cases reading with
  | ok source => rfl
  | error reason => exact h

theorem Current.press {v : Viewer} (h : v.Current) (reading : Except String String) (key : Key) :
    (v.press reading key).Current := by
  by_cases switches : key.switches
  · rw [v.press_of_switches reading switches]
    exact h.switchDialect
  by_cases reloads : key.reloads
  · rw [v.press_of_reloads reading reloads]
    exact h.reload reading
  · exact (v.press_sameWork reading (by simpa using switches) (by simpa using reloads)).current h

/-! ### Whole runs of the viewer -/

theorem Current.after {v : Viewer} (h : v.Current) (reading : Except String String) (moves : List Move) :
    (v.after σ reading moves).Current := by
  induction moves generalizing v reading with
  | nil => exact h
  | cons move moves ih =>
    cases move with
    | press key => exact ih (h.press reading key) reading
    | draw width height => exact ih ((v.draw_sameWork σ width height).current h) reading
    | change reading' => exact ih h reading'

end Viewer

/-! ### Sessions -/

namespace Session

variable {σ : Type} [Terminal σ] {width height : Nat} {s : Session}

theorem framesAfter_of_quit (quit : s.viewer.quit = true) (events : List Event) :
    framesAfter width height s events = (([], s) : List σ × Session) := by
  cases events with
  | nil => rfl
  | cons event events => exact if_pos quit

section

variable (alive : ¬s.viewer.quit = true) (events : List Event)
include alive

/-- After a key the frame is drawn, and the rest follows. -/
theorem framesAfter_press (key : Key) :
    let drawn : σ × Session := (s.step (.press key)).draw width height
    let more := framesAfter width height drawn.2 events
    framesAfter width height s (.press key :: events) = (drawn.1 :: more.1, more.2) :=
  if_neg alive

theorem framesAfter_idle :
    let drawn : σ × Session := s.draw width height
    let more := framesAfter width height drawn.2 events
    framesAfter width height s (.idle :: events) = (drawn.1 :: more.1, more.2) :=
  if_neg alive

theorem framesAfter_write (text : String) :
    framesAfter width height s (.write text :: events) =
      (framesAfter width height { s with file := some text } events : List σ × Session) :=
  if_neg alive

theorem framesAfter_remove :
    framesAfter width height s (.remove :: events) =
      (framesAfter width height { s with file := none } events : List σ × Session) :=
  if_neg alive

theorem framesAfter_resize (width' height' : Nat) :
    framesAfter width height s (.resize width' height' :: events) =
      (framesAfter width' height' s events : List σ × Session) :=
  if_neg alive

end

variable (σ)

/-- The viewer of a session goes through keys, drawing and changes of the file only. -/
theorem framesAfter_moves (width height : Nat) (s : Session) (events : List Event) :
    ∃ moves, (framesAfter width height s events : List σ × Session).2.viewer = s.viewer.after σ s.read moves := by
  induction events generalizing width height s with
  | nil => exact ⟨[], rfl⟩
  | cons event events ih =>
    by_cases quit : s.viewer.quit = true
    · rw [framesAfter_of_quit quit]
      exact ⟨[], rfl⟩
    cases event with
    | press key =>
      obtain ⟨moves, viewer⟩ := ih width height ((s.step (.press key)).draw width height : σ × Session).2
      rw [framesAfter_press quit]
      exact ⟨.press key :: .draw width height :: moves, viewer⟩
    | idle =>
      obtain ⟨moves, viewer⟩ := ih width height (s.draw width height : σ × Session).2
      rw [framesAfter_idle quit]
      exact ⟨.draw width height :: moves, viewer⟩
    | write text =>
      obtain ⟨moves, viewer⟩ := ih width height { s with file := some text }
      rw [framesAfter_write quit]
      exact ⟨.change (.ok text) :: moves, viewer⟩
    | remove =>
      obtain ⟨moves, viewer⟩ := ih width height { s with file := none }
      rw [framesAfter_remove quit]
      exact ⟨.change (read { s with file := none }) :: moves, viewer⟩
    | resize width' height' =>
      rw [framesAfter_resize quit]
      exact ih width' height' s

theorem frames_current (width height : Nat) {s : Session} (h : s.viewer.Current) (events : List Event) :
    (s.frames width height events : List σ × Session).2.viewer.Current := by
  let drawn : σ × Session := s.draw width height
  obtain ⟨moves, viewer⟩ := framesAfter_moves σ width height drawn.2 events
  show (framesAfter width height drawn.2 events : List σ × Session).2.viewer.Current
  rw [viewer]
  exact ((s.viewer.draw_sameWork σ width height).current h).after σ _ moves

end Session

open Viewer in
/-- **The viewer shows a run on its source**, after any moves on any terminal, and each move
changes no more than it should. -/
theorem viewer_current (σ : Type) [Terminal σ] (path source : String) (dialect : Dialect)
    (reading : Except String String) (moves : List Move) :
    let v := (start path source dialect).after σ reading moves
    -- tokens, tree, output and diagnostics are those of a run
    v.run = run v.source v.dialect ∧
    -- a reload takes the text of the file, or else it changes nothing but the message
    (∀ key, key.reloads →
      (∀ text, (v.press (.ok text) key).source = text ∧ (v.press (.ok text) key).dialect = v.dialect) ∧
      ∀ reason, v.press (.error reason) key =
        { v with message := "Reload failed for '" ++ v.path ++ "': " ++ reason }) ∧
    -- a switch takes the other dialect
    (∀ key reading, key.switches →
      (v.press reading key).source = v.source ∧ (v.press reading key).dialect = v.dialect.toggle) ∧
    -- all other keys, and drawing, leave source, dialect and run alone
    (∀ key reading, key.switches = false → key.reloads = false → v.SameWork (v.press reading key)) ∧
    (∀ width height, v.SameWork (v.draw width height : σ × Viewer).2) ∧
    -- and so a session comes to such a viewer
    ∀ file width height events,
      ((Session.mk (start path source dialect) file).frames width height events : List σ × Session).2.viewer.Current := by
  intro v
  have fresh : (start path source dialect).Current := rfl
  refine ⟨fresh.after σ reading moves, fun key reloads => ?_, fun key reading switches => ?_,
    fun key reading stays keeps => v.press_sameWork reading stays keeps, v.draw_sameWork σ,
    fun file width height events => Session.frames_current σ width height fresh events⟩
  · exact ⟨fun text => by rw [v.press_of_reloads _ reloads]; exact ⟨rfl, rfl⟩,
      fun reason => v.press_of_reloads _ reloads⟩
  · rw [v.press_of_switches reading switches]
    exact ⟨rfl, rfl⟩

/-- A switch, a reload that fails, a second switch and a reload that does not fail. -/
def switchReload : List Viewer.Move :=
  [.press (.char 'd'), .press (.char 'r'), .draw 80 24, .press (.char 'D'), .change (.ok "int y;"),
    .press (.char 'R'), .draw 80 24]

theorem viewer_current_switchReload :
    let v := (Viewer.start "x.c" "int x;" .java).after Screen (.error "gone") switchReload
    v.source = "int y;" ∧ v.dialect = .java ∧ v.run = run "int y;" .java ∧
      (v.press (.error "gone") (.char 'r')).source = "int y;" ∧
      (v.press (.error "gone") (.char 'd')).dialect = .python ∧
      v.SameWork (v.press (.error "gone") .pageDown) := by
  intro v
  obtain ⟨current, reload, switch, others, _⟩ :=
    viewer_current Screen "x.c" "int x;" .java (.error "gone") switchReload
  refine ⟨rfl, rfl, current, ?_, (switch (.char 'd') (.error "gone") rfl).2,
    others .pageDown (.error "gone") rfl rfl⟩
  rw [(reload (.char 'r') rfl).2 "gone"]
  rfl

end MiniC
