/-
# Sessions with the viewer

A session is the viewer with the file it shows, and a row of events: keys, other
events of the terminal, changes of the file and of the screen's size. The viewer is
drawn at the start and after each event of the terminal, at the size that the screen has
then, until a key quits it.

Key definitions: `Session`, `Event`, `Session.step`, `Session.frames`.
-/
import MiniC.Screen.Frame
import MiniC.View.Viewer

namespace MiniC

/-- A viewer and the text of its file, if the file is there. -/
structure Session where
  viewer : Viewer
  file : Option String

/-- What can happen in a session. -/
inductive Event where
  | press (key : Key)
  | idle
  | write (text : String)
  | remove
  | resize (width height : Nat)

namespace Session

/-- What reading the file gives. -/
def read (s : Session) : Except String String :=
  match s.file with
  | some text => .ok text
  | none => .error "No such file or directory (os error 2)"

/-- The session after an event. -/
def step (s : Session) : Event → Session
  | .press key => { s with viewer := s.viewer.press s.read key }
  | .idle | .resize .. => s
  | .write text => { s with file := some text }
  | .remove => { s with file := none }

section
variable {σ : Type} [Terminal σ]

/-- The session after drawing, and what was drawn. -/
def draw (s : Session) (width height : Nat) : σ × Session :=
  let (screen, viewer) := s.viewer.draw width height
  (screen, { s with viewer })

/-- The frames drawn for a row of events, after the first one. -/
def framesAfter (width height : Nat) (s : Session) : List Event → List σ × Session
  | [] => ([], s)
  | event :: events =>
    if s.viewer.quit then ([], s)
    else
      match event with
      | .resize width height => framesAfter width height s events
      | .write _ | .remove => framesAfter width height (s.step event) events
      | .press _ | .idle =>
        let (frame, s) := (s.step event).draw width height
        let (frames, s) := framesAfter width height s events
        (frame :: frames, s)

/-- All frames of a session, and how it ends. -/
def frames (width height : Nat) (s : Session) (events : List Event) : List σ × Session :=
  let (frame, s) := s.draw width height
  let (frames, s) := framesAfter width height s events
  (frame :: frames, s)

end

end Session

end MiniC
