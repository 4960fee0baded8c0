import Midlevel.Files.Basic
import Midlevel.Trace.Tracer

/-!
Where the stream of a tracer goes.
-/

namespace Midlevel.Trace

inductive Sink where
  | stderr
  | stdout
  | file (path : Text)
  deriving DecidableEq

/-- A path of no text and a hyphen mean the standard error. -/
def Sink.ofPath (path : Text) : Sink := if path = [] ∨ path = "-" then .stderr else .file path

def Sink.path : Sink → Text
  | file p => p
  | stderr | stdout => []

structure Config where
  level : Level := .off
  mode : Mode := .stream
  format : Format := .text
  sink : Sink := .stderr
  ring : Int := 0
  deriving DecidableEq

namespace Config

variable (c : Config)

def tracer : Tracer := .ofConfig c.level c.mode c.format c.sink.path c.ring

variable {m : Type → Type} [Monad m] [Files m]

def file? : Option Text :=
  match c.tracer.stream, c.sink with
  | some _, .file p => some p
  | _, _ => none

def start : m (Except Error Tracer) := do
  match c.file? with
  | none => return .ok c.tracer
  | some p =>
    match ← Files.write p [] with
    | .ok _ => return .ok c.tracer
    | .error e => return .error (.within "open trace output" e.toError)

/-- Writes the stream to its file. Nothing is said of failures, so that tracing fails no
compilation. -/
def save (t : Tracer) : m Unit := do
  match c.file? with
  | none => return ()
  | some p => discard (Files.write p t.streamed)

end Config

end Midlevel.Trace
