import Midlevel.CommandLine.Flag
import Midlevel.CommandLine.Profile
import Midlevel.Config.File

/-!
Sessions: what every command finds when it starts and leaves behind when it ends, whether it failed
or not. The settings come from a file and from flags, which count for more; a tracer and profiles
run as long as the command does.
-/

namespace Midlevel.CommandLine

structure Console where
  out : Text := []
  err : Text := []
  deriving DecidableEq

namespace Console

def print (c : Console) (t : Text) : Console := { c with out := c.out ++ t }

def complain (c : Console) (t : Text) : Console := { c with err := c.err ++ t }

end Console

structure Session where
  console : Console := {}
  given : Given := []
  settings : Config.Settings := {}
  coloured : Bool := false
  watched : Bool := false
  tracing : Trace.Config := {}
  tracer : Trace.Tracer := .off
  profiles : Profiles := {}

abbrev InSession (m : Type → Type) := ExceptT Error (StateT Session m)

namespace Session

variable {m : Type → Type} [Monad m] [Files m] {α : Type}

/-! ### Output -/

def print (t : Text) : InSession m Unit := modify fun s => { s with console := s.console.print t }

def complain (t : Text) : InSession m Unit :=
  modify fun s => { s with console := s.console.complain t }

def onFiles (x : m α) : InSession m α := ExceptT.lift (StateT.lift x)

def need (r : Except Error α) : InSession m α :=
  match r with
  | .ok a => pure a
  | .error e => throw e

/-! ### Opening -/

def colouring (said : Text) (watched : Bool) : Except Error Bool :=
  if said.isKeyword "on" then .ok true
  else if said.isKeyword "off" then .ok false
  else if said.isKeyword "auto" ∨ said = [] then .ok watched
  else .error (.plain ("invalid --color value " ++ said.quote ++ " (expected auto|on|off)"))

def loadSettings (g : Given) : m (Except Config.Failure Config.Settings) := do
  match (g.text? "config").getD [] with
  | [] => Config.discover (← Files.workingDir)
  | path => Config.load path

/-- The settings with what flags say of tracing. Where to trace to, and nothing else, asks for the
phases. -/
def withTraceFlags (g : Given) (s : Config.Settings) : Config.Settings :=
  let trace := s.trace
  let output := (g.text? "trace").getD trace.output
  let level := (g.text? "trace-level").getD trace.level
  { s with trace := { trace with
      output := if output = "-" then "stderr" else output
      level := if g.has "trace" ∧ ¬ g.has "trace-level" ∧ level = "off" then "phase" else level
      mode := (g.text? "trace-mode").getD trace.mode
      format := (g.text? "trace-format").getD trace.format } }

def textError (r : Except Text α) : Except Error α := r.mapError .plain

def checked (s : Config.Settings) : Except Error Config.Settings :=
  match s.invalid? with
  | some e => .error e
  | none => .ok s

def start (g : Given) : InSession m Unit := do
  let coloured ← need (colouring ((g.text? "color").getD "auto") (← get).watched)
  let loaded ← onFiles (loadSettings g)
  let settings ← need (loaded.mapError (·.toError))
  let settings ← need (checked (withTraceFlags g settings))
  let tracing ← need (textError settings.tracing)
  modify fun s => { s with given := g, coloured, settings }
  match ← onFiles tracing.start with
  | .error e => throw (.within "failed to create tracer" e)
  | .ok tracer => modify fun s => { s with tracing, tracer }
  let profiles : Profiles :=
    { cpu := (g.text? "cpuprofile").getD [], execution := (g.text? "exectrace").getD []
      heap := (g.text? "memprofile").getD [] }
  need (← onFiles profiles.start)
  modify fun s => { s with profiles }

def close : StateT Session m Unit := do
  let s ← get
  match ← StateT.lift s.profiles.stop with
  | .ok _ => pure ()
  | .error e =>
    modify fun s => { s with console := s.console.complain ("profile: " ++ e.message ++ "\n") }
  StateT.lift (s.tracing.save s.tracer)

end Session

end Midlevel.CommandLine
