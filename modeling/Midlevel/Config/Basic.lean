import Midlevel.Layout.Basic
import Midlevel.Pass.Manager
import Midlevel.Trace.Output

/-!
The settings of a project. They are kept as they were written; what they mean is checked apart.
-/

namespace Midlevel.Config

structure Optimiser where
  level : Text := "high"
  disable : List Text := []
  verify : Bool := true
  deriving DecidableEq

structure Tracing where
  level : Text := "off"
  output : Text := "stderr"
  format : Text := "text"
  mode : Text := "stream"
  ringSize : Int := 4096
  deriving DecidableEq

structure Caching where
  enabled : Bool := false
  dir : Text := ".virc-cache"
  deriving DecidableEq

structure Building where
  jobs : Int := 0
  target : Text := Target.x86_64Linux.triple
  deriving DecidableEq

structure Settings where
  opt : Optimiser := {}
  trace : Tracing := {}
  cache : Caching := {}
  build : Building := {}
  path : Text := []
  deriving DecidableEq

namespace Settings

def wrongIn {α : Type} (place : Text) (parsed : Except Text α) : List Error :=
  match parsed with
  | .ok _ => []
  | .error reason => [.within place (.plain reason)]

def unknownPass (name : Text) : Error := .plain ("[opt] disable: unknown pass " ++ name.quote)

def wrongIf (wrong : Bool) (reason : Text) : List Error := if wrong then [.plain reason] else []

def invalid? (s : Settings) : Option Error :=
  let known := Pass.Manager.standard.passes.map (·.name)
  Error.join? (wrongIn "[opt] level" (Pass.Level.parse s.opt.level) ++
    (s.opt.disable.filter (!known.contains ·)).map unknownPass ++
    wrongIn "[trace] level" (Trace.Level.parse s.trace.level) ++
    wrongIn "[trace] format" (Trace.Format.parse s.trace.format) ++
    wrongIn "[trace] mode" (Trace.Mode.parse s.trace.mode) ++
    wrongIf (s.trace.ringSize < 0) "[trace] ring_size must not be negative" ++
    wrongIf (s.build.jobs < 0) "[build] jobs must not be negative" ++
    wrongIn "[build] target" (Target.parse s.build.target))

def sinkNamed (output : Text) : Trace.Sink :=
  if output = [] ∨ output = "stderr" then .stderr
  else if output = "stdout" then .stdout
  else .file output

def tracing (s : Settings) : Except Text Trace.Config := do
  let level ← Trace.Level.parse s.trace.level
  let format ← Trace.Format.parse s.trace.format
  let mode ← Trace.Mode.parse s.trace.mode
  return { level, mode, format, sink := sinkNamed s.trace.output, ring := s.trace.ringSize }

end Settings

end Midlevel.Config
