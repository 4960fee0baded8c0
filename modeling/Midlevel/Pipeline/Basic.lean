import Midlevel.Cache
import Midlevel.Diagnostic
import Midlevel.Pass.Basic
import Midlevel.Timing
import Midlevel.Trace.Traced

/-!
What runs of the pipeline are made of: the stages an input goes through, what is told of its
progress, and what comes out of it.
-/

namespace Midlevel.Pipeline

open Trace Timing

inductive Stage where
  | load
  | generate
  | optimise
  | lower
  deriving DecidableEq

def Stage.name : Stage → Text
  | load => "load"
  | generate => "generate"
  | optimise => "optimise"
  | lower => "lower"

def Stage.all : List Stage := [load, generate, optimise, lower]

inductive Status where
  | queued
  | working
  | cached
  | done
  | error
  deriving DecidableEq

def Status.name : Status → Text
  | queued => "queued"
  | working => "working"
  | cached => "cached"
  | done => "done"
  | error => "error"

def Status.all : List Status := [queued, working, cached, done, error]

structure Event where
  input : Text
  stage : Stage
  status : Status
  deriving DecidableEq

structure Options where
  level : Pass.Level
  disabled : List Text := []
  verify : Bool := true
  library : Bool := false
  target : Target
  store : Option Cache.Store := none
  /-- Compile what is cached once more, and compare. -/
  checkReproducible : Bool := false
  listing : Bool := false

inductive Problem where
  | error (e : Error)
  | cache (f : Cache.Failure)

def Problem.toError : Problem → Error
  | error e => e
  | cache f => .plain f.message

structure Result where
  input : Text
  module : Text := []
  dump : Text := []
  listing : Text := []
  stats : Pass.Stats := {}
  cached : Bool := false
  problem : Option Problem := none

def Result.diagnostic? (r : Result) : Option Diagnostic :=
  r.problem.map fun p => .ofError { input := r.input } p.toError

structure Observers where
  tracer : Tracer := .off
  timer : Option Timer := none
  events : List Event := []
  /-- An event at which whoever listens fails, once, and how. -/
  trap : Option (Event × Crash) := none

namespace Observers

variable (o : Observers)

def tell (e : Event) : Option Crash × Observers :=
  let o := { o with events := e :: o.events }
  match o.trap with
  | some (at_, crash) => if e = at_ then (some crash, { o with trap := none }) else (none, o)
  | none => (none, o)

def startPhase (name : Text) : Int × Observers :=
  match o.timer with
  | none => (-1, o)
  | some t => ((t.start name).1, { o with timer := some (t.start name).2 })

def stopPhase (handle : Int) (note : Text) : Observers :=
  { o with timer := o.timer.map (·.stop handle note) }

end Observers

end Midlevel.Pipeline
