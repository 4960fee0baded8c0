import Midlevel.Ir.Verifier
import Midlevel.Pass.ControlFlow
import Midlevel.Pass.DeadCode
import Midlevel.Pass.DeadFunction
import Midlevel.Pass.Inline
import Midlevel.Timing
import Midlevel.Trace.Traced

/-!
Runs passes over a module in order. The module is verified after every pass; a pass that leaves it
invalid has broken an invariant.
-/

namespace Midlevel.Pass

open Ir Trace Timing

variable (pm : Manager)

structure Manager where
  functionPasses : List FunctionPass
  modulePasses : List ModulePass
  verify : Bool := true
  disabled : List Text := []

def Manager.standard : Manager where
  functionPasses := [libraryInline, deadCode, controlFlow]
  modulePasses := [deadFunctions]

structure PassInfo where
  name : Text
  minLevel : Level
  wholeModule : Bool
  deriving DecidableEq

def Manager.passes : List PassInfo :=
  pm.functionPasses.map (fun p => ⟨p.name, p.minLevel, false⟩) ++
    pm.modulePasses.map (fun p => ⟨p.name, p.minLevel, true⟩)

def Manager.enabled (name : Text) (minLevel level : Level) : Bool :=
  minLevel.code ≤ level.code && !pm.disabled.contains name

structure Run where
  work : Workspace
  tracer : Tracer := .off
  timer : Option Timer := none

instance : Traced Run where
  tracer := Run.tracer
  setTracer t r := { r with tracer := t }

abbrev Running := ExceptT Fault (StateM Run)

namespace Running

variable {α : Type}

def transform (x : Transform α) : Running α := do
  let r ← get
  let (outcome, work) := x.run.run r.work
  set { r with work }
  match outcome with
  | .ok a => return a
  | .error f => throw f

def startPhase (name : Text) : Running Int :=
  modifyGet fun r =>
    match r.timer with
    | none => (-1, r)
    | some t =>
      let (handle, t) := t.start name
      (handle, { r with timer := some t })

def stopPhase (handle : Int) (note : Text) : Running Unit :=
  modify fun r => { r with timer := r.timer.map (·.stop handle note) }

def module : Running Module := return (← get).work.builder.module

def stats : Running Stats := return (← get).work.stats

def onError (x : Running α) (cleanup : Running Unit) : Running α := do
  try x
  catch
    | .error e => do
      cleanup
      throw (.error e)
    | .crash c => throw (.crash c)

def finally_ (x : Running α) (cleanup : Running Unit) : Running α := do
  try
    let a ← x
    cleanup
    return a
  catch f =>
    cleanup
    throw f

end Running

open Running

/-- A module that fails verification after a pass is a broken invariant. -/
def checkAfter (pm : Manager) (pass : Text) : Running Unit := do
  if pm.verify then
    let m ← module
    match m.verify with
    | .error c => throw (.crash c)
    | .ok none => pure ()
    | .ok (some e) => throw (.crash (.invalidModule m.name pass e.message))

def onFunction (p : FunctionPass) (span : Span) (f : FuncId) : Running Unit := do
  let name := ((← module).funcs.get f).name
  let inner ← beginSpan .function ("fn:" ++ name) span.anchor
  onError (transform (p.run f)) (endSpan inner [])
  endSpan inner []

def naming (place : Text) (x : Running Unit) : Running Unit := do
  try x
  catch
    | .error e => throw (.error (.within place e))
    | .crash c => throw (.crash c)

def runFunctionPass (pm : Manager) (parent : Span) (p : FunctionPass) : Running Unit := do
  let span ← beginSpan .pass ("pass:" ++ p.name) parent.anchor
  let phase ← startPhase ("pass:" ++ p.name)
  let before ← stats
  (← module).order.forM fun f => do
    let fn := (← module).funcs.get f
    if fn.defined then
      naming ("pass " ++ p.name ++ " on @" ++ fn.name) (onError (onFunction p span f) do
        stopPhase phase "error"
        endSpan span "error")
  stopPhase phase []
  extendSpan span "removed" (Text.ofInt ((← stats).insts - before.insts))
  endSpan span []
  checkAfter pm p.name

def runModulePass (pm : Manager) (parent : Span) (p : ModulePass) : Running Unit := do
  let span ← beginSpan .pass ("pass:" ++ p.name) parent.anchor
  let phase ← startPhase ("pass:" ++ p.name)
  naming ("pass " ++ p.name) (onError (transform p.run) do
    stopPhase phase "error"
    endSpan span "error")
  stopPhase phase []
  endSpan span []
  checkAfter pm p.name

/-- Every enabled function pass over every defined function, then every enabled module pass. -/
def Manager.run (level : Level) (parent : UInt64) : Running Unit := do
  let span ← beginSpan .module ("opt:" ++ (← module).name) parent
  finally_ (do
    pm.functionPasses.forM fun p => do
      if pm.enabled p.name p.minLevel level then runFunctionPass pm span p
    pm.modulePasses.forM fun p => do
      if pm.enabled p.name p.minLevel level then runModulePass pm span p)
    (do
      extendSpan span "level" level.name
      endSpan span (← stats).text)

def Manager.optimise (level : Level) (m : Module) : Except Fault (Stats × Module) :=
  let (outcome, r) := (pm.run level 0).run.run { work := { builder := { module := m } } }
  outcome.map fun _ => (r.work.stats, r.work.builder.module)

def Manager.optimiseAll (pm : Manager) (level : Level) : List Module →
    Except Fault (List (Stats × Module))
  | [] => .ok []
  | m :: ms =>
    match pm.optimise level m with
    | .error (.error e) => .error (.error (.within ("module " ++ m.name) e))
    | .error (.crash c) => .error (.crash c)
    | .ok r => (pm.optimiseAll level ms).map (r :: ·)

end Midlevel.Pass
