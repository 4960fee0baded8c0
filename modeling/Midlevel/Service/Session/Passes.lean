import Midlevel.Pass.Manager
import Midlevel.Service.Session.Types

/-!
Steps that run passes and write listings. Besides the real passes there are some that fail, to show
how failures are handled.
-/

namespace Midlevel.Service.Session

open Ir

def breaker : Pass.FunctionPass where
  name := "breaker"
  minLevel := .off
  run f := Pass.Transform.build do
    let b ← Build.demand (← Build.func f).blocks.head?
    Build.erase ((← Build.module).terminator b)

def failing : Pass.FunctionPass where
  name := "fails"
  minLevel := .off
  run _ := throw (.error (.plain "boom"))

def failingModule : Pass.ModulePass where
  name := "module-fails"
  minLevel := .off
  run := throw (.error (.plain "boom"))

def functionPass? (name : Text) : Option Pass.FunctionPass :=
  [Pass.deadCode, Pass.controlFlow, Pass.libraryInline, breaker, failing].find? (·.name = name)

def modulePass? (name : Text) : Option Pass.ModulePass :=
  [Pass.deadFunctions, failingModule].find? (·.name = name)

def outcomeAnswer (outcome : Except Fault Unit) (fields : Fields) : Step Json :=
  match outcome with
  | .ok () => pure (.object fields)
  | .error f => report f fields

def passStep : Handler := fun j => do
  let name : Text ← j.get "name"
  let run ← match functionPass? name, modulePass? name with
    | some p, _ => do pure (p.run (← arg j "fn"))
    | none, some p => pure p.run
    | none, none => refuse
  let (outcome, w) := run.run.run { builder := { module := ← module } }
  setModule w.builder.module
  outcomeAnswer outcome [("stats", w.stats.text)]

def ofPhases (t : Timing.Timer) : Json :=
  .list (t.report.map fun p => .list [ofText p.name, ofNat p.count, ofText p.note])

def optimiseStep : Handler := fun j => do
  let level : Pass.Level := ⟨← j.get "level"⟩
  let verify ← if (j.field "verify").isNull then pure true else j.get "verify"
  let disabled : List Text ← j.get "disabled"
  let names : List Text ← j.get "passes"
  if names.any fun n => (functionPass? n).isNone && (modulePass? n).isNone then refuse
  let pm : Pass.Manager :=
    if j.has "passes" then
      { functionPasses := names.filterMap functionPass?,
        modulePasses := names.filterMap modulePass?,
        verify, disabled }
    else { Pass.Manager.standard with verify, disabled }
  let (outcome, r) := (pm.run level 0).run.run
    { work := { builder := { module := ← module } }, timer := some {} }
  setModule r.work.builder.module
  outcomeAnswer outcome [("stats", r.work.stats.text), ("phases", ofPhases (r.timer.getD {}))]

def passSteps : List (Text × Handler) :=
  [("pass", passStep),
   ("opt", optimiseStep),
   ("declare_runtime", fun _ =>
      building Listing.declareRuntime fun names => pure (.object [("runtime", ofTexts names)])),
   ("lower", fun j => do
      if ← j.flag "nil" then return ← report (.error (.cause .noModule)) []
      lowering (Listing.lower 0) fun out => do
        let target := (← get).target
        return .object [("runtime", ofTexts out.runtime), ("listing", out.render target)])]

end Midlevel.Service.Session
