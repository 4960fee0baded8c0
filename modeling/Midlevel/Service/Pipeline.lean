import Midlevel.Pipeline
import Midlevel.Service.Disks
import Midlevel.Service.Generate
import Midlevel.Service.Store
import Midlevel.Service.Session.Passes

/-!
Requests that run the pipeline, one run after the other over the same files and the same cache.
-/

namespace Midlevel.Service.Pipelines

open Pipeline Trace Timing

def fileBytes (j : Json) : Read (Option Text) := do
  match j with
  | .object fields =>
    match onlyHex? fields with
    | some h => return some (← unhex (← readText h))
    | none => return (Tree.Module.ofValue? (← toValue j)).map (·.encode)
  | _ => return (Tree.Module.ofValue? (← toValue j)).map (·.encode)

def addFiles : Disk → List (Text × Json) → Read (Option Disk)
  | d, [] => return some d
  | d, (path, j) :: rest => do
    checkPath path
    match ← fileBytes j with
    | some bytes => addFiles (addFile d path bytes) rest
    | none => return none

def raisedAt (input stage status : Text) : Crash :=
  .raised ("sink: " ++ input ++ " " ++ stage ++ " " ++ status)

def readTrap (j : Json) : Read (Option (Pipeline.Event × Crash)) := do
  match (← j.get "panic_at" : List Text) with
  | [] => return none
  | [input, stage, status] =>
    match Stage.all.find? (·.name = stage), Status.all.find? (·.name = status) with
    | some s, some t =>
      return some ({ input, stage := s, status := t }, raisedAt input stage status)
    | _, _ => return none
  | _ => unreadable

structure Asked where
  inputs : List Text
  jobs : Int
  options : Except Text Options
  cancelled : Bool
  timed : Bool
  traced : Option (Tracer × Format)
  trap : Option (Pipeline.Event × Crash)

def readRun (j : Json) : Read Asked := do
  let level : Pass.Level := ⟨← j.get "level"⟩
  let disabled : List Text ← j.get "disabled"
  let verify ← if (j.field "verify").isNull then pure true else j.get "verify"
  let library : Bool ← j.get "library"
  let target := Target.parse (← j.get "target")
  let checkReproducible : Bool ← j.get "check"
  let listing : Bool ← j.get "listing"
  let store := if ← j.flag "store" then some { dir := "cache" } else none
  return { inputs := ← j.get "inputs", jobs := ← j.get "jobs"
           options := target.map fun target =>
             { level, disabled, verify, library, target, store, checkReproducible, listing }
           cancelled := ← j.get "cancelled", timed := ← j.get "timer"
           traced := ← readTracer j, trap := ← readTrap j }

/-! ### Answers -/

def firstLine (t : Text) : Text := t.takeWhile (· ≠ 0x0A)

def ofProblem : Problem → Json
  | .cache (.corrupt key detail) => Caches.ofFailure (.corrupt key detail)
  | p =>
    let e := p.toError
    if e.code = .ofCause .malformedTree then malformed
    else if e.code = .ofCause .internal then
      .object [("error", e.code.id), ("message", firstLine e.message)]
    else .object (errorFields e)

def ofResult (r : Result) : Json :=
  let more : Fields := match r.problem with
    | some p => [("err", ofProblem p)]
    | none => [("dump", r.dump), ("listing", r.listing), ("stats", r.stats.text)]
  record [("input", r.input), ("module", r.module), ("cached", r.cached)] more

def ofProgress (inputs : List Text) (events : List Pipeline.Event) : Json :=
  .list (inputs.eraseDups.flatMap fun input =>
    (events.filter (·.input = input)).map fun e =>
      .list [ofText e.input, ofText e.stage.name, ofText e.status.name])

def ofDiagnostic (d : Diagnostic) : Json :=
  let notes : Fields := if d.severity = .internal then [] else [("notes", ofTexts d.notes)]
  let message : Fields :=
    if d.code = .ofCause .malformedTree ∨ d.code = .unknown then [] else [("message", d.message)]
  record [("severity", d.severity.name), ("code", d.code.id),
    ("location", d.location.text)] (notes ++ message)

def ofTotal (t : Total) : Json := .list [ofText t.name, ofNat t.count, ofText []]

/-- With several jobs at once neither the order of the phases nor their notes are fixed. -/
def phaseFields (asked : Asked) (o : Observers) : Fields :=
  match o.timer with
  | none => []
  | some t =>
    if asked.jobs = 1 then [("phases", Session.ofPhases t)]
    else [("phases", .list ((t.report.mergeSort fun a b => !Text.lt b.name a.name).map ofTotal))]

def traceFields (asked : Asked) (o : Observers) : Fields :=
  match asked.traced with
  | some (_, format) => [("trace", ofEvents o.tracer format)]
  | none => []

def ofRun (asked : Asked) (results : List Result) (o : Observers) : Json :=
  let failure : Fields := match failure? asked.cancelled results with
    | some text => [("error", text)]
    | none => []
  record [("results", .list (results.map ofResult)),
    ("events", ofProgress asked.inputs o.events.reverse),
    ("diagnostics", .list ((dedup [] (results.filterMap (·.diagnostic?))).map ofDiagnostic))]
    (failure ++ phaseFields asked o ++ traceFields asked o)

def runOne (disk : Disk) (asked : Asked) : Json × Disk :=
  match asked.options with
  | .error reason => (ofReason reason, disk)
  | .ok options =>
    let observers : Observers :=
      { tracer := (asked.traced.map (·.1)).getD .off, timer := if asked.timed then some {} else none
        trap := asked.trap }
    let ((outcome, observers), disk) :=
      ((Pipeline.run asked.inputs options asked.cancelled : StateT Observers (StateM Disk) _).run
        observers).run disk
    match outcome with
    | .error c => (ofFault (.crash c), disk)
    | .ok results => (ofRun asked results observers, disk)

def runAll : Disk → List Asked → List Json
  | _, [] => []
  | disk, asked :: rest => (runOne disk asked).1 :: runAll (runOne disk asked).2 rest

def run (j : Json) : Read Json := do
  match ← addFiles freshDisk (← j.get "files") with
  | none => return malformed
  | some disk =>
    let runs ← (← j.items "runs").mapM readRun
    return .object [("runs", .list (runAll disk runs))]

end Midlevel.Service.Pipelines
