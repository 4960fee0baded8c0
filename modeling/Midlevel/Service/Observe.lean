import Midlevel.Files.Disk
import Midlevel.Service.Generate
import Midlevel.Service.Session.Passes
import Midlevel.Trace.Output

/-!
Requests about what observes a compilation: phases, events and tracers.
-/

namespace Midlevel.Service.Observe

open Trace Timing

/-! ### Phases -/

def phaseSteps : List (Text × (Json → Stepwise (Option Timer) Json)) :=
  [("begin", fun j => do
      let name : Text ← j.get "name"
      let handle ← modifyGet fun
        | some t => ((t.start name).1, some (t.start name).2)
        | none => (-1, none)
      return .object [("handle", ofInt handle)]),
   ("end", fun j => do
      let handle : Int ← j.get "handle"
      let note : Text ← j.get "note"
      modify (·.map (·.stop handle note))
      return done)]

def timer (j : Json) : Read Json := do
  let start : Option Timer := if ← j.flag "nil" then none else some {}
  let (answers, timer) := runSteps (stepNamed phaseSteps) start (← j.get "steps")
  let timer := timer.getD {}
  return .object [("steps", .list answers), ("phases", Session.ofPhases timer),
    ("summary", timer.summary)]

/-! ### Events -/

def event (j : Json) : Read Json := do
  let extras ← (← j.get "extra" : List (Text × Json)).mapM fun (key, value) => do
    return (key, ← readText value)
  let e : Event :=
    { time := { seconds := ← j.get "unix", nanos := ← j.get "nanos", offset := ← j.get "offset" }
      seq := ← j.get "seq", kind := .ofCode (← j.get "kind"), scope := ⟨← j.get "scope"⟩
      span := ← j.get "span", parent := ← j.get "parent", thread := ← j.get "gid"
      name := ← j.get "name", detail := ← j.get "detail", extras }
  return .object [("text", e.textLine), ("ndjson", e.ndjsonLine)]

/-! ### Tracers -/

structure Tracing where
  tracer : Tracer
  spans : List (Text × Span) := []

private instance : Traced Tracing where
  tracer := Tracing.tracer
  setTracer t s := { s with tracer := t }

def spanArg (j : Json) (key : Text) : Stepwise Tracing Span := do
  let name : Text ← j.get key
  return ((← get).spans.lookup name).getD .none

def scopeArg (j : Json) : Stepwise Tracing Scope := return ⟨← j.get "scope"⟩

def tracerSteps : List (Text × (Json → Stepwise Tracing Json)) :=
  [("begin", fun j => do
      let span ← beginSpan (← scopeArg j) (← j.get "name") (← spanArg j "parent").anchor
      let name : Text ← j.get "as"
      if name ≠ [] then modify fun s => { s with spans := (name, span) :: s.spans }
      return .object [("id", span.anchor.toNat)]),
   ("end", fun j => do
      endSpan (← spanArg j "span") (← j.get "detail")
      return done),
   ("extra", fun j => do
      extendSpan (← spanArg j "span") (← j.get "key") (← j.get "value")
      return done),
   ("point", fun j => do
      tracePoint (← scopeArg j) (← j.get "name") (← j.get "detail") (← spanArg j "parent").anchor
      return done)]

def linesOf (t : Text) : List Text := (Text.split 0x0A t).filter (· ≠ [])

def ringFields (t : Tracer) (format : Format) : Fields :=
  if t.ring.isNone then []
  else
    let dumped : Text := t.snapshot.flatMap (·.line format)
    [("ring", ofEvents t format), ("dumped", ofTexts (linesOf dumped))]

def tracer (j : Json) : Read Json := do
  let level : Text ← j.get "level"
  let mode : Text ← j.get "mode"
  let format : Text ← j.get "format"
  let ring : Int ← j.get "ring"
  let path : Text ← j.get "path"
  let steps : List Json ← j.get "steps"
  match Level.parse level, Mode.parse mode, Format.parse format with
  | .error e, _, _ | _, .error e, _ | _, _, .error e => return ofReason e
  | .ok level, .ok mode, .ok format =>
    let config : Config := { level, mode, format, ring, sink := .ofPath path }
    match (config.start : StateM Disk _).run {} with
    | (.error e, _) => return .object (errorFields e)
    | (.ok tracer, disk) =>
      let (answers, tracing) := runSteps (stepNamed tracerSteps) { tracer } steps
      let (_, disk) := (config.save tracing.tracer : StateM Disk Unit).run disk
      let onDisk := (disk.read path).toOption
      let written := if path = [] then tracing.tracer.streamed else onDisk.getD []
      let file : Fields := if path = [] then [] else [("file", onDisk.isSome)]
      return record [("steps", .list answers), ("enabled", tracing.tracer.enabled),
        ("level", tracing.tracer.level.name), ("stream", ofTexts (linesOf written))]
        (file ++ ringFields tracing.tracer format)

end Midlevel.Service.Observe
