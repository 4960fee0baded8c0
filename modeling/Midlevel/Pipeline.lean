import Midlevel.Pipeline.Job

/-!
Runs of the pipeline. Inputs are independent of each other: one that fails does not stop the others,
and results come in the order of the inputs.
-/

namespace Midlevel.Pipeline

open Trace

variable {m : Type → Type} [Monad m] [Files m] {α : Type}

abbrev DiskJob (m : Type → Type) := ExceptT Stop (StateT Work m)

def onDisk (x : m α) : DiskJob m α := ExceptT.lift (StateT.lift x)

def pure_ (x : Job α) : DiskJob m α := do
  let (outcome, w) := x.run.run (← get)
  set w
  match outcome with
  | .ok a => return a
  | .error s => throw s

def keyOf (o : Options) (data : Text) : Cache.Digest :=
  Cache.Key.digest
    { input := data, level := o.level.name, disabled := o.disabled, target := o.target.triple,
      library := o.library }

def lookup (o : Options) (key : Cache.Digest) : m (Except Cache.Failure (Option Cache.Entry)) :=
  match o.store with
  | some s => s.get key
  | none => return .ok none

def remember (o : Options) (key : Cache.Digest) (e : Option Cache.Entry) :
    m (Except Cache.Failure Unit) :=
  match o.store, e with
  | some s, some e => s.put key e
  | _, _ => return .ok ()

def compileBelow (o : Options) (data : Text) (parent : UInt64) : DiskJob m Unit := do
  let key := keyOf o data
  match ← pure_ (compileWith o data parent (← onDisk (lookup o key))) with
  | .served => return ()
  | .store e => pure_ (conclude (← onDisk (remember o key e)))

def fail (span : Span) (stage : Stage) (p : Problem) : Job Unit := do
  Job.modifyResult ({ · with problem := some p })
  Job.emit stage .error
  extendSpan span "error" stage.name

def compile (o : Options) (data : Text) (parent : UInt64) : DiskJob m Unit := do
  let span ← beginSpan .driver ("input:" ++ Path.base (← get).result.input) parent
  try
    try compileBelow o data span.anchor
    catch
      | .failed stage p => pure_ (fail span stage p)
      | s => throw s
    endSpan span []
  catch s =>
    endSpan span []
    throw s

def readAndCompile (o : Options) (parent : UInt64) (input : Text) : DiskJob m Unit := do
  match ← onDisk (Files.read input) with
  | .error e =>
    pure_ (Job.modifyResult ({ · with problem := some (.error e.toError) }))
    pure_ (Job.emit .load .error)
  | .ok data => compile o data parent

def crashResult (input : Text) (c : Crash) : Result :=
  { input, problem := some (.error (.because .internal c.message)) }

def runJob (o : Options) (cancelled : Bool) (parent : UInt64) (input : Text) :
    StateT Observers m Result := do
  if cancelled then return { input, problem := some (.error (.plain "context canceled")) }
  let (outcome, w) ← (readAndCompile o parent input : DiskJob m Unit).run.run
    { watch := ← get, result := { input } }
  set w.watch
  match outcome with
  | .ok () => return w.result
  | .error (.failed _ p) => return { w.result with problem := some p }
  | .error (.crashed c) =>
    modify fun o => { o with events := { input, stage := .optimise, status := .error } :: o.events }
    return crashResult input c

instance : Traced Observers where
  tracer := Observers.tracer
  setTracer t o := { o with tracer := t }

def announce : List Text → StateT Observers m (Option Crash)
  | [] => return none
  | input :: rest => do
    match ← modifyGet (·.tell { input, stage := .load, status := .queued }) with
    | some c => return some c
    | none => announce rest

def run (inputs : List Text) (o : Options) (cancelled : Bool) :
    StateT Observers m (Except Crash (List Result)) := do
  let span ← beginSpan .driver "pipeline" 0
  let results ← match ← announce inputs with
    | some c => pure (.error c)
    | none => .ok <$> inputs.mapM (runJob o cancelled span.anchor)
  endSpan span (Text.ofNat inputs.length ++ " inputs")
  return results

def failure? (cancelled : Bool) (results : List Result) : Option Text :=
  if cancelled then some "context canceled"
  else if results.any (·.problem.isSome) then some "pipeline: one or more inputs failed"
  else none

end Midlevel.Pipeline
