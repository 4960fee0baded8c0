import Midlevel.Listing
import Midlevel.Lowering.Module
import Midlevel.Pass.Manager
import Midlevel.Pipeline.Basic
import Midlevel.Tree.Codec

/-!
The work on one input, between its lookup in the cache and its entry there. Nothing here
touches a disk.
-/

namespace Midlevel.Pipeline

open Trace Timing

inductive Stop where
  | failed (stage : Stage) (p : Problem)
  | crashed (c : Crash)

structure Work where
  watch : Observers
  result : Result

instance : Traced Work where
  tracer w := w.watch.tracer
  setTracer t w := { w with watch := { w.watch with tracer := t } }

abbrev Job := ExceptT Stop (StateM Work)

namespace Job

variable {α : Type}

def emit (stage : Stage) (status : Status) : Job Unit := do
  let w ← get
  let (crash, watch) := w.watch.tell { input := w.result.input, stage, status }
  set { w with watch }
  match crash with
  | some c => throw (.crashed c)
  | none => return ()

def attempt (stage : Stage) (x : Except Fault α) : Job α :=
  match x with
  | .ok a => return a
  | .error (.error e) => throw (.failed stage (.error e))
  | .error (.crash c) => throw (.crashed c)

/-- Times `x`. A crash leaves the phase open. -/
def timed (name note : Text) (x : Job α) : Job α := do
  let handle ← modifyGet fun w =>
    ((w.watch.startPhase name).1, { w with watch := (w.watch.startPhase name).2 })
  let finish : Job Unit := modify fun w => { w with watch := w.watch.stopPhase handle note }
  try
    let a ← x
    finish
    return a
  catch
    | .failed stage p => do
      finish
      throw (.failed stage p)
    | s => throw s

def modifyResult (f : Result → Result) : Job Unit := modify fun w => { w with result := f w.result }

end Job

open Job

def load (data : Text) : Job Tree.Module := do
  emit .load .working
  let input := (← get).result.input
  timed "load" input (attempt .load
    (match Tree.Module.decode? data with
     | some m => .ok m
     | none => .error (.error (.within input (.cause .malformedTree)))))

def generate (o : Options) (parent : UInt64) (tree : Tree.Module) : Job Ir.Module := do
  emit .generate .working
  let m ← timed "generate" tree.name do
    let (outcome, tracer) :=
      Lowering.generate tree { library := o.library } (← get).watch.tracer parent
    modify (Traced.setTracer tracer)
    attempt .generate outcome
  modifyResult ({ · with module := m.name })
  return m

def optimise (o : Options) (parent : UInt64) (m : Ir.Module) : Job Ir.Module := do
  emit .optimise .working
  let pm := { Pass.Manager.standard with verify := o.verify, disabled := o.disabled }
  let w ← get
  let (outcome, run) := (pm.run o.level parent).run.run
    { work := { builder := { module := m } }, tracer := w.watch.tracer, timer := w.watch.timer }
  modify fun w => { w with watch := { w.watch with tracer := run.tracer, timer := run.timer } }
  modifyResult ({ · with stats := run.work.stats })
  attempt .optimise outcome
  let m := run.work.builder.module
  match m.verify with
  | .error c => throw (.crashed c)
  | .ok (some e) => throw (.failed .optimise (.error e))
  | .ok none =>
    let dump ← attempt .optimise (m.dump.mapError .crash)
    modifyResult ({ · with dump })
    return m

def lower (o : Options) (parent : UInt64) (m : Ir.Module) : Job Unit := do
  emit .lower .working
  let listing ← timed "lower" m.name do
    let start : Listing.Lowering :=
      { builder := { module := m }, target := o.target, tracer := (← get).watch.tracer }
    let (outcome, l) := (Listing.lower parent).run.run start
    modify (Traced.setTracer l.tracer)
    let out ← attempt .lower outcome
    return out.render o.target
  modifyResult ({ · with listing })

inductive Next where
  | served
  | store (e : Option Cache.Entry)

def compareWith (hit : Option Cache.Entry) : Job Unit := do
  match hit with
  | none => return ()
  | some e =>
    match e.check (← get).result.dump with
    | .ok () => return ()
    | .error f => throw (.failed .optimise (.cache f))

/-- All the work on an input, given what the cache has of it. -/
def compileWith (o : Options) (data : Text) (parent : UInt64)
    (found : Except Cache.Failure (Option Cache.Entry)) :
    Job Next := do
  match found with
  | .error f => throw (.failed .load (.cache f))
  | .ok hit =>
    match hit, o.checkReproducible with
    | some e, false =>
      modifyResult ({ · with module := e.module, dump := e.dump, listing := e.listing,
                             cached := true })
      emit .load .cached
      return .served
    | _, _ =>
      let tree ← load data
      let m ← generate o parent tree
      let m ← optimise o parent m
      compareWith hit
      if o.listing || o.store.isSome then lower o parent m
      let r := (← get).result
      return .store (if hit.isSome then none else
        some (.new r.module o.level.name r.dump r.listing))

def conclude (stored : Except Cache.Failure Unit) : Job Unit := do
  match stored with
  | .error f => throw (.failed .lower (.cache f))
  | .ok () => emit .lower .done

end Midlevel.Pipeline
