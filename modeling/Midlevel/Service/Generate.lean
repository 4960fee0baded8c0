import Midlevel.Ir.Printer
import Midlevel.Lowering.Module
import Midlevel.Pass.Manager
import Midlevel.Service.Tree

/-!
Requests that lower trees and optimise the result.
-/

namespace Midlevel.Service

open Trace

def readTracer (j : Json) : Read (Option (Tracer × Format)) := do
  let level : Text ← j.get "trace"
  if level = [] then return none
  match Level.parse level, Format.parse (← j.get "trace_format") with
  | .ok level, .ok format => return some (.ofConfig level .ring format [] (← j.get "ring"), format)
  | _, _ => unreadable

def ofEvents (t : Tracer) (format : Format) : Json :=
  .list (t.snapshot.map fun e => ofText ((Text.dropSuffix? "\n" (e.line format)).getD []))

namespace Generation

open Lowering Pass

def traceFields (asked : Option (Tracer × Format)) (t : Tracer) : Fields :=
  match asked with
  | some (_, format) => [("trace", ofEvents t format)]
  | none => []

def optimisedFields (j : Json) (m : Ir.Module) : Read (Except Fault Fields) := do
  if !j.has "level" then return .ok []
  match Manager.standard.optimise ⟨← j.get "level"⟩ m with
  | .ok (stats, m) =>
    match m.dump with
    | .ok text => return .ok [("stats", stats.text), ("optimised", text)]
    | .error c => return .error (.crash c)
  | .error (.error e) => return .ok [("opt_error", .object (errorFields e))]
  | .error (.crash c) => return .error (.crash c)

def run (j : Json) : Read Json := do
  let options : Options := { name := ← j.get "name", library := ← j.get "library" }
  let asked ← readTracer j
  withModule (j.field "module") fun tree => do
    let (outcome, tracer) := generate tree options ((asked.map (·.1)).getD .off) 0
    match outcome with
    | .error (.crash c) => return ofFault (.crash c)
    | .error (.error e) => return record (errorFields e) (traceFields asked tracer)
    | .ok m =>
      match m.dump, ← optimisedFields j m with
      | .error c, _ => return ofFault (.crash c)
      | _, .error f => return ofFault f
      | .ok text, .ok more =>
        return record [("module", m.name), ("dump", text)] (more ++ traceFields asked tracer)

def lowerAll : List Json → Read (Except Json (List Ir.Module))
  | [] => return .ok []
  | j :: js => do
    match Tree.Module.ofValue? (← toValue j) with
    | none => return .error malformed
    | some tree =>
      match (generate tree {} .off 0).1 with
      | .error f => return .error (ofFault f)
      | .ok m => return (← lowerAll js).map (m :: ·)

def moduleAnswer (m : Stats × Ir.Module) : Except Fault Json :=
  match m.2.dump with
  | .ok text => .ok (.object [("name", m.2.name), ("stats", m.1.text), ("dump", text)])
  | .error c => .error (.crash c)

def runModules (j : Json) : Read Json := do
  let level : Pass.Level := ⟨← j.get "level"⟩
  let disabled : List Text ← j.get "disabled"
  let _jobs : Int ← j.get "jobs"
  match ← lowerAll (← j.get "modules") with
  | .error answer => return answer
  | .ok modules =>
    let answers : Except Fault (List Json) := do
      let results ← { Manager.standard with disabled }.optimiseAll level modules
      results.mapM moduleAnswer
    match answers with
    | .ok modules => return .object [("modules", .list modules)]
    | .error f => return ofFault f

end Generation

end Midlevel.Service
