import Midlevel.Service.Session.Edits
import Midlevel.Service.Session.Functions
import Midlevel.Service.Session.Instructions
import Midlevel.Service.Session.Passes
import Midlevel.Service.Session.Queries

/-!
Running the steps of a session. Each is answered in turn; a step that fails leaves what it
did before.
-/

namespace Midlevel.Service.Session

def steps : List (Text × Handler) :=
  instructionSteps ++ typeSteps ++ layoutSteps ++ functionSteps ++ blockSteps ++ cursorSteps ++
    editSteps ++ querySteps ++ passSteps

def step : (depth : Nat) → Handler
  | 0, _ => refuse
  | depth + 1, j =>
    match j.field "do" with
    | .text name =>
      if name = "explode" then explodeStep (step depth) j
      else match steps.find? (·.1 = name) with
        | some (_, handler) => handler j
        | none => refuse
    | _ => refuse

instance : Readable Ir.Provider where
  read j := do
    let name ← readText j
    if name = "stdlib" then return .library
    else if name = "runtime" then return .objectRuntime
    else unreadable

def run (j : Json) : Read Json := do
  let name ← j.get "module"
  let providers ←
    if j.has "providers" then j.get "providers" else pure [.library, .objectRuntime]
  let steps ← j.get "steps"
  let start : State := { builder := { module := { name, providers } } }
  return .object [("steps", .list (runSteps (fun j => step (j.depth + 1) j) start steps).1)]

end Midlevel.Service.Session
