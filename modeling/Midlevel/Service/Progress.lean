import Midlevel.Progress
import Midlevel.Service.Steps

/-!
Requests about the view of a run in progress.
-/

namespace Midlevel.Service.Views

open Midlevel.Progress
open Pipeline (Stage Status)

abbrev Step := Stepwise View

def shown (quit : Bool) : Step Json := return .object [("view", (← get).text), ("quit", quit)]

def animated (again : Bool) : Step Json := return .object [("view", (← get).text), ("again", again)]

def steps : List (Text × (Json → Step Json)) :=
  [("event", fun j => do
      let input : Text ← j.get "input"
      let stage : Text ← j.get "stage"
      let status : Text ← j.get "status"
      modify (·.event input (Stage.all.find? (·.name = stage)) (Status.all.find? (·.name = status)))
      shown false),
   ("close", fun _ => do
      modify (·.close)
      shown true),
   ("resize", fun j => do
      let width : Int ← j.get "width"
      modify (·.resize width)
      shown false),
   ("key", fun j => do
      let key : Text ← j.get "key"
      shown (key = "ctrl+c")),
   ("other", fun _ => shown false),
   ("tick", fun _ => do
      let done := (← get).done
      modify (·.tick)
      animated !done),
   ("frame", fun _ => do
      if !(← get).bar.moving then refuse
      modify fun v => { v with bar := v.bar.step }
      animated (← get).bar.moving)]

def run (j : Json) : Read Json := do
  let start := View.start (← j.get "title") (← j.get "inputs")
  let (answers, _) := runSteps (stepNamed steps) start (← j.get "steps")
  return .object [("first", start.text), ("steps", .list answers)]

end Midlevel.Service.Views
