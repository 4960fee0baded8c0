import Midlevel.Service.Answer
import Midlevel.Service.Request

/-!
Requests that hold steps. Each step is answered in turn; one that cannot be read is answered as
such, and what it did before stays.
-/

namespace Midlevel.Service

abbrev Stepwise (σ : Type) := ExceptT Refusal (StateM σ)

variable {σ α : Type}

def refuse : Stepwise σ α := throw .unreadable

def runSteps (step : Json → Stepwise σ Json) (s : σ) : List Json → List Json × σ
  | [] => ([], s)
  | j :: js =>
    let (outcome, s) := (step j).run.run s
    let answer := match outcome with
      | .ok a => a
      | .error _ => refused
    let (answers, s) := runSteps step s js
    (answer :: answers, s)

def stepNamed (table : List (Text × (Json → Stepwise σ Json))) (j : Json) : Stepwise σ Json := do
  let name : Text ← j.get "do"
  match table.find? (·.1 = name) with
  | some (_, step) => step j
  | none => refuse

end Midlevel.Service
