import Midlevel.Lowering.Scope
import Midlevel.Service.Steps

/-!
Requests about lexical scopes, whose bindings stand for names that log what is done to them.
-/

namespace Midlevel.Service.Scopes

open Lowering

abbrev Access := Option Text

structure Region where
  frame : Frame Access := []
  parent : Option Nat := none
  func : Text := []

structure State where
  regions : Array Region := #[]
  names : List (Text × Nat) := []
  failing : List Text := []
  log : List Text := []

abbrev Step := Stepwise State

def framesFrom (regions : Array Region) (func : Text) : (depth : Nat) → (n : Nat) →
    Lowering.Scope Access
  | 0, _ => []
  | depth + 1, n =>
    match regions[n]? with
    | none => []
    | some r =>
      if r.func ≠ func then []
      else r.frame :: match r.parent with
        | some p => framesFrom regions func depth p
        | none => []

def scopeAt (s : State) (n : Nat) : Lowering.Scope Access :=
  framesFrom s.regions ((s.regions[n]?.map (·.func)).getD []) s.regions.size n

def regionArg (j : Json) (key : Text) : Step Nat := do
  match (← get).names.lookup (← j.get key) with
  | some n => return n
  | none => refuse

def accessArg (j : Json) (key : Text) : Step Access := do
  if (j.field key).isNull then return none
  return some (← j.get key)

def setFrame (n : Nat) (f : Frame Access) : Step Unit :=
  modify fun s => { s with regions := s.regions.modify n ({ · with frame := f }) }

def frameAt (n : Nat) : Step (Frame Access) := return ((← get).regions[n]?.map (·.frame)).getD []

def ofAccess : Access → Json
  | some name => ofText name
  | none => .null

def releaseOf (name : Text) : Text := "release " ++ name

def release : List Access → Step (Option Fault)
  | [] => return none
  | none :: _ => return some (.crash .absent)
  | some name :: as => do
    modify fun s => { s with log := s.log ++ [releaseOf name] }
    if (← get).failing.contains name then return some (.error (.plain ("cannot release " ++ name)))
    release as

def insertStep (borrowed : Bool) (j : Json) : Step Json := do
  let n ← regionArg j "scope"
  let binding : Binding Access :=
    { name := ← j.get "name", access := ← accessArg j "acc", borrowed }
  setFrame n ((← frameAt n) ++ [binding])
  return done

def steps : List (Text × (Json → Step Json)) :=
  [("new", fun j => do
      let parent ← if (← j.get "parent" : Text) = [] then pure none else
        some <$> regionArg j "parent"
      let region : Region := { parent, func := ← j.get "fn" }
      let name : Text ← j.get "as"
      modify fun s => { s with regions := s.regions.push region,
                               names := (name, s.regions.size) :: s.names }
      return done),
   ("insert", insertStep false),
   ("borrow", insertStep true),
   ("clear", fun j => do
      setFrame (← regionArg j "scope") []
      return done),
   ("lookup", fun j => do
      let scope := scopeAt (← get) (← regionArg j "scope")
      match scope.find? (← j.get "name") with
      | some a => return .object [("acc", ofAccess a)]
      | none => return notFound),
   ("remove", fun j => do
      let n ← regionArg j "scope"
      match (← frameAt n).remove? (← j.get "name") with
      | some (a, f) =>
        setFrame n f
        return .object [("acc", ofAccess a)]
      | none => return notFound),
   ("in_scope", fun j => do
      let scope := scopeAt (← get) (← regionArg j "scope")
      return .object [("in", scope.owns (← accessArg j "acc"))]),
   ("release", fun j => do
      let n ← regionArg j "scope"
      match ← release ((← frameAt n).owned (some (← accessArg j "except"))) with
      | some f => return ofFault f
      | none =>
        setFrame n []
        return done),
   ("release_all", fun j => do
      let scope := scopeAt (← get) (← regionArg j "scope")
      match ← release (scope.owned (some (← accessArg j "except"))) with
      | some f => return ofFault f
      | none => return done)]

def logging (step : Json → Step Json) (j : Json) : Step Json := do
  modify ({ · with log := [] })
  let answer ← step j
  match (← get).log, answer with
  | [], _ => return answer
  | log, .object fields => return record fields [("events", ofTexts log)]
  | _, _ => return answer

def run (j : Json) : Read Json := do
  let start : State := { failing := ← j.get "failing" }
  return .object [("steps", .list (runSteps (logging (stepNamed steps)) start (← j.get "steps")).1)]

end Midlevel.Service.Scopes
