import Midlevel.Diagnostic
import Midlevel.Service.Steps

/-!
Requests about diagnostics: one bag, filled directly and through reporters.
-/

namespace Midlevel.Service.Diagnostics

structure State where
  bag : Bag
  seen : List Diagnostic := []

abbrev Step := Stepwise State

def layoutErrors : List (Text × LayoutError) :=
  [("VIR3001", .recursive "Loop" ["Loop", "Loop"]), ("VIR3002", .unsized "?"),
    ("VIR3003", .overflow "Big" "too big")]

def errorNamed (t : Text) : Error :=
  match layoutErrors.lookup t, Cause.precedence.find? fun c => (Code.ofCause c).id = t with
  | some e, _ => .layout e
  | none, some c => .cause c
  | none, none => .plain t

def readError (j : Json) : Read Error := do
  let context : Text ← j.get "prefix"
  let e ← match (← j.get "wraps" : List Text).map errorNamed with
    | [] => unreadable
    | [e] => .ok e
    | es => .ok (.joined es)
  return if context = [] then e else .within context e

instance : Readable Diagnostic where
  read j := do
    let location : Location :=
      { input := ← j.get "input", func := ← j.get "fn", block := ← j.get "block" }
    if j.has "wraps" then return .ofError location (← readError j)
    return { severity := ⟨← j.get "sev"⟩, code := ⟨← j.get "code"⟩,
             message := ← j.get "msg", location, notes := ← j.get "notes" }

def lengthAnswer : Step Json := return .object [("len", (← get).bag.items.length)]

def shortAnswer : Step Json := return .object [("short", (← get).bag.short)]

def onBag (f : Bag → Bag) : Step Unit := modify fun s => { s with bag := f s.bag }

def steps : List (Text × (Json → Step Json)) :=
  [("add", fun j => do
      let d ← Readable.read j
      let full := (← get).bag.isFull
      onBag (·.add d)
      let bag := (← get).bag
      return .object [("kept", .bool !full), ("len", bag.items.length), ("errors", bag.hasErrors),
        ("warnings", bag.hasWarnings)]),
   ("report", fun j => do
      let d ← Readable.read j
      let _ : Int ← j.get "times"
      onBag (·.add d)
      lengthAnswer),
   ("report_dedup", fun j => do
      let d ← Readable.read j
      let _ : Int ← j.get "times"
      if d.key ∉ (← get).seen then
        modify fun s => { s with seen := d.key :: s.seen }
        onBag (·.add d)
      lengthAnswer),
   ("merge", fun j => do
      let items ← j.get "items"
      onBag (·.merge { items })
      lengthAnswer),
   ("dedup", fun _ => do
      onBag (·.dedup)
      lengthAnswer),
   ("sort", fun _ => do
      onBag (·.sort)
      shortAnswer),
   ("short", fun _ => shortAnswer),
   ("pretty", fun j => do
      return .object [("text", (← get).bag.pretty (← j.get "color") (← j.get "notes"))]),
   ("code_of", fun j => do
      let e ← readError j
      return .object [("code", e.code.id), ("text", e.message)])]

def run (j : Json) : Read Json := do
  let start : State := { bag := { limit := ← j.get "max" } }
  return .object [("steps", .list (runSteps (stepNamed steps) start (← j.get "steps")).1)]

end Midlevel.Service.Diagnostics
