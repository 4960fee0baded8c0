import Midlevel.Ir.Edit
import Midlevel.Text.LowerCase
import Midlevel.Integer

/-!
Passes change a module and count what they changed.
-/

namespace Midlevel.Pass

/-- How much is optimised. A pass runs from its own level on. -/
structure Level where
  code : UInt8
  deriving DecidableEq

namespace Level

def off : Level := ⟨0⟩

def low : Level := ⟨1⟩

def high : Level := ⟨3⟩

def name (l : Level) : Text :=
  if high.code ≤ l.code then "high" else if low.code ≤ l.code then "low" else "off"

def parse (t : Text) : Except Text Level :=
  match t.trim.keyword? [("off", off), ("none", off), ("0", off), ("low", low), ("1", low),
      ("high", high), ("3", high)] with
  | some l => .ok l
  | none => .error ("invalid optimisation level " ++ t.quote ++ " (expected: off|low|high)")

end Level

structure Stats where
  inlined : Int := 0
  insts : Int := 0
  blocks : Int := 0
  merged : Int := 0
  folded : Int := 0
  funcs : Int := 0
  deriving DecidableEq

namespace Stats

/-- Counts are words and wrap around. -/
def add (s t : Stats) : Stats where
  inlined := Word.wrap (s.inlined + t.inlined)
  insts := Word.wrap (s.insts + t.insts)
  blocks := Word.wrap (s.blocks + t.blocks)
  merged := Word.wrap (s.merged + t.merged)
  folded := Word.wrap (s.folded + t.folded)
  funcs := Word.wrap (s.funcs + t.funcs)

def text (s : Stats) : Text :=
  "inlined=" ++ Text.ofInt s.inlined ++ " insts=-" ++ Text.ofInt s.insts ++ " blocks=-" ++
    Text.ofInt s.blocks ++ " merged=" ++ Text.ofInt s.merged ++ " folded=" ++ Text.ofInt s.folded ++
    " funcs=-" ++ Text.ofInt s.funcs

end Stats

structure Workspace where
  builder : Ir.Builder
  stats : Stats := {}

abbrev Transform := ExceptT Fault (StateM Workspace)

namespace Transform

variable {α : Type}

def build (x : Ir.Build α) : Transform α := do
  let w ← get
  let (outcome, builder) := x.run.run w.builder
  set { w with builder }
  match outcome with
  | .ok a => return a
  | .error f => throw f

def module : Transform Ir.Module := return (← get).builder.module

def count (change : Stats → Stats) : Transform Unit :=
  modify fun w => { w with stats := change w.stats }

def demand : Option α → Transform α
  | some a => pure a
  | none => throw (.crash .absent)

end Transform

structure FunctionPass where
  name : Text
  minLevel : Level
  run : Ir.FuncId → Transform Unit

structure ModulePass where
  name : Text
  minLevel : Level
  run : Transform Unit

end Midlevel.Pass
