import Midlevel.Pass.Basic

/-!
Drops functions that nothing uses and that cannot be reached from outside the module. Dropping one
can free others, so the pass repeats until nothing changes.
-/

namespace Midlevel.Pass

open Ir Transform

def entryPoint : Text := "main"

def isDeadFunction (m : Module) (f : FuncId) : Bool :=
  let fn := m.funcs.get f
  fn.name != entryPoint && m.externalUses f == 0 && (!fn.defined || fn.visibility != .exported)

def removeDeadAmong : List FuncId → Transform Bool
  | [] => return false
  | f :: fs => do
    let m ← module
    if isDeadFunction m f then
      count fun s => { s with insts := s.insts + (m.funcInsts f).length }
      build (Build.removeFunction f)
      count fun s => { s with funcs := s.funcs + 1 }
      let _ ← removeDeadAmong fs
      return true
    else removeDeadAmong fs

def removeDeadRounds : (rounds : Nat) → Transform Unit
  | 0 => pure ()
  | rounds + 1 => do
    if ← removeDeadAmong (← module).order then removeDeadRounds rounds

/-- All rounds but the last remove a function. -/
def removeDeadFunctions : Transform Unit := do
  removeDeadRounds ((← module).order.length + 1)

def deadFunctions : ModulePass :=
  { name := "dead-function", minLevel := .low, run := removeDeadFunctions }

end Midlevel.Pass
