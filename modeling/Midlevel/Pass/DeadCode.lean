import Midlevel.Pass.Basic

/-!
Erases instructions without uses and effects, and then those that only they used.
-/

namespace Midlevel.Pass

open Ir Transform

/-- An attached instruction that can be erased at once. -/
def isTriviallyDead (m : Module) (i : InstId) : Bool :=
  !(m.insts.get i).erased && (m.insts.get i).block.isSome && m.isDead (.inst i)

def producers (m : Module) (i : InstId) : List InstId :=
  (m.operandValues (m.insts.get i).operands).filterMap fun
    | some (.inst j) => some j
    | _ => none

def eraseDead : (steps : Nat) → (work : List InstId) → Transform Unit
  | 0, _ => pure ()
  | _, [] => pure ()
  | steps + 1, i :: work => do
    let m ← module
    if isTriviallyDead m i then
      let freed := producers m i
      build (Build.erase (some i))
      count fun s => { s with insts := s.insts + 1 }
      let m ← module
      eraseDead steps ((freed.filter (isTriviallyDead m)).reverse ++ work)
    else eraseDead steps work

/-- Every instruction is erased at most once, and then puts at most its producers on the stack. -/
def deadCodeSteps (m : Module) (work : List InstId) : Nat :=
  work.length + (m.insts.ids.flatMap fun i => (m.insts.get i).operands).length

def eliminateDeadCode (f : FuncId) : Transform Unit := do
  let m ← module
  let work := ((m.funcInsts f).filter (isTriviallyDead m)).reverse
  eraseDead (deadCodeSteps m work) work

def deadCode : FunctionPass := { name := "dce", minLevel := .low, run := eliminateDeadCode }

end Midlevel.Pass
