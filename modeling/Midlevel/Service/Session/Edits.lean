import Midlevel.Service.Session.Basic

/-!
Steps that edit code, and steps that damage it, so that the verifier has something to find.
-/

namespace Midlevel.Service.Session

open Ir Build

def moveStep (i : Option InstId) (block : Option BlockId) (before : Option InstId) : Step Json := do
  let m ← module
  editing (move i { func := block.bind fun b => (m.blocks.get b).func, block, before })

def setOperandStep (i : InstId) (index : Int) (v : Option Value) : Step Json := do
  let o ← itemAt ((← module).insts.get i).operands index
  building (setOperand o v) fun _ => do
    let m ← module
    return .object [("attached", m.isAttached o), ("operand", ofValue m (m.operandValue o))]

def damaged (j : Json) (e : Edge) : Step Edge := do
  let pred ← if j.has "pred" then arg j "pred" else pure e.pred
  let target ← if j.has "target" then arg j "target" else pure e.target
  let source ← if j.has "break" then arg j "break" else pure e.source
  let kept ← if j.has "args" then j.get "args" else pure (e.args.length : Int)
  if kept < 0 ∨ e.args.length < kept then refuse
  return { pred, target, source, args := e.args.take kept.toNat }

def tamperStep : Handler := fun j => do
  let m ← module
  if j.has "opcode" then
    let i : InstId ← arg j "inst"
    let op := Opcode.ofCode (← j.get "opcode")
    setModule { m with insts := m.insts.update i ({ · with op }) }
  else
    let edges ←
      if j.has "inst" then do pure (m.insts.get (← arg j "inst")).targets
      else do pure (m.blocks.get (← arg j "block")).edges
    let e ← itemAt edges (← j.get "index")
    let changed ← damaged j (m.edges.get e)
    setModule { m with edges := m.edges.update e fun _ => changed }
  return done

def editSteps : List (Text × Handler) :=
  [("insert", command insert ["inst"]),
   ("detach", command detach ["inst"]),
   ("erase", command erase ["inst"]),
   ("move", command moveStep ["inst", "block", "before"]),
   ("replace", command replace ["old", "new"]),
   ("erase_from", command eraseFrom ["block", "inst"]),
   ("erase_blocks", command eraseBlocks ["blocks"]),
   ("merge", command mergeBlocks ["pred", "succ"]),
   ("move_after", command moveBlockAfter ["block", "anchor"]),
   ("move_before", command moveBlockBefore ["block", "anchor"]),
   ("rauw", command replaceAllUses ["v", "with"]),
   ("tamper", tamperStep),
   ("set_operand", command setOperandStep ["inst", "index", "v"])]

/-! ### Expansions -/

def nested (step : Handler) : List Json → Step (List Json × Except Error Unit)
  | [] => return ([], .ok ())
  | j :: js => do
    modify ({ · with failure := none })
    let (outcome, s) := (step j).run.run (← get)
    set s
    match outcome, s.failure with
    | .error _, _ => return ([refused], .error (.plain "step panicked"))
    | .ok a, some (.crash _) => return ([a], .error (.plain "step panicked"))
    | .ok a, some (.error e) => return ([a], .error e)
    | .ok a, none =>
      let (rest, outcome) ← nested step js
      return (a :: rest, outcome)

def explodeStep (step : Handler) : Handler := fun j => do
  let i ← arg j "inst"
  let steps ← j.get "steps"
  match ← build (beginExplosion i) with
  | .error f => report f [("steps", .list [])]
  | .ok x =>
    let (answers, outcome) ← nested step steps
    let answers : Fields := [("steps", .list answers)]
    match ← build (endExplosion x outcome) with
    | .error f => report f answers
    | .ok tail =>
      naming j (Value.inst tail)
      return record answers [("tail", ofInst (← module) tail)]

end Midlevel.Service.Session
