import Midlevel.Error
import Midlevel.Ir.Library
import Midlevel.Ir.Uses
import Midlevel.Text.Quoted
import Midlevel.Type.Label

/-!
The state in which code is built: a module and a cursor. A step that fails keeps what was done
before it failed, so the state outlives an error.
-/

namespace Midlevel.Ir

/-- Where the next instruction goes: before `before` if that is given, else at the end of
`block`. -/
structure Cursor where
  func : Option FuncId := none
  block : Option BlockId := none
  before : Option InstId := none
  deriving DecidableEq

structure Builder where
  module : Module
  cursor : Cursor := {}
  /-- While an instruction is being expanded, the instructions attached for it so far. -/
  journal : Option (List InstId) := none

abbrev Build := ExceptT Fault (StateM Builder)

namespace Build

variable {α : Type}

def fail (e : Error) : Build α := throw (.error e)

def crash (c : Crash) : Build α := throw (.crash c)

def demand : Option α → Build α
  | some a => pure a
  | none => crash .absent

def module : Build Module := return (← get).module

def modifyModule (f : Module → Module) : Build Unit :=
  modify fun b => { b with module := f b.module }

def types : Build TypeTable := return (← get).module.types

def onTypes (f : TypeTable → α × TypeTable) : Build α :=
  modifyGet fun b =>
    let (a, types) := f b.module.types
    (a, { b with module := { b.module with types } })

/-- The outcome of `x` with its error, if it fails, as a value. Crashes pass through. -/
def attempt (x : Build α) : Build (Except Error α) := do
  try
    let a ← x
    return .ok a
  catch
    | .error e => return .error e
    | .crash c => throw (.crash c)

/-- Runs `x` and puts the cursor back, whatever becomes of `x`. -/
def keepingCursor (x : Build α) : Build α := do
  let saved := (← get).cursor
  try
    let a ← x
    modify ({ · with cursor := saved })
    return a
  catch f =>
    modify ({ · with cursor := saved })
    throw f

def label (t : TypeId) : Build Text := return (← types).label t

def func (f : FuncId) : Build Func := return (← module).funcs.get f

def block (b : BlockId) : Build Block := return (← module).blocks.get b

def inst (i : InstId) : Build Inst := return (← module).insts.get i

def edge (e : EdgeId) : Build Edge := return (← module).edges.get e

def modifyFunc (f : FuncId) (change : Func → Func) : Build Unit :=
  modifyModule fun m => { m with funcs := m.funcs.update f change }

def modifyBlock (b : BlockId) (change : Block → Block) : Build Unit :=
  modifyModule fun m => { m with blocks := m.blocks.update b change }

def modifyInst (i : InstId) (change : Inst → Inst) : Build Unit :=
  modifyModule fun m => { m with insts := m.insts.update i change }

def modifyEdge (e : EdgeId) (change : Edge → Edge) : Build Unit :=
  modifyModule fun m => { m with edges := m.edges.update e change }

def setName (v : Value) (name : Text) : Build Unit := modifyModule (·.setValueName name v)

/-! ### The cursor -/

def cursor : Build Cursor := return (← get).cursor

def setCursor (c : Cursor) : Build Unit := modify ({ · with cursor := c })

def clearCursor : Build Unit := setCursor {}

def positionAtEnd (b : BlockId) : Build Unit := do
  setCursor { func := (← block b).func, block := some b }

def positionBefore (i : InstId) : Build Unit := do
  setCursor { func := (← module).instFunc i, block := (← inst i).block, before := some i }

def currentBlock : Build (Option BlockId) := return (← cursor).block

def currentFunc : Build (Option FuncId) := do
  let c ← cursor
  match c.block with
  | some b => return (← block b).func
  | none => return c.func

/-! ### Uses -/

def applyUses (f : Module → Option Module) : Build Unit := do
  match f (← module) with
  | some m => modify ({ · with module := m })
  | none => crash .corruptUses

def setOperand (o : OperandId) (v : Option Value) : Build Unit := applyUses (·.setOperand? o v)

def dropOperands (os : List OperandId) : Build Unit :=
  os.forM fun o => setOperand o none

def replaceAllUses (v w : Option Value) : Build Unit :=
  match v, w with
  | some v, some w => do
    if v ≠ w then
      ((← module).uses v).forM fun o => setOperand o (some w)
  | _, _ => pure ()

/-! ### Edges -/

def checkArgs (m : Module) (b : BlockId) (args : List (Option Value)) : Except Error Unit :=
  let blk := m.blocks.get b
  let mismatch (detail : Text) : Except Error Unit :=
    .error (.within ("#" ++ blk.name) (.because .paramsNotTyped detail))
  let types := blk.func.bind m.typesOf
  let rec go (n : Nat) : List (Option Value) → List ParamId → Except Error Unit
    | none :: _, _ => mismatch ("argument " ++ Text.ofNat n ++ " is nil")
    | some v :: vs, p :: ps =>
      let param := m.params.get p
      if m.valueType v = param.type then go (n + 1) vs ps
      else mismatch ("argument " ++ Text.ofNat n ++ " has type " ++
        TypeTable.labelIn types (m.valueType v) ++ ", parameter %" ++ param.name ++ " wants " ++
        TypeTable.labelIn types param.type)
    | _, _ => .ok ()
  if args.length = blk.params.length then go 0 args blk.params
  else mismatch (Text.ofNat args.length ++ " arguments for " ++ Text.ofNat blk.params.length ++
    " parameters")

def newEdge (target : BlockId) (pred : Option BlockId) (source : Option InstId)
    (args : List (Option Value)) : Build EdgeId := do
  let e := (← module).edges.next
  modifyModule fun m =>
    let (args, m) := m.newOperands args source
    { m with
      edges := m.edges.push { target := some target, pred, source, args }
      blocks := m.blocks.update target fun b => { b with edges := b.edges ++ [e] } }
  return e

def detachEdge (e : EdgeId) : Build Unit := do
  dropOperands (← edge e).args
  modifyEdge e ({ · with args := [] })
  match (← edge e).target with
  | none => pure ()
  | some b => modifyBlock b fun b => { b with edges := b.edges.filter (· ≠ e) }

def dropAll (i : InstId) : Build Unit := do
  dropOperands (← inst i).operands
  modifyInst i ({ · with operands := [] })
  (← inst i).targets.forM detachEdge
  modifyInst i ({ · with targets := [] })

end Build

end Midlevel.Ir
