import Midlevel.Ir.Edit
import Midlevel.Layout.Engine
import Midlevel.Layout.Basic
import Midlevel.Service.Steps

/-!
Sessions: one module built and changed step by step. Steps name what they make, and later steps
refer to it by name.
-/

namespace Midlevel.Service.Session

open Ir

structure State where
  builder : Builder
  target : Target := .x86_64Linux
  memory : Layout.Memory := []
  types : List (Text × TypeId) :=
    [("none", .none), ("void", .void), ("bool", .bool), ("i8", .int8), ("i16", .int16),
      ("i32", .int32),
     ("i64", .int64), ("f32", .float32), ("f64", .float64), ("ptr", .opaquePointer)]
  values : List (Text × Value) := []
  funcs : List (Text × FuncId) := []
  blocks : List (Text × BlockId) := []
  points : List (Text × Cursor) := []
  failure : Option Fault := none

abbrev Step := Stepwise State

abbrev Handler := Json → Step Json

variable {α : Type}

def report (f : Fault) (more : Fields) : Step Json := do
  modify ({ · with failure := some f })
  match f with
  | .error _ => return record (faultFields f) more
  | .crash _ => return ofFault f

def build (x : Build α) : Step (Except Fault α) := do
  let s ← get
  let (outcome, builder) := x.run.run s.builder
  set { s with builder }
  return outcome

def building (x : Build α) (answer : α → Step Json) : Step Json := do
  match ← build x with
  | .ok a => answer a
  | .error f => report f []

def editing (x : Build Unit) : Step Json := building x fun _ => pure done

def module : Step Module := return (← get).builder.module

def setModule (m : Module) : Step Unit :=
  modify fun s => { s with builder := { s.builder with module := m } }

/-! ### Arguments -/

class Named (α : Type) where
  table : State → List (Text × α)
  insert : Text × α → State → State

instance : Named TypeId := ⟨State.types, fun x s => { s with types := x :: s.types }⟩

instance : Named Value := ⟨State.values, fun x s => { s with values := x :: s.values }⟩

instance : Named FuncId := ⟨State.funcs, fun x s => { s with funcs := x :: s.funcs }⟩

instance : Named BlockId := ⟨State.blocks, fun x s => { s with blocks := x :: s.blocks }⟩

instance : Named Cursor := ⟨State.points, fun x s => { s with points := x :: s.points }⟩

def naming [Named α] (j : Json) (a : α) : Step Unit := do
  let name : Text ← j.get "as"
  if name ≠ [] then modify (Named.insert (name, a))

def lookup [Named α] (j : Json) : Step α := do
  match (Named.table (← get)).lookup (← readText j) with
  | some a => pure a
  | none => refuse

class Argument (α : Type) where
  read : Json → Step α

instance (priority := low) [Readable α] : Argument α := ⟨fun j => Readable.read j⟩

instance (priority := 10) [Argument α] : Argument (List α) where
  read j := do (← Readable.read j : List Json).mapM Argument.read

instance [Argument α] : Argument (Option α) :=
  ⟨fun j => if j.isNull then pure none else some <$> Argument.read j⟩

instance [Named α] : Argument α := ⟨lookup⟩

instance : Argument TypeId where
  read
    | .number n s => return ⟨((← readInt (.number n s)) % 0x100000000).toNat⟩
    | j => lookup j

instance : Argument InstId where
  read j := do
    match ← Argument.read j with
    | Value.inst i => return i
    | _ => refuse

instance : Argument ParamId where
  read j := do
    match ← Argument.read j with
    | Value.param p => return p
    | _ => refuse

instance : Argument Member where
  read j := do
    match ← Readable.read j with
    | [n, t] => return ⟨← readText n, ← Argument.read t⟩
    | _ => refuse

def arg [Argument α] (j : Json) (key : Text) : Step α := Argument.read (j.field key)

def itemAt (xs : List α) (n : Int) : Step α :=
  if n < 0 then refuse
  else match xs[n.toNat]? with
    | some a => pure a
    | none => refuse

/-- A step that gives the arguments of those names to `f` and answers with its result. -/
class Command (φ : Type) where
  run : φ → List Text → Handler

instance {φ : Type} [Argument α] [Command φ] : Command (α → φ) where
  run f keys j := match keys with
    | key :: keys => do Command.run (f (← arg j key)) keys j
    | [] => refuse

instance : Command (Step Json) := ⟨fun x _ _ => x⟩

instance : Command (Build Unit) := ⟨fun x _ _ => editing x⟩

def command {φ : Type} [Command φ] (f : φ) (keys : List Text) : Handler := Command.run f keys

/-! ### Descriptions -/

def ofLabel (m : Module) (t : TypeId) : Json := ofText (m.types.label t)

def ofBlock (m : Module) (b : Option BlockId) : Json :=
  ofOption (b.map fun b => ofText (m.blocks.get b).name)

def ofFunc (m : Module) (f : Option FuncId) : Json :=
  ofOption (f.map fun f => ofText (m.funcs.get f).name)

def ofOpcode (m : Module) (i : Option InstId) : Json :=
  ofOption (i.map fun i => ofText (m.insts.get i).op.name)

def ofMembers (m : Module) (ms : List Member) : Json :=
  .list (ms.map fun x => .list [ofText x.name, ofLabel m x.type])

def ofParams (m : Module) (ps : List ParamId) : Json :=
  .list (ps.map fun p => .list [ofText (m.params.get p).name, ofLabel m (m.params.get p).type])

def tagged (tag name : Text) : Json := ofText (tag ++ ":" ++ name)

def ofValue (m : Module) (v : Option Value) : Json :=
  match v with
  | none => .null
  | some (.inst i) => tagged (m.insts.get i).op.name (m.insts.get i).name
  | some (.param p) => tagged "param" (m.params.get p).name
  | some (.func f) => tagged "func" (m.funcs.get f).refName
  | some (.global g) => tagged "global" (m.globals.get g).name

def ofOperands (m : Module) (os : List OperandId) : Json :=
  .list ((m.operandValues os).map (ofValue m))

def ofPosition (m : Module) (p : ParamId) : Json :=
  match (m.blocks.get (m.params.get p).block).params.idxOf? p with
  | some n => ofNat n
  | none => ofInt (-1)

def ofInst (m : Module) (i : InstId) : Json :=
  let x := m.insts.get i
  let place : Fields := match x.block with
    | some b => [("len", (m.blocks.get b).insts.length)]
    | none => []
  record [("inst", x.op.name), ("type", ofLabel m x.type),
    ("operands", (m.allOperands i).length), ("effects", m.hasEffects i)] place

instance : Command (Build InstId) where
  run x _ j := building x fun i => do
    naming j (Value.inst i)
    return ofInst (← module) i

end Midlevel.Service.Session
