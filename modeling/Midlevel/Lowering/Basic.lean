import Midlevel.Ir.Edit
import Midlevel.Tree.Basic

/-!
The setting in which a body is lowered, and the types that trees refer to.
-/

namespace Midlevel.Lowering

open Ir Midlevel.Tree

structure Env where
  int : TypeId
  bool : TypeId
  func : FuncId
  /-- The body is that of an initialiser, whose fields hold nothing at first. -/
  initialising : Bool := false
  deriving Inhabited

/-- The code built so far, and for each field of self that was addressed the block of its latest
address. -/
structure Site where
  builder : Builder
  fields : List (Nat × BlockId × Value) := []

abbrev Lower := ReaderT Env (ExceptT Fault (StateM Site))

namespace Lower

variable {α : Type}

def build (x : Build α) : Lower α := do
  let s ← get
  let (outcome, builder) := x.run.run s.builder
  set { s with builder }
  match outcome with
  | .ok a => return a
  | .error f => throw f

def fail (e : Error) : Lower α := throw (.error e)

def missing : Lower α := fail (.cause .missingValue)

def types : Lower TypeTable := return (← get).builder.module.types

def module : Lower Ir.Module := return (← get).builder.module

def typeOf (v : Value) : Lower TypeId := return (← module).valueType v

def naming (place : Text) (x : Lower α) : Lower α := do
  try x
  catch
    | .error e => throw (.error (.within place e))
    | .crash c => throw (.crash c)

def terminated : Lower Bool := do
  match ← build Build.currentBlock with
  | none => return true
  | some b => return ((← module).terminator b).isSome

end Lower

def because {α : Type} (c : Cause) (detail : Text) : Build α := Build.fail (.because c detail)

/-! ### Types -/

def machineType? (name : Text) : Option TypeId :=
  ([("Builtin.Void", .void), ("Builtin.Bool", .bool), ("Builtin.Int8", .int8),
    ("Builtin.Int16", .int16),
    ("Builtin.Int32", .int32), ("Builtin.Int64", .int64), ("Builtin.Float32", .float32),
    ("Builtin.Float64", .float64), ("Builtin.OpaquePointer", .opaquePointer)] :
      List (Text × TypeId)).lookup name

mutual

/-- The type of the values of a type: instances of heap structs are references. -/
def resolveType : TypeRef → Build TypeId
  | ⟨code, name, elems⟩ => do
    let unknown : Build TypeId := because .unknownType (TypeRef.text ⟨code, name, elems⟩)
    match code with
    | 0 => return .void
    | 1 =>
      match machineType? name with
      | some t => return t
      | none => unknown
    | 2 =>
      match (← Build.types).nominal? name with
      | none => unknown
      | some t =>
        if (← Build.types).isHeapAllocated t then Build.onTypes (·.reference t) else return t
    | 3 =>
      let ts ← resolveTypes elems
      Build.onTypes (·.tuple ts)
    | _ => unknown

def resolveTypes : List TypeRef → Build (List TypeId)
  | [] => return []
  | t :: ts => do
    let t ← resolveType t
    return t :: (← resolveTypes ts)

end

def nominalType (t : TypeRef) : Build TypeId := do
  let unknown : Build TypeId := because .unknownType t.text
  if t.code ≠ 2 then unknown
  else match (← Build.types).nominal? t.name with
    | some id => return id
    | none => unknown

def within {α : Type} (place : Text) (x : Build α) : Build α := do
  try x
  catch
    | .error e => throw (.error (.within place e))
    | .crash c => throw (.crash c)

def resolveParams (params : List Tree.Param) : Build (List TypeId) :=
  params.mapM fun p => within ("parameter " ++ p.name) (resolveType p.type)

end Midlevel.Lowering
