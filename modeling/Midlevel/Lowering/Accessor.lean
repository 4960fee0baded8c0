import Midlevel.Lowering.Basic

/-!
Accessors: how a value is read and how its reference count is kept. Retaining and releasing emit
code only for values that are, or may hold, references.
-/

namespace Midlevel.Lowering

open Ir Lower Build

inductive Place where
  | slot (address : Value) (elem : TypeId)
  /-- The field at position `index` of the instance `self` refers to. It is addressed when it is
  first used in a block; an address from another block might not be defined on every path to
  this one. -/
  | field (self : Value) (index : Nat) (name : Text) (type : TypeId)
  deriving DecidableEq

/-- A temporary is a fresh result that nothing has retained yet. -/
inductive Accessor where
  | value (v : Value) (temporary : Bool)
  | box (v : Value) (temporary : Bool)
  | object (v : Value) (temporary : Bool)
  | place (p : Place)
  deriving DecidableEq

def accessorFor (v : Value) (temporary : Bool) : Lower Accessor := do
  let t ← typeOf v
  let types ← types
  if types.isRefCounted t then return .object v temporary
  else if types.kind t = .concept then return .box v temporary
  else return .value v temporary

def slotAt (address : Value) : Lower Place := do
  return .slot address (((← types).pointee? (← typeOf address)).getD .none)

/-! ### Counting references -/

inductive Change where
  | retain
  | release
  | releaseUnowned
  deriving DecidableEq

def Change.ofObject (c : Change) (v : Value) : Build InstId :=
  match c with
  | retain => Build.retain (some v)
  | release => Build.release (some v) false
  | releaseUnowned => Build.release (some v) true

def Change.ofBox (c : Change) (v : Value) : Build InstId :=
  match c with
  | retain => existentialRetain (some v)
  | release => existentialRelease (some v) false
  | releaseUnowned => existentialRelease (some v) true

/-- What a box was made from, if it was made in this function: `some none` if that is no reference.
Boxes are followed through at most `steps` names. -/
def payload (m : Module) : (steps : Nat) → Value → Option (Option Value)
  | steps + 1, .inst i =>
    match (m.insts.get i).op, m.operandAt i 0 with
    | .named, some v => payload m steps v
    | .existentialBox, some v =>
      some (if m.types.isRefCounted (m.valueType v) then some v else none)
    | _, _ => none
  | _, _ => none

/-- Changes the count of the instance in a box: directly if the box was made here, else through
the box. -/
def countBoxed (c : Change) (v : Value) : Lower Unit := do
  let m ← module
  match payload m m.insts.entries.size v with
  | some (some object) => discard (build (c.ofObject object))
  | some none => pure ()
  | none => discard (build (c.ofBox v))

def countRegister (c : Change) : Accessor → Lower Unit
  | .object v _ => discard (build (c.ofObject v))
  | .box v _ => countBoxed c v
  | .value _ _ | .place _ => pure ()

/-! ### Places -/

/-- The address to compute field addresses from: a slot with a reference in it is loaded first. -/
def baseOf (reference : Value) : Lower Value := do
  let types ← types
  match types.pointee? (← typeOf reference) with
  | some elem =>
    if types.isRefCounted elem then return .inst (← build (load (some reference)))
    else return reference
  | none => return reference

def fieldAddress (base : Value) (name : Text) : Lower Value :=
  return .inst (← build (structElementPtr (some base) name))

namespace Place

variable (p : Place)

def locate : Place → Lower (Value × TypeId)
  | slot address elem => return (address, elem)
  | field self index name _ => do
    let here ← build currentBlock
    let known := (← get).fields.find? fun (i, b, _) => i = index && some b = here
    let address ←
      match known with
      | some (_, _, address) => pure address
      | none =>
        let address ← fieldAddress (← baseOf self) name
        if let some b := here then modify fun s =>
          { s with fields := (index, b, address) :: s.fields }
        pure address
    return (address, ((← types).pointee? (← typeOf address)).getD .none)

def type : Place → TypeId
  | slot _ elem => elem
  | field _ _ _ type => type

def address : Lower Value := return (← p.locate).1

def read : Lower Value := do
  return .inst (← build (load (some (← p.address))))

def write (v : Value) : Lower Unit := do
  let a ← p.address
  discard (build (store (some v) (some a)))

/-- Changes the count of what the storage holds, if that may be a reference. -/
def count (c : Change) : Lower Unit := do
  let (address, elem) ← p.locate
  let types ← types
  if types.isRefCounted elem || types.kind elem = .concept then
    let v ← build (load (some address))
    countRegister c (← accessorFor (.inst v) false)

end Place

/-! ### Accessors -/

namespace Accessor

variable (a : Accessor)

def type : Accessor → Lower TypeId
  | value v _ | box v _ | object v _ => typeOf v
  | place p => return p.type

def temporary : Accessor → Bool
  | value _ t | box _ t | object _ t => t
  | place _ => false

def read : Accessor → Lower Value
  | value v _ | box v _ | object v _ => return v
  | place p => p.read

def count (a : Accessor) (c : Change) : Lower Unit :=
  match a with
  | place p => p.count c
  | _ => countRegister c a

/-- The value, put into a box if `expected` is a concept and not its type. -/
def readAs (expected : TypeId) : Lower Value := do
  let v ← a.read
  if expected = .none ∨ expected = (← typeOf v) ∨ (← types).kind expected ≠ .concept then return v
  else return .inst (← build (existentialBox (some v) expected))

/-- The value for a new binding of type `expected`, which gets a reference of its own. -/
def retained (expected : TypeId) : Lower Value := do
  a.count .retain
  a.readAs expected

def reference? : Accessor → Lower (Option Value)
  | object v _ => return some v
  | place p => return some (← p.address)
  | value _ _ | box _ _ => return none

/-- An address that holds the value; a register is stored in a slot of its own. -/
def spilled : Lower Value := do
  match ← a.reference? with
  | some v => return v
  | none =>
    let v ← a.read
    let slot ← build (alloc (← typeOf v))
    discard (build (store (some v) (some (.inst slot))))
    return .inst slot

def base? : Lower (Option Value) := do
  match ← a.reference? with
  | some r => return some (← baseOf r)
  | none => return none

end Accessor

def boxedProperty (a : Accessor) (name : Text) : Lower Place := do
  let v ← a.read
  slotAt (.inst (← build (existentialPropertyPtr (some v) name)))

end Midlevel.Lowering
