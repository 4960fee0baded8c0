import Midlevel.Lowering.Accessor
import Midlevel.Lowering.Scope

/-!
Lowering of expressions. Arguments are retained by the caller and released by the callee; results
come without a reference of their own.
-/

namespace Midlevel.Lowering

open Ir Midlevel.Tree Lower Build

abbrev Vars := Scope Accessor

/-- The narrowest encoding in which every character of a text is one code unit. -/
def encodingOf (text : Text) : Encoding := if text.isAscii then .utf8 else .utf16

def registers (vs : List Value) : List (Option Value) := vs.map some

def result (x : Build InstId) (temporary : Bool) : Lower Accessor := do
  accessorFor (.inst (← build x)) temporary

/-- An integer is wrapped in the library's type unless it is typed as a machine integer. -/
def emitInt (type : TypeRef) (value : Int64) : Lower Accessor := do
  let t ← build (resolveType type)
  let int := (← read).int
  if t ≠ int then result (intLiteral value t) false
  else
    let lit ← build (intLiteral value .int64)
    result (Build.struct int [some (.inst lit)]) false

def emitBool (type : TypeRef) (value : Bool) : Lower Accessor := do
  let t ← build (resolveType type)
  let bool := (← read).bool
  let lit ← build (boolLiteral value)
  if t ≠ bool then accessorFor (.inst lit) false
  else result (Build.struct bool [some (.inst lit)]) false

def emitVarRef (s : Vars) (name : Text) : Lower Accessor :=
  match s.find? name with
  | some a => return a
  | none => fail (.because .unknownVariable name)

/-- The receiver is passed by reference; a reference to an object is retained like any argument. -/
def receiver (a : Accessor) : Lower Value := do
  if (← types).isRefCounted (← a.type) then a.retained .none else a.spilled

/-- A field of what `a` holds: its address if `a` has one, else the field's value. -/
def emitField (a : Accessor) (name : Text) : Lower Accessor := do
  if (← types).kind (← a.type) = .concept then return .place (← boxedProperty a name)
  match ← a.base? with
  | some base => return .place (← slotAt (← fieldAddress base name))
  | none =>
    let v ← a.read
    let t ← typeOf v
    if (← types).kind t ≠ .struct then
      fail (.because .unsupported ("field " ++ name ++ " of " ++ (← types).label t))
    result (structExtract (some v) name) false

/-- An instance from the values of its fields. A heap instance is a fresh object. -/
def emitInstance (struct : TypeId) (fields : List Member) (values : List Value) :
    Lower Accessor := do
  if !(← types).isHeapAllocated struct then result (Build.struct struct (registers values)) true
  else
    let object ← build (allocObject struct)
    (fields.zip values).forM fun (f, v) => do
      let p ← fieldAddress (.inst object) f.name
      discard (build (store (some v) (some p)))
    accessorFor (.inst object) true

def checkArity (have_ want : Nat) : Lower Unit := do
  if have_ ≠ want then
    fail (.because .operandCount
      (Text.ofNat have_ ++ " arguments for " ++ Text.ofNat want ++ " parameters"))

def loweredParams (t : TypeId) : Lower (List TypeId) := build (onTypes (·.loweredParams t))

mutual

def emitExpr (s : Vars) : Expr → Lower Accessor
  | ⟨code, type, int, bool, text, name, callee, object, args, index⟩ => do
    match ExprKind.ofCode code with
    | .int => emitInt type int
    | .bool => emitBool type bool
    | .string => result (stringLiteral text (encodingOf text)) false
    | .var => emitVarRef s name
    | .call =>
      match Text.dropPrefix? "Builtin." callee with
      | some op =>
        match Primitive.ofName? op with
        | none => fail (.because .unsupported ("builtin " ++ op))
        | some p =>
          let vs ← emitValues s args
          result (primitive p (registers vs)) false
      | none =>
        let f ← build (resolve callee)
        let fn ← build (func f)
        let params ← loweredParams fn.type
        let vs ← naming ("@" ++ fn.name) do
          checkArity args.length params.length
          emitArgs s args params
        result (call (some f) (registers vs)) true
    | .methodCall =>
      match object with
      | none => missing
      | some o =>
        let a ← emitExpr s o
        if (← types).kind (← a.type) = .concept then
          let box ← a.read
          let witness ← build (existentialWitness (some box) name)
          build (setName (.inst witness) name)
          let self ← build (existentialProject (some box))
          let params ← loweredParams (← typeOf (.inst witness))
          let vs ← naming name do
            checkArity args.length (params.length - 1)
            emitArgs s args (params.drop 1)
          result (apply (some (.inst witness)) (registers (.inst self :: vs))) true
        else
          let f ← build (resolve callee)
          let fn ← build (func f)
          let sig ← build (signature f)
          if sig.conv ≠ .method then
            fail (.within ("@" ++ fn.name) (.because .unsupported "not a method"))
          let self ← receiver a
          let vs ← naming ("@" ++ fn.name) do
            checkArity args.length sig.params.length
            emitArgs s args sig.params
          result (call (some f) (registers (self :: vs))) true
    | .field =>
      match object with
      | none => missing
      | some o =>
        let a ← emitExpr s o
        emitField a name
    | .tuple =>
      let vs ← emitValues s args
      result (tuple (registers vs)) true
    | .tupleIndex =>
      match object with
      | none => missing
      | some o =>
        let a ← emitExpr s o
        let v ← a.read
        result (tupleExtract (some v) index.toInt) false
    | .struct =>
      let struct ← build (nominalType type)
      let fields := (← types).structFields struct
      if fields.length ≠ args.length then
        fail (.because .operandCount
          (Text.ofNat args.length ++ " values for " ++ Text.ofNat fields.length ++
            " fields of " ++ type.text))
      let vs ← emitArgs s args (fields.map (·.type))
      emitInstance struct fields vs
    | .invalid => fail (.because .unsupported ("expression kind " ++ Text.ofNat code.toNat))

def emitValues (s : Vars) : List Expr → Lower (List Value)
  | [] => return []
  | e :: es => do
    let a ← emitExpr s e
    let v ← a.read
    return v :: (← emitValues s es)

/-- The values of arguments for parameters of these types, from left to right, each retained. -/
def emitArgs (s : Vars) : List Expr → List TypeId → Lower (List Value)
  | e :: es, t :: ts => do
    let a ← emitExpr s e
    let v ← a.retained t
    return v :: (← emitArgs s es ts)
  | _, _ => return []

end

def emitCondition (s : Vars) (e : Expr) : Lower Value := do
  let a ← emitExpr s e
  let v ← a.read
  if (← typeOf v) ≠ (← read).bool then return v
  let c ← build (structExtract (some v) "value")
  build (setName (.inst c) "cond")
  return .inst c

def emitBound (s : Vars) (e : Expr) : Lower Value := do
  let a ← emitExpr s e
  let v ← a.read
  if (← typeOf v) ≠ (← read).int then return v
  return .inst (← build (structExtract (some v) "value"))

def emitPlace (s : Vars) : Expr → Lower Place
  | ⟨code, _, _, _, _, name, _, object, _, index⟩ => do
    match ExprKind.ofCode code with
    | .var =>
      match s.find? name with
      | none => fail (.because .unknownVariable name)
      | some (.place p) => return p
      | some _ => fail (.because .notAssignable (name ++ " is immutable"))
    | .field =>
      match object with
      | none => missing
      | some o =>
        let a ← emitExpr s o
        if (← types).kind (← a.type) = .concept then boxedProperty a name
        else
          match ← a.base? with
          | none => fail (.because .notAssignable ("field " ++ name ++ " of a register value"))
          | some base => slotAt (← fieldAddress base name)
    | .tupleIndex =>
      match object with
      | none => missing
      | some o =>
        let p ← emitPlace s o
        let a ← p.address
        slotAt (.inst (← build (tupleElementPtr (some a) index.toInt)))
    | kind => fail (.because .notAssignable (kind.name ++ " expression"))

end Midlevel.Lowering
