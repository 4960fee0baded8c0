import Midlevel.Text

/-!
Types are named by ids into a table (`Type/Table`). A descriptor says what kind of type an id stands
for and what it refers to: an element type, a bit width, or a slot of one of the side tables that
hold tuples, structs, concepts and signatures.
-/

namespace Midlevel

structure TypeId where
  index : Nat
  deriving DecidableEq, Inhabited

namespace TypeId

def none : TypeId := ⟨0⟩

/-! The machine types stand at fixed positions of every table. -/

def void : TypeId := ⟨1⟩
def bool : TypeId := ⟨2⟩
def int8 : TypeId := ⟨3⟩
def int16 : TypeId := ⟨4⟩
def int32 : TypeId := ⟨5⟩
def int64 : TypeId := ⟨6⟩
def float32 : TypeId := ⟨7⟩
def float64 : TypeId := ⟨8⟩
def opaquePointer : TypeId := ⟨9⟩

end TypeId

inductive TypeKind where
  | invalid
  | void
  | bool
  | int
  | float
  | opaquePointer
  | pointer
  | tuple
  | struct
  | concept
  | fn
  | refBox
  | other (code : UInt8)
  deriving DecidableEq, Inhabited

namespace TypeKind

def ofCode : UInt8 → TypeKind
  | 0 => invalid
  | 1 => void
  | 2 => bool
  | 3 => int
  | 4 => float
  | 5 => opaquePointer
  | 6 => pointer
  | 7 => tuple
  | 8 => struct
  | 9 => concept
  | 10 => fn
  | 11 => refBox
  | n => other n

def name : TypeKind → Text
  | invalid => "invalid"
  | void => "void"
  | bool => "bool"
  | int => "int"
  | float => "float"
  | opaquePointer => "opaque_pointer"
  | pointer => "pointer"
  | tuple => "tuple"
  | struct => "struct"
  | concept => "concept"
  | fn => "fn"
  | refBox => "refbox"
  | other n => "Kind(" ++ Text.ofNat n.toNat ++ ")"

end TypeKind

/-- How a function type is called. Methods and deinitialisers receive an implicit self. -/
inductive CallConv where
  | free
  | method
  | initialiser
  | deinitialiser
  | other (code : UInt8)
  deriving DecidableEq, Inhabited

namespace CallConv

def ofCode : UInt8 → CallConv
  | 0 => free
  | 1 => method
  | 2 => initialiser
  | 3 => deinitialiser
  | n => other n

def name : CallConv → Text
  | free => "&thin"
  | method => "&method"
  | initialiser => "&init"
  | deinitialiser => "&deinit"
  | other n => "&conv(" ++ Text.ofNat n.toNat ++ ")"

end CallConv

structure TypeDesc where
  kind : TypeKind
  /-- The pointee of a pointer, the struct of a refcounted box. -/
  elem : TypeId := .none
  width : Nat := 0
  /-- The slot of a tuple, struct, concept or function in its side table, counted from 1. -/
  payload : Nat := 0
  deriving DecidableEq, Inhabited

structure Member where
  name : Text
  type : TypeId
  deriving DecidableEq

structure StructInfo where
  name : Text
  fields : List Member
  /-- Instances are reference counted and passed by pointer. -/
  heap : Bool
  deriving DecidableEq

structure ConceptInfo where
  name : Text
  methods : List Member
  properties : List Member := []
  deriving DecidableEq

structure Signature where
  /-- Without the implicit self. -/
  params : List TypeId
  result : TypeId
  conv : CallConv
  /-- The receiver type, `TypeId.none` for a free function. -/
  self : TypeId
  deriving DecidableEq

end Midlevel
