import Midlevel.Ir.Basic
import Midlevel.Text.Utf8

/-!
The functions a module may call without defining them: the operators of the standard library, each a
wrapper around one primitive, and the routines that count references. They go by symbols: the name
of a function together with the initials of its parameter types, with operator characters spelled
out, so that a symbol may stand in a dump as it is.
-/

namespace Midlevel.Ir.Symbol

def operators : List (Char × Text) :=
  [('+', "-P"), ('-', "-M"), ('*', "-A"), ('/', "-D"), ('%', "-C"), ('~', "-T"),
    ('^', "-R"), ('<', "-L"),
   ('>', "-G"), ('=', "-E"), ('!', "-B"), ('&', "-N"), ('|', "-O"), ('.', "-S")]

def spell (c : Char) : Text := (operators.lookup c).getD (Text.ofChars [c])

/-- A machine type is spelled in full after `b`; any other type by its first byte. -/
def initial (type : Text) : Text :=
  match Text.dropPrefix? "Builtin." type with
  | some rest => "b" ++ rest
  | none => type.take 1

/-- `add` over two `Int` is `add_tII`, and `+` is `-P_tII`. -/
def mangle (name : Text) (params : List Text) : Text :=
  name.chars.flatMap spell ++ "_t" ++ params.flatMap initial

end Midlevel.Ir.Symbol

namespace Midlevel.Ir

structure LibraryOperator where
  name : Text
  operator : Text
  primitive : Primitive
  checked : Bool := false
  boolOperands : Bool := false
  predicate : Bool := false
  deriving DecidableEq

namespace LibraryOperator

def arithmetic (operator : Text) (primitive : Primitive) (checked : Bool) : LibraryOperator :=
  { name := Symbol.mangle operator ["Int", "Int"], operator, primitive, checked }

def comparison (operator : Text) (primitive : Primitive) : LibraryOperator :=
  { name := Symbol.mangle operator ["Int", "Int"], operator, primitive, predicate := true }

def connective (operator : Text) (primitive : Primitive) : LibraryOperator :=
  { name := Symbol.mangle operator ["Bool", "Bool"], operator, primitive, boolOperands := true,
    predicate := true }

def all : List LibraryOperator :=
  [arithmetic "*" .iMul true, arithmetic "+" .iAdd true, arithmetic "-" .iSub true,
   arithmetic "/" .iDiv false, arithmetic "%" .iRem false, arithmetic "~^" .iXor false,
   arithmetic "<<" .iShl false, arithmetic ">>" .iShr false, arithmetic "~&" .iAnd false,
   arithmetic "~|" .iOr false,
   comparison "<" .iLt, comparison ">" .iGt, comparison "<=" .iLte, comparison ">=" .iGte,
   comparison "==" .iEq, comparison "!=" .iNeq,
   connective "&&" .bAnd, connective "||" .bOr]

def named? (name : Text) : Option LibraryOperator := all.find? (·.name = name)

/-- Neither overflow nor a zero divisor can make the operator trap. -/
def isPure (op : LibraryOperator) : Bool :=
  !op.checked && op.primitive != .iDiv && op.primitive != .iRem

end LibraryOperator

/-- The wrapper structs `Int` and `Bool`, each around one machine value. -/
def libraryTypes (t : TypeTable) : (TypeId × TypeId) × TypeTable :=
  let (int, t) := t.declareStruct { name := "Int", fields := [⟨"value", .int64⟩], heap := false }
  let (bool, t) := t.declareStruct { name := "Bool", fields := [⟨"value", .bool⟩], heap := false }
  ((int, bool), t)

structure Prototype where
  type : TypeId
  visibility : Visibility
  readNone : Bool := false
  deriving DecidableEq

/-! ### The reference counting runtime -/

inductive Routine where
  | allocObject
  | retainObject
  | releaseObject
  | releaseUnownedObject
  | deallocObject
  | deallocUnownedObject
  | retainExistential
  | releaseExistential
  | releaseUnownedExistential
  deriving DecidableEq

namespace Routine

def name : Routine → Text
  | allocObject => "vir_alloc_object"
  | retainObject => "vir_retain_object"
  | releaseObject => "vir_release_object"
  | releaseUnownedObject => "vir_release_unowned_object"
  | deallocObject => "vir_dealloc_object"
  | deallocUnownedObject => "vir_dealloc_unowned_object"
  | retainExistential => "vir_retain_existential"
  | releaseExistential => "vir_release_existential"
  | releaseUnownedExistential => "vir_release_unowned_existential"

def all : List Routine :=
  [allocObject, retainObject, releaseObject, releaseUnownedObject, deallocObject,
   deallocUnownedObject, retainExistential, releaseExistential, releaseUnownedExistential]

def ofInst? (i : Inst) : Option Routine :=
  match i.op with
  | .allocObject => some allocObject
  | .retainObject => some retainObject
  | .releaseObject => some (if i.payload.unowned then releaseUnownedObject else releaseObject)
  | .deallocObject => some (if i.payload.unowned then deallocUnownedObject else deallocObject)
  | .existentialRetain => some retainExistential
  | .existentialRelease =>
    some (if i.payload.unowned then releaseUnownedExistential else releaseExistential)
  | _ => none

end Routine

namespace Provider

def declareOperator (t : TypeTable) (op : LibraryOperator) : Prototype × TypeTable :=
  let ((int, bool), t) := libraryTypes t
  let operand := if op.boolOperands then bool else int
  let result := if op.predicate then bool else int
  let (type, t) := t.freeFunction [operand, operand] result
  ({ type, visibility := .exported, readNone := op.isPure }, t)

def declareRoutine (t : TypeTable) (r : Routine) : Prototype × TypeTable :=
  let (type, t) :=
    match r with
    | .allocObject => t.freeFunction [.int64] .opaquePointer
    | _ => t.freeFunction [.opaquePointer] .void
  ({ type, visibility := .exported }, t)

def declare? (p : Provider) (t : TypeTable) (name : Text) : Option (Prototype × TypeTable) :=
  match p with
  | library => (LibraryOperator.named? name).map (declareOperator t)
  | objectRuntime => (Routine.all.find? (·.name = name)).map (declareRoutine t)

end Provider

end Midlevel.Ir
