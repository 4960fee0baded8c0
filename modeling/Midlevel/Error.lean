import Midlevel.Layout.Basic

/-!
Failures. An error names its cause and the places it passed on its way out; its code classifies the
cause for diagnostics. A crash is a broken invariant and has no code.
-/

namespace Midlevel

inductive Cause where
  | operandCount
  | operandType
  | paramsNotTyped
  | hasBody
  | noParamNamed
  | instNotInBlock
  | blockNotInFunction
  | noFunctionBody
  | noInsertPoint
  | blockTerminated
  | functionExists
  | unknownField
  | unknownMethod
  | notFunction
  | unknownFunction
  | invalidType
  | functionInUse
  | emptyExplosion
  | entryBlock
  | terminatorMismatch
  | verifyFailed
  | unknownVariable
  | unknownType
  | notAssignable
  | unsupported
  | missingValue
  | noModule
  | unknownKey
  | malformedTree
  | internal
  deriving DecidableEq

namespace Cause

def entry : Cause → UInt16 × Text
  | operandCount => (1001, "wrong number of operands")
  | operandType => (1002, "operand type mismatch")
  | paramsNotTyped => (1003, "block application does not match block parameters")
  | hasBody => (1004, "function already has a body")
  | noParamNamed => (1005, "no parameter with that name")
  | instNotInBlock => (1006, "instruction is not in block")
  | blockNotInFunction => (1007, "block is not in function")
  | noFunctionBody => (1008, "function has no body")
  | noInsertPoint => (1009, "builder has no insert point")
  | blockTerminated => (1010, "block already has a terminator")
  | functionExists => (1011, "function already exists")
  | unknownField => (1012, "unknown struct field")
  | unknownMethod => (1013, "unknown concept method")
  | notFunction => (1014, "value is not a function")
  | unknownFunction => (1015, "unknown function")
  | invalidType => (1016, "invalid type")
  | functionInUse => (1017, "function still has uses")
  | emptyExplosion => (1018, "explosion built no instructions")
  | entryBlock => (1019, "entry block cannot be removed")
  | terminatorMismatch => (1020, "replacement does not match terminator kind")
  | verifyFailed => (1100, "verification failed")
  | unknownVariable => (2001, "unknown variable")
  | unknownType => (2002, "unknown type")
  | notAssignable => (2003, "expression is not assignable")
  | unsupported => (2004, "unsupported construct")
  | missingValue => (2005, "statement is missing its value")
  | noModule => (3101, "backend: nil module")
  | unknownKey => (4001, "unknown configuration key")
  | malformedTree => (4101, "malformed typed AST")
  | internal => (9001, "internal compiler error")

def message (c : Cause) : Text := c.entry.2

/-- Causes in the order in which an error that wraps several is classified. -/
def precedence : List Cause :=
  [.internal, .verifyFailed,
   .unknownVariable, .unknownType, .notAssignable, .unsupported, .missingValue,
   .operandCount, .operandType, .paramsNotTyped, .hasBody, .noParamNamed, .instNotInBlock,
   .blockNotInFunction, .noFunctionBody, .noInsertPoint, .blockTerminated, .functionExists,
   .unknownField, .unknownMethod, .notFunction, .unknownFunction, .invalidType, .functionInUse,
   .emptyExplosion, .entryBlock, .terminatorMismatch,
   .noModule, .unknownKey, .malformedTree]

end Cause

/-- A diagnostic code. Published codes keep their meaning. -/
structure Code where
  number : UInt16
  deriving DecidableEq

namespace Code

def unknown : Code := ⟨0⟩

def ofCause (c : Cause) : Code := ⟨c.entry.1⟩

def ofLayout : LayoutError → Code
  | .recursive .. => ⟨3001⟩
  | .overflow .. => ⟨3003⟩
  | .unsized .. | .other .. => ⟨3002⟩

/-- What the cause says, with a capital letter, for codes without a title of their own. -/
def title (c : Code) : Text :=
  match c.number with
  | 1100 => "IR verification failed"
  | 3001 => "Recursive value type"
  | 3002 => "Type has no memory layout"
  | 3003 => "Type size overflows the target"
  | 3101 => "Backend received no module"
  | 4101 => "Malformed input"
  | _ => match Cause.precedence.find? (ofCause · = c) with
    | some cause => cause.message.modifyHead (· - 32)
    | none => "Unknown error"

def id (c : Code) : Text := "VIR" ++ Text.ofNatPadded 4 c.number.toNat

def text (c : Code) : Text := "[" ++ c.id ++ "]: " ++ c.title

end Code

inductive Error where
  | plain (text : Text)
  | cause (c : Cause)
  | layout (e : LayoutError)
  | within (context : Text) (e : Error)
  | followed (e : Error) (rest : Text)
  | tagged (c : Cause) (e : Error)
  | joined (es : List Error)

namespace Error

mutual

def message : Error → Text
  | plain t => t
  | cause c => c.message
  | layout e => e.message
  | within context e => context ++ ": " ++ e.message
  | followed e rest => e.message ++ rest
  | tagged c e => c.message ++ ": " ++ e.message
  | joined es => Text.join "\n" (messages es)

def messages : List Error → List Text
  | [] => []
  | e :: es => e.message :: messages es

end

mutual

def causes : Error → List Cause
  | plain _ | layout _ => []
  | cause c => [c]
  | within _ e | followed e _ => e.causes
  | tagged c e => c :: e.causes
  | joined es => causesOf es

def causesOf : List Error → List Cause
  | [] => []
  | e :: es => e.causes ++ causesOf es

end

mutual

def layoutErrors : Error → List LayoutError
  | plain _ | cause _ => []
  | layout e => [e]
  | within _ e | followed e _ | tagged _ e => e.layoutErrors
  | joined es => layoutErrorsOf es

def layoutErrorsOf : List Error → List LayoutError
  | [] => []
  | e :: es => e.layoutErrors ++ layoutErrorsOf es

end

/-- A layout error decides the code; otherwise the cause that comes first in precedence. -/
def code (e : Error) : Code :=
  match e.layoutErrors with
  | l :: _ => .ofLayout l
  | [] =>
    match Cause.precedence.find? (· ∈ e.causes) with
    | some c => .ofCause c
    | none => .unknown

def because (c : Cause) (detail : Text) : Error := followed (cause c) (": " ++ detail)

def join? : List Error → Option Error
  | [] => none
  | es => some (joined es)

end Error

inductive Crash where
  | corruptUses
  | stillUsed (op block : Text) (uses : Nat)
  | danglingBranch (block pred : Text)
  | usedParam (block param : Text)
  | usedResult (block op : Text)
  | notFunctionTyped (function : Text)
  | invalidTypeId
  | invalidModule (module pass violations : Text)
  | absent
  | raised (text : Text)
  deriving DecidableEq

namespace Crash

def message : Crash → Text
  | corruptUses => "vir: use-list corrupted: operand is not registered on its value"
  | stillUsed op block uses =>
    "vir: erasing " ++ op ++ " in #" ++ block ++ " which still has " ++ Text.ofNat uses ++ " uses"
  | danglingBranch block pred =>
    "vir: erasing #" ++ block ++ " leaves a dangling branch from #" ++ pred
  | usedParam block param =>
    "vir: erasing #" ++ block ++ " whose parameter %" ++ param ++ " is still used"
  | usedResult block op => "vir: erasing #" ++ block ++ " whose " ++ op ++ " is still used"
  | notFunctionTyped function => "vir: function @" ++ function ++ " has non-function type"
  | invalidTypeId => "types: invalid TypeID"
  | invalidModule module pass violations =>
    "opt: module " ++ module ++ " is invalid after pass " ++ pass ++ ":\n" ++ violations
  | absent => "runtime error"
  | raised text => text

end Crash

inductive Fault where
  | error (e : Error)
  | crash (c : Crash)

end Midlevel
