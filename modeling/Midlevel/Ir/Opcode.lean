import Midlevel.Text

/-!
What an instruction does, and the machine primitives that the `primitive` opcode applies.
-/

namespace Midlevel.Ir

inductive Opcode where
  | invalid
  | intLiteral
  | boolLiteral
  | stringLiteral
  | primitive
  | alloc
  | load
  | store
  | copyAddr
  | br
  | condBr
  | ret
  | trap
  | call
  | apply
  | struct
  | structExtract
  | structElementPtr
  | tupleElementPtr
  | tuple
  | tupleExtract
  | named
  | existentialBox
  | existentialWitness
  | existentialProject
  | existentialPropertyPtr
  | existentialRetain
  | existentialRelease
  | allocObject
  | retainObject
  | releaseObject
  | deallocObject
  | other (code : UInt8)
  deriving DecidableEq, Inhabited

namespace Opcode

def known : List Opcode :=
  [invalid, intLiteral, boolLiteral, stringLiteral, primitive, alloc, load, store, copyAddr, br,
   condBr, ret, trap, call, apply, struct, structExtract, structElementPtr, tupleElementPtr, tuple,
   tupleExtract, named, existentialBox, existentialWitness, existentialProject,
   existentialPropertyPtr, existentialRetain, existentialRelease, allocObject, retainObject,
   releaseObject, deallocObject]

def ofCode (n : UInt8) : Opcode := (known[n.toNat]?).getD (other n)

def name : Opcode → Text
  | invalid => "invalid"
  | intLiteral => "int_literal"
  | boolLiteral => "bool_literal"
  | stringLiteral => "string_literal"
  | primitive => "builtin"
  | alloc => "alloc"
  | load => "load"
  | store => "store"
  | copyAddr => "copy_addr"
  | br => "br"
  | condBr => "cond_br"
  | ret => "return"
  | trap => "trap"
  | call => "call"
  | apply => "apply"
  | struct => "struct"
  | structExtract => "struct_extract"
  | structElementPtr => "struct_element_ptr"
  | tupleElementPtr => "tuple_element_ptr"
  | tuple => "tuple"
  | tupleExtract => "tuple_extract"
  | named => "variable"
  | existentialBox => "existential_box"
  | existentialWitness => "existential_witness"
  | existentialProject => "existential_project"
  | existentialPropertyPtr => "existential_property_ptr"
  | existentialRetain => "existential_retain"
  | existentialRelease => "existential_release"
  | allocObject => "alloc_object"
  | retainObject => "retain_object"
  | releaseObject => "release_object"
  | deallocObject => "dealloc_object"
  | other n => "Opcode(" ++ Text.ofNat n.toNat ++ ")"

def isTerminator : Opcode → Bool
  | br | condBr | ret | trap => true
  | _ => false

end Opcode

inductive PrimitiveClass where
  | intChecked
  | intBinary
  | intCompare
  | boolBinary
  | boolUnary
  | floatBinary
  | floatCompare
  | condFail
  | heapAlloc
  | heapFree
  | advance
  | memCopy
  | opaqueLoad
  | opaqueStore
  | intCast (width : Nat)
  | unique
  deriving DecidableEq

namespace PrimitiveClass

def operands : PrimitiveClass → Nat
  | intChecked | intBinary | intCompare | boolBinary | floatBinary | floatCompare | advance
  | opaqueStore => 2
  | memCopy => 3
  | boolUnary | condFail | heapAlloc | heapFree | opaqueLoad | intCast _ | unique => 1

def hasEffects : PrimitiveClass → Bool
  | condFail | heapFree | memCopy | opaqueStore => true
  | _ => false

end PrimitiveClass

inductive Primitive where
  | invalid
  | iAdd | iSub | iMul
  | iAddUnchecked | iSubUnchecked | iMulUnchecked
  | iDiv | iRem | iPow | iShl | iShr | iAnd | iOr | iXor
  | iEq | iNeq | iLt | iGt | iLte | iGte
  | bAnd | bOr | bNot | bEq | bNeq
  | fAdd | fSub | fMul | fDiv | fRem
  | fEq | fNeq | fLt | fGt | fLte | fGte
  | condFail
  | heapAlloc | heapFree | advancePointer | memCopy | opaqueLoad | opaqueStore
  | trunc8 | trunc16 | trunc32 | sext64 | zext64
  | isUniquelyReferenced
  | other (code : UInt8)
  deriving DecidableEq

namespace Primitive

def known : List Primitive :=
  [invalid, iAdd, iSub, iMul, iAddUnchecked, iSubUnchecked, iMulUnchecked, iDiv, iRem, iPow, iShl,
   iShr, iAnd, iOr, iXor, iEq, iNeq, iLt, iGt, iLte, iGte, bAnd, bOr, bNot, bEq, bNeq, fAdd, fSub,
   fMul, fDiv, fRem, fEq, fNeq, fLt, fGt, fLte, fGte, condFail, heapAlloc, heapFree,
   advancePointer, memCopy, opaqueLoad, opaqueStore, trunc8, trunc16, trunc32, sext64, zext64,
   isUniquelyReferenced]

def ofCode (n : UInt8) : Primitive := (known[n.toNat]?).getD (other n)

def code : Primitive → Nat
  | other n => n.toNat
  | p => known.idxOf p

def name : Primitive → Text
  | invalid => "invalid"
  | iAdd => "i_add"
  | iSub => "i_sub"
  | iMul => "i_mul"
  | iAddUnchecked => "i_add_unchecked"
  | iSubUnchecked => "i_sub_unchecked"
  | iMulUnchecked => "i_mul_unchecked"
  | iDiv => "i_div"
  | iRem => "i_rem"
  | iPow => "i_pow"
  | iShl => "i_shl"
  | iShr => "i_shr"
  | iAnd => "i_and"
  | iOr => "i_or"
  | iXor => "i_xor"
  | iEq => "i_eq"
  | iNeq => "i_neq"
  | iLt => "i_cmp_lt"
  | iGt => "i_cmp_gt"
  | iLte => "i_cmp_lte"
  | iGte => "i_cmp_gte"
  | bAnd => "b_and"
  | bOr => "b_or"
  | bNot => "b_not"
  | bEq => "b_eq"
  | bNeq => "b_neq"
  | fAdd => "f_add"
  | fSub => "f_sub"
  | fMul => "f_mul"
  | fDiv => "f_div"
  | fRem => "f_rem"
  | fEq => "f_eq"
  | fNeq => "f_neq"
  | fLt => "f_cmp_lt"
  | fGt => "f_cmp_gt"
  | fLte => "f_cmp_lte"
  | fGte => "f_cmp_gte"
  | condFail => "cond_fail"
  | heapAlloc => "heap_alloc"
  | heapFree => "heap_free"
  | advancePointer => "advance_pointer"
  | memCopy => "mem_copy"
  | opaqueLoad => "opaque_load"
  | opaqueStore => "opaque_store"
  | trunc8 => "trunc_int_8"
  | trunc16 => "trunc_int_16"
  | trunc32 => "trunc_int_32"
  | sext64 => "sext_int_64"
  | zext64 => "zext_int_64"
  | isUniquelyReferenced => "is_uniquely_referenced"
  | other n => "BuiltinKind(" ++ Text.ofNat n.toNat ++ ")"

def class? : Primitive → Option PrimitiveClass
  | iAdd | iSub | iMul => some .intChecked
  | iAddUnchecked | iSubUnchecked | iMulUnchecked | iDiv | iRem | iPow | iShl | iShr | iAnd | iOr
  | iXor => some .intBinary
  | iEq | iNeq | iLt | iGt | iLte | iGte => some .intCompare
  | bAnd | bOr | bEq | bNeq => some .boolBinary
  | bNot => some .boolUnary
  | fAdd | fSub | fMul | fDiv | fRem => some .floatBinary
  | fEq | fNeq | fLt | fGt | fLte | fGte => some .floatCompare
  | condFail => some .condFail
  | heapAlloc => some .heapAlloc
  | heapFree => some .heapFree
  | advancePointer => some .advance
  | memCopy => some .memCopy
  | opaqueLoad => some .opaqueLoad
  | opaqueStore => some .opaqueStore
  | trunc8 => some (.intCast 8)
  | trunc16 => some (.intCast 16)
  | trunc32 => some (.intCast 32)
  | sext64 | zext64 => some (.intCast 64)
  | isUniquelyReferenced => some .unique
  | invalid | other _ => none

def operands (p : Primitive) : Nat := (p.class?.map (·.operands)).getD 0

def hasEffects (p : Primitive) : Bool := (p.class?.map (·.hasEffects)).getD false

def ofName? (name : Text) : Option Primitive :=
  known.find? fun p => p ≠ .invalid ∧ p.name = name

end Primitive

end Midlevel.Ir
