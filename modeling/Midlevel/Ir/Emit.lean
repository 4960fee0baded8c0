import Midlevel.Ir.Function
import Midlevel.Text.Normal

/-!
Building instructions at the cursor. Every constructor checks its operands against the typing rule
of its opcode before anything is attached; an operand that is missing is reported like one of the
wrong type.
-/

namespace Midlevel.Ir.Build

variable {α : Type}

/-! ### Attaching -/

def checkAttach (op : Opcode) : Build BlockId := do
  let m ← module
  let c ← cursor
  match c.block with
  | none => fail (.within op.name (.cause .noInsertPoint))
  | some b =>
    let blk := m.blocks.get b
    if blk.func.isNone then fail (.within op.name (.cause .noInsertPoint))
    match c.before with
    | some i =>
      if (m.insts.get i).block ≠ some b then
        fail (.within (op.name ++ ": insert point") (.cause .instNotInBlock))
      if op.isTerminator then
        fail (.within (op.name ++ " before " ++ (m.insts.get i).op.name ++ " in #" ++ blk.name)
          (.cause .blockTerminated))
      return b
    | none =>
      if (m.terminator b).isSome then
        fail (.within (op.name ++ " in #" ++ blk.name) (.cause .blockTerminated))
      return b

def insertBefore (i : InstId) (before : Option InstId) (is : List InstId) : List InstId :=
  match before with
  | none => is ++ [i]
  | some j => is.takeWhile (· ≠ j) ++ i :: is.dropWhile (· ≠ j)

def attach (i : InstId) (b : BlockId) : Build Unit := do
  let before := (← cursor).before
  modifyBlock b fun blk => { blk with insts := insertBefore i before blk.insts }
  modifyInst i ({ · with block := some b, erased := false })
  modify fun s => { s with journal := s.journal.map (· ++ [i]) }

def newInst (i : Inst) (operands : List (Option Value)) : Build InstId := do
  let id := (← module).insts.next
  modifyModule fun m => { m with insts := m.insts.push i }
  let os ← modifyGet fun b =>
    let (os, m) := b.module.newOperands operands (some id)
    (os, { b with module := m })
  modifyInst id ({ · with operands := os })
  return id

def emit (i : Inst) (operands : List (Option Value)) : Build InstId := do
  let b ← checkAttach i.op
  let id ← newInst i operands
  attach id b
  return id

/-! ### Checking operands -/

def operandError (op : Opcode) (n : Nat) (detail : Text) : Error :=
  .within op.name (.within ("operand " ++ Text.ofNat n) (.because .operandType detail))

/-- An operand must be there and have the type `want`; `TypeId.none` wants no type in particular. -/
def checkOperand (op : Opcode) (n : Nat) (v : Option Value) (want : TypeId) : Build Value := do
  match v with
  | none => fail (operandError op n "nil value")
  | some v =>
    let have_ := (← module).valueType v
    if want ≠ .none ∧ have_ ≠ want then
      fail (operandError op n ("have " ++ (← label have_) ++ ", want " ++ (← label want)))
    return v

def checkKind (op : Opcode) (n : Nat) (v : Option Value) (kind : TypeKind) : Build Value := do
  match v with
  | none => fail (operandError op n "nil value")
  | some v =>
    let have_ := (← module).valueType v
    if (← types).kind have_ ≠ kind then
      fail (operandError op n ("have " ++ (← label have_) ++ ", want " ++ kind.name))
    return v

def countError (have_ want : Nat) : Error :=
  .because .operandCount ("have " ++ Text.ofNat have_ ++ ", want " ++ Text.ofNat want)

def checkCount (op : Opcode) (have_ want : Nat) : Build Unit := do
  if have_ ≠ want then fail (.within op.name (countError have_ want))

def checkOperands (op : Opcode) (n : Nat) : List (Option Value) → List TypeId → Build Unit
  | v :: vs, t :: ts => do
    let _ ← checkOperand op n v t
    checkOperands op (n + 1) vs ts
  | _, _ => pure ()

def typeOf (v : Value) : Build TypeId := return (← module).valueType v

/-! ### Literals -/

def intLiteral (value : Int64) (type : TypeId) : Build InstId := do
  if !(← types).isInt type then
    fail (.within Opcode.intLiteral.name (.because .invalidType (← label type)))
  emit { op := .intLiteral, type, payload := { int := value } } []

def boolLiteral (value : Bool) : Build InstId :=
  emit { op := .boolLiteral, type := .bool, payload := { bool := value } } []

/-- A pointer to constant text, which is kept canonically composed. -/
def stringLiteral (text : Text) (encoding : Encoding) : Build InstId :=
  emit { op := .stringLiteral, type := .opaquePointer,
         payload := { text := text.toNfc, encoding } } []

/-! ### Primitives -/

def alike (types : TypeTable) (kind : TypeKind) (args : List TypeId) : Except Error TypeId :=
  match args with
  | [] => .ok .none
  | t :: ts =>
    if types.kind t ≠ kind then
      .error (.because .operandType ("have " ++ types.label t ++ ", want " ++ kind.name))
    else match ts.find? (· ≠ t) with
      | some u =>
        .error (.because .operandType ("operands " ++ types.label t ++ " and " ++
          types.label u ++ " differ"))
      | none => .ok t

def exactly (types : TypeTable) (n : Nat) : (args want : List TypeId) → Except Error Unit
  | a :: as, w :: ws =>
    if a = w then exactly types (n + 1) as ws
    else .error (.within ("operand " ++ Text.ofNat n)
      (.because .operandType ("have " ++ types.label a ++ ", want " ++ types.label w)))
  | _, _ => .ok ()

def primitiveResult (types : TypeTable) (c : PrimitiveClass) (args : List TypeId) :
    Except Error (TypeId × TypeTable) :=
  let fixed (want : List TypeId) (result : TypeId) : Except Error (TypeId × TypeTable) := do
    exactly types 0 args want
    return (result, types)
  match c with
  | .intChecked => do
    let t ← alike types .int args
    return types.tuple [t, .bool]
  | .intBinary => return (← alike types .int args, types)
  | .intCompare => do
    let _ ← alike types .int args
    return (.bool, types)
  | .boolBinary | .boolUnary => return (← alike types .bool args, types)
  | .floatBinary => return (← alike types .float args, types)
  | .floatCompare => do
    let _ ← alike types .float args
    return (.bool, types)
  | .condFail => fixed [.bool] .void
  | .heapAlloc => fixed [.int64] .opaquePointer
  | .heapFree => fixed [.opaquePointer] .void
  | .advance => fixed [.opaquePointer, .int64] .opaquePointer
  | .memCopy => fixed [.opaquePointer, .opaquePointer, .int64] .void
  | .opaqueLoad => fixed [.opaquePointer] .int8
  | .opaqueStore => fixed [.opaquePointer, .int8] .void
  | .intCast width => do
    let _ ← alike types .int args
    return types.intern { kind := .int, width }
  | .unique =>
    match args.find? (!types.isRefCounted ·) with
    | some t => .error (.because .operandType (types.label t ++ " is not an object reference"))
    | none => .ok (.bool, types)

def present (n : Nat) : List (Option Value) → Except Error (List Value)
  | [] => .ok []
  | none :: _ => .error (.within ("operand " ++ Text.ofNat n) (.because .operandType "nil value"))
  | some v :: vs => do return v :: (← present (n + 1) vs)

def primitiveType (types : TypeTable) (valueType : Value → TypeId) (c : PrimitiveClass)
    (args : List (Option Value)) : Except Error (TypeId × TypeTable) := do
  if args.length ≠ c.operands then throw (countError args.length c.operands)
  let vs ← present 0 args
  primitiveResult types c (vs.map valueType)

def primitive (p : Primitive) (args : List (Option Value)) : Build InstId := do
  match p.class? with
  | none =>
    fail (.within Opcode.primitive.name
      (.because .invalidType ("unknown builtin " ++ Text.ofNat p.code)))
  | some c =>
    let m ← module
    match primitiveType m.types m.valueType c args with
    | .error e => fail (.within ("builtin " ++ p.name) e)
    | .ok (type, types) =>
      modifyModule ({ · with types })
      emit { op := .primitive, type, payload := { primitive := p } } args

def condFail (cond : Option Value) : Build InstId := primitive .condFail [cond]

/-! ### Memory -/

def alloc (type : TypeId) : Build InstId := do
  if type = .none ∨ type = .void then
    fail (.within Opcode.alloc.name (.because .invalidType (← label type)))
  let pointer ← onTypes (·.pointer type)
  emit { op := .alloc, type := pointer, payload := { subject := type } } []

def pointee (v : Value) : Build TypeId := do
  return ((← types).pointee? (← typeOf v)).getD .none

def load (address : Option Value) : Build InstId := do
  let a ← checkKind .load 0 address .pointer
  emit { op := .load, type := ← pointee a } [a]

def store (value address : Option Value) : Build InstId := do
  let a ← checkKind .store 1 address .pointer
  let v ← checkOperand .store 0 value (← pointee a)
  emit { op := .store, type := .void } [v, a]

def copyAddr (source dest : Option Value) : Build InstId := do
  let s ← checkKind .copyAddr 0 source .pointer
  let d ← checkOperand .copyAddr 1 dest (← typeOf s)
  emit { op := .copyAddr, type := .void } [s, d]

/-! ### Control flow -/

def checkTarget (op : Opcode) (target : Option BlockId) : Build BlockId := do
  let outside (name : Text) : Build BlockId :=
    fail (.within (op.name ++ " to #" ++ name) (.cause .blockNotInFunction))
  match target with
  | none => outside "<nil>"
  | some b =>
    let blk ← block b
    if blk.func.isNone ∨ blk.func ≠ (← currentFunc) then outside blk.name else return b

def checkBranchArgs (op : Opcode) (b : BlockId) (args : List (Option Value)) : Build Unit := do
  match checkArgs (← module) b args with
  | .ok () => pure ()
  | .error e => fail (.within op.name e)

def br (target : Option BlockId) (args : List (Option Value)) : Build InstId := do
  let t ← checkTarget .br target
  checkBranchArgs .br t args
  let b ← checkAttach .br
  let i ← newInst { op := .br, type := .void } []
  let e ← newEdge t (some b) (some i) args
  modifyInst i ({ · with targets := [e] })
  attach i b
  return i

def condBr (cond : Option Value) (onTrue : Option BlockId) (trueArgs : List (Option Value))
    (onFalse : Option BlockId) (falseArgs : List (Option Value)) : Build InstId := do
  let c ← checkOperand .condBr 0 cond .bool
  let t ← checkTarget .condBr onTrue
  let f ← checkTarget .condBr onFalse
  checkBranchArgs .condBr t trueArgs
  checkBranchArgs .condBr f falseArgs
  let b ← checkAttach .condBr
  let i ← newInst { op := .condBr, type := .void } [some c]
  let et ← newEdge t (some b) (some i) trueArgs
  let ef ← newEdge f (some b) (some i) falseArgs
  modifyInst i ({ · with targets := [et, ef] })
  attach i b
  return i

def ret (value : Option Value) : Build InstId := do
  match ← currentFunc with
  | none => fail (.within Opcode.ret.name (.cause .noInsertPoint))
  | some f =>
    let result ← resultType f
    match value with
    | none =>
      if result ≠ .void then fail (.within Opcode.ret.name (countError 0 1))
      emit { op := .ret, type := .void } []
    | some _ =>
      if result = .void then fail (.within Opcode.ret.name (countError 1 0))
      let v ← checkOperand .ret 0 value result
      emit { op := .ret, type := .void } [v]

def trap : Build InstId := emit { op := .trap, type := .void } []

/-! ### Calls -/

def callResult (op : Opcode) (type : TypeId) (args : List (Option Value)) : Build TypeId := do
  match (← types).signature? type with
  | none => fail (.within op.name (.because .notFunction (← label type)))
  | some s =>
    let params ← onTypes (·.loweredParams type)
    checkCount op args.length params.length
    checkOperands op 1 args params
    return s.result

def inCallee (name : Text) (x : Build α) : Build α := do
  match ← attempt x with
  | .ok a => return a
  | .error e => fail (.within ("@" ++ name) e)

def call (callee : Option FuncId) (args : List (Option Value)) : Build InstId := do
  match callee with
  | none => fail (.within Opcode.call.name (.cause .unknownFunction))
  | some f =>
    let fn ← func f
    let type ← inCallee fn.name (callResult .call fn.type args)
    emit { op := .call, type } (some (.func f) :: args)

def apply (callee : Option Value) (args : List (Option Value)) : Build InstId := do
  match callee with
  | none => fail (.within Opcode.apply.name (.cause .notFunction))
  | some v =>
    let type ← callResult .apply (← typeOf v) args
    emit { op := .apply, type } (some v :: args)

/-! ### Aggregates -/

def struct (type : TypeId) (fields : List (Option Value)) : Build InstId := do
  match (← types).struct? type with
  | none => fail (.within Opcode.struct.name (.because .invalidType (← label type)))
  | some s =>
    checkCount .struct fields.length s.fields.length
    checkOperands .struct 0 fields (s.fields.map (·.type))
    emit { op := .struct, type, payload := { aggregate := type } } fields

def unknownMember (op : Opcode) (c : Cause) (type : TypeId) (name : Text) : Build α := do
  fail (.within op.name (.because c ((← label type) ++ "." ++ name)))

def structExtract (value : Option Value) (field : Text) : Build InstId := do
  let v ← checkKind .structExtract 0 value .struct
  let t ← typeOf v
  match (← types).field? t field with
  | none => unknownMember .structExtract .unknownField t field
  | some (index, type) =>
    emit { op := .structExtract, type, payload := { field, index, aggregate := t } } [v]

def structElementPtr (address : Option Value) (field : Text) : Build InstId := do
  let a ← checkKind .structElementPtr 0 address .pointer
  let inner ← pointee a
  let t := match (← types).desc? inner with
    | some d => if d.kind = .refBox then d.elem else inner
    | none => inner
  match (← types).field? t field with
  | none => unknownMember .structElementPtr .unknownField t field
  | some (index, ft) =>
    let type ← onTypes (·.pointer ft)
    emit { op := .structElementPtr, type, payload := { field, index, aggregate := t } } [a]

def tuple (elems : List (Option Value)) : Build InstId := do
  checkOperands .tuple 0 elems (elems.map fun _ => .none)
  let m ← module
  let type ← onTypes (·.tuple (elems.filterMap (·.map m.valueType)))
  emit { op := .tuple, type } elems

def outOfRange (op : Opcode) (index : Int) (type : TypeId) : Build α := do
  fail (.within op.name (.because .operandType
    ("index " ++ Text.ofInt index ++ " out of range for " ++ (← label type))))

def tupleExtract (value : Option Value) (index : Int) : Build InstId := do
  let v ← checkKind .tupleExtract 0 value .tuple
  let t ← typeOf v
  match (← types).tupleElem? t index with
  | none => outOfRange .tupleExtract index t
  | some type => emit { op := .tupleExtract, type, payload := { index, aggregate := t } } [v]

def tupleElementPtr (address : Option Value) (index : Int) : Build InstId := do
  let a ← checkKind .tupleElementPtr 0 address .pointer
  let t ← pointee a
  match (← types).tupleElem? t index with
  | none => outOfRange .tupleElementPtr index t
  | some et =>
    let type ← onTypes (·.pointer et)
    emit { op := .tupleElementPtr, type, payload := { index, aggregate := t } } [a]

def named (value : Option Value) (name : Text) : Build InstId := do
  let v ← checkOperand .named 0 value .none
  emit { op := .named, type := ← typeOf v, name } [v]

/-! ### Existential boxes -/

def existentialBox (value : Option Value) (concept : TypeId) : Build InstId := do
  if (← types).kind concept ≠ .concept then
    fail (.within Opcode.existentialBox.name
      (.because .invalidType ((← label concept) ++ " is not a concept")))
  let v ← checkOperand .existentialBox 0 value .none
  emit { op := .existentialBox, type := concept, payload := { subject := ← typeOf v } } [v]

def existentialWitness (box : Option Value) (method : Text) : Build InstId := do
  let v ← checkKind .existentialWitness 0 box .concept
  let t ← typeOf v
  match (← types).method? t method with
  | none => unknownMember .existentialWitness .unknownMethod t method
  | some (index, type) =>
    emit { op := .existentialWitness, type,
           payload := { field := method, index, aggregate := t } } [v]

def existentialProject (box : Option Value) : Build InstId := do
  let v ← checkKind .existentialProject 0 box .concept
  emit { op := .existentialProject, type := .opaquePointer } [v]

def existentialPropertyPtr (box : Option Value) (property : Text) : Build InstId := do
  let v ← checkKind .existentialPropertyPtr 0 box .concept
  let t ← typeOf v
  match (← types).property? t property with
  | none => unknownMember .existentialPropertyPtr .unknownField t property
  | some (index, pt) =>
    let type ← onTypes (·.pointer pt)
    emit { op := .existentialPropertyPtr, type,
           payload := { field := property, index, aggregate := t } } [v]

def countBox (op : Opcode) (box : Option Value) (unowned : Bool) : Build InstId := do
  let v ← checkKind op 0 box .concept
  emit { op, type := .void, payload := { unowned } } [v]

def existentialRetain (box : Option Value) : Build InstId := countBox .existentialRetain box false

def existentialRelease (box : Option Value) (unowned : Bool) : Build InstId :=
  countBox .existentialRelease box unowned

/-! ### Objects -/

def allocObject (type : TypeId) : Build InstId := do
  if !(← types).isHeapAllocated type then
    fail (.within Opcode.allocObject.name
      (.because .invalidType ((← label type) ++ " is not a refcounted type")))
  let reference ← onTypes (·.reference type)
  emit { op := .allocObject, type := reference, payload := { subject := type } } []

def countObject (op : Opcode) (object : Option Value) (unowned : Bool) : Build InstId := do
  let m ← module
  let t := (object.map m.valueType).getD .none
  if !m.types.isRefCounted t then
    fail (.within op.name (.because .operandType ((← label t) ++ " is not an object reference")))
  emit { op, type := .void, payload := { unowned } } [object]

def retain (object : Option Value) : Build InstId := countObject .retainObject object false

/-- An unowned release never deallocates. -/
def release (object : Option Value) (unowned : Bool) : Build InstId :=
  countObject .releaseObject object unowned

def dealloc (object : Option Value) (unowned : Bool) : Build InstId :=
  countObject .deallocObject object unowned

end Midlevel.Ir.Build
