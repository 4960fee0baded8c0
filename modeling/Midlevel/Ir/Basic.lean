import Midlevel.Ir.Opcode
import Midlevel.Type.Table

/-!
A module of the intermediate representation. Functions, blocks, instructions, block parameters,
operands, edges and globals live in pools and refer to each other by id. Every value lists the
operands that read it, and every block the edges that enter it, so both ends of a use and of a
branch are recorded; `Ir/Verifier` says when the two ends agree.
-/

namespace Midlevel.Ir

inductive Entity where
  | func
  | block
  | inst
  | param
  | operand
  | edge
  | global
  deriving DecidableEq

structure Id (e : Entity) where
  index : Nat
  deriving DecidableEq, Inhabited

instance {e : Entity} : LawfulBEq (Id e) := inferInstance

abbrev FuncId := Id .func
abbrev BlockId := Id .block
abbrev InstId := Id .inst
abbrev ParamId := Id .param
abbrev OperandId := Id .operand
abbrev EdgeId := Id .edge
abbrev GlobalId := Id .global

structure Pool (e : Entity) (α : Type) where
  entries : Array α := #[]

namespace Pool

variable {e : Entity} {α : Type}

def get [Inhabited α] (p : Pool e α) (i : Id e) : α := p.entries.getD i.index default

def next (p : Pool e α) : Id e := ⟨p.entries.size⟩

def push (p : Pool e α) (a : α) : Pool e α := ⟨p.entries.push a⟩

def update (p : Pool e α) (i : Id e) (f : α → α) : Pool e α := ⟨p.entries.modify i.index f⟩

def ids (p : Pool e α) : List (Id e) := (List.range p.entries.size).map Id.mk

@[simp] theorem size_update (p : Pool e α) (i : Id e) (f : α → α) :
    (p.update i f).entries.size = p.entries.size := by
  simp [update]

theorem get_update_of_ne [Inhabited α] (p : Pool e α) {i j : Id e} (h : i ≠ j) (f : α → α) :
    (p.update i f).get j = p.get j := by
  obtain ⟨i⟩ := i
  obtain ⟨j⟩ := j
  have h' : i ≠ j := fun hij => h (by rw [hij])
  simp only [update, get, Array.getD_eq_getD_getElem?, Array.getElem?_modify]
  rw [if_neg h']

theorem get_update_self [Inhabited α] (p : Pool e α) {i : Id e} (h : i.index < p.entries.size)
    (f : α → α) : (p.update i f).get i = f (p.get i) := by
  simp [update, get, Array.getD_eq_getD_getElem?, Array.getElem_modify, h]

end Pool

inductive Value where
  | inst (i : InstId)
  | param (p : ParamId)
  | func (f : FuncId)
  | global (g : GlobalId)
  deriving DecidableEq, Inhabited

inductive Encoding where
  | utf8
  | utf16
  deriving DecidableEq

namespace Encoding

def ofCode (n : UInt8) : Encoding := if n = 1 then utf16 else utf8

def name : Encoding → Text
  | utf8 => "utf8"
  | utf16 => "utf16"

end Encoding

/-- What an instruction knows beside its operands; the opcode says which parts count. -/
structure Payload where
  int : Int64 := 0
  bool : Bool := false
  text : Text := []
  encoding : Encoding := .utf8
  primitive : Primitive := .invalid
  field : Text := []
  index : Int := 0
  aggregate : TypeId := .none
  subject : TypeId := .none
  /-- Whether a release or deallocation leaves the object to somebody else. -/
  unowned : Bool := false
  deriving DecidableEq

structure Inst where
  op : Opcode
  type : TypeId
  name : Text := []
  payload : Payload := {}
  uses : List OperandId := []
  operands : List OperandId := []
  targets : List EdgeId := []
  block : Option BlockId := none
  erased : Bool := false
  deriving Inhabited

structure Param where
  name : Text
  type : TypeId
  uses : List OperandId := []
  block : BlockId
  deriving Inhabited

structure Operand where
  value : Option Value
  user : Option InstId
  /-- The position in the use list of the value, none when not registered there. -/
  index : Option Nat := none
  deriving Inhabited

/-- A control-flow edge. The entry edge of a function has no source. -/
structure Edge where
  target : Option BlockId
  pred : Option BlockId
  source : Option InstId
  args : List OperandId
  deriving Inhabited

structure Block where
  name : Text
  func : Option FuncId
  params : List ParamId := []
  insts : List InstId := []
  edges : List EdgeId := []
  deriving Inhabited

structure Global where
  name : Text
  type : TypeId
  elem : TypeId
  uses : List OperandId := []
  deriving Inhabited

inductive Visibility where
  | hidden
  | shared
  | exported
  | other (code : UInt8)
  deriving DecidableEq

namespace Visibility

def ofCode : UInt8 → Visibility
  | 0 => hidden
  | 1 => shared
  | 2 => exported
  | n => other n

def name : Visibility → Text
  | shared => "internal"
  | exported => "public"
  | hidden | other _ => "private"

end Visibility

inductive Inlining where
  | unspecified
  | always
  | never
  deriving DecidableEq

namespace Inlining

def ofCode : UInt8 → Inlining
  | 1 => always
  | 2 => never
  | _ => unspecified

def name : Inlining → Text
  | unspecified => []
  | always => "always_inline"
  | never => "noinline"

end Inlining

structure Func where
  name : Text
  type : TypeId
  refName : Text
  uses : List OperandId := []
  blocks : List BlockId := []
  /-- A function that is not defined only declares its type. -/
  defined : Bool := false
  removed : Bool := false
  visibility : Visibility := .hidden
  inlining : Inlining := .unspecified
  noReturn : Bool := false
  /-- Calls have no effect beside their result. -/
  readNone : Bool := false
  deriving Inhabited

/-- Where a module finds the types of functions it does not define. -/
inductive Provider where
  | library
  | objectRuntime
  deriving DecidableEq

structure Module where
  name : Text
  types : TypeTable := .initial
  providers : List Provider := []
  order : List FuncId := []
  typeDecls : List TypeId := []
  funcs : Pool .func Func := {}
  blocks : Pool .block Block := {}
  insts : Pool .inst Inst := {}
  params : Pool .param Param := {}
  operands : Pool .operand Operand := {}
  edges : Pool .edge Edge := {}
  globals : Pool .global Global := {}

namespace Module

variable (m : Module)

def valueType : Value → TypeId
  | .inst i => (m.insts.get i).type
  | .param p => (m.params.get p).type
  | .func f => (m.funcs.get f).type
  | .global g => (m.globals.get g).type

def valueName : Value → Text
  | .inst i => (m.insts.get i).name
  | .param p => (m.params.get p).name
  | .func f => (m.funcs.get f).refName
  | .global g => (m.globals.get g).name

def setValueName (m : Module) (name : Text) : Value → Module
  | .inst i => { m with insts := m.insts.update i ({ · with name }) }
  | .param p => { m with params := m.params.update p ({ · with name }) }
  | .func f => { m with funcs := m.funcs.update f ({ · with refName := name }) }
  | .global g => { m with globals := m.globals.update g ({ · with name }) }

def uses (m : Module) : Value → List OperandId
  | .inst i => (m.insts.get i).uses
  | .param p => (m.params.get p).uses
  | .func f => (m.funcs.get f).uses
  | .global g => (m.globals.get g).uses

def modifyUses (change : List OperandId → List OperandId) : Value → Module
  | .inst i => { m with insts := m.insts.update i fun x => { x with uses := change x.uses } }
  | .param p => { m with params := m.params.update p fun x => { x with uses := change x.uses } }
  | .func f => { m with funcs := m.funcs.update f fun x => { x with uses := change x.uses } }
  | .global g => { m with globals := m.globals.update g fun x => { x with uses := change x.uses } }

def operandValue (o : OperandId) : Option Value := (m.operands.get o).value

def operandValues (os : List OperandId) : List (Option Value) :=
  os.map m.operandValue

def operandAt (i : InstId) (n : Nat) : Option Value :=
  ((m.insts.get i).operands[n]?).bind m.operandValue

def instFunc (i : InstId) : Option FuncId :=
  (m.insts.get i).block.bind fun b => (m.blocks.get b).func

def callee (i : InstId) : Option FuncId :=
  if (m.insts.get i).op = .call then
    match m.operandAt i 0 with
    | some (.func f) => some f
    | _ => none
  else none

def hasEffects (m : Module) (i : InstId) : Bool :=
  match (m.insts.get i).op with
  | .store | .copyAddr | .retainObject | .releaseObject | .deallocObject | .existentialRetain
  | .existentialRelease | .br | .condBr | .ret | .trap | .apply => true
  | .call =>
    match m.callee i with
    | none => true
    | some f => !(m.funcs.get f).readNone
  | .primitive => (m.insts.get i).payload.primitive.hasEffects
  | _ => false

def isDead : Value → Bool
  | .inst i => (m.insts.get i).uses.isEmpty && !m.hasEffects i
  | _ => false

def allOperands (i : InstId) : List OperandId :=
  (m.insts.get i).operands ++ (m.insts.get i).targets.flatMap fun e => (m.edges.get e).args

def targetBlocks (i : InstId) : List (Option BlockId) :=
  (m.insts.get i).targets.map fun e => (m.edges.get e).target

def terminator (b : BlockId) : Option InstId :=
  match (m.blocks.get b).insts.getLast? with
  | some i => if (m.insts.get i).op.isTerminator then some i else none
  | none => none

def successors (b : BlockId) : List (Option BlockId) :=
  match m.terminator b with
  | some i => m.targetBlocks i
  | none => []

def predecessors (b : BlockId) : List BlockId :=
  ((m.blocks.get b).edges.filterMap fun e => (m.edges.get e).pred).foldl
    (fun acc p => if p ∈ acc then acc else acc ++ [p]) []

def isEntry (b : BlockId) : Bool :=
  match (m.blocks.get b).func with
  | some f => (m.funcs.get f).blocks.head? == some b
  | none => false

def funcInsts (f : FuncId) : List InstId :=
  (m.funcs.get f).blocks.flatMap fun b => (m.blocks.get b).insts

def funcParams (f : FuncId) : List ParamId :=
  match (m.funcs.get f).blocks.head? with
  | some b => (m.blocks.get b).params
  | none => []

def externalUses (f : FuncId) : Nat :=
  ((m.funcs.get f).uses.filter fun o =>
    match (m.operands.get o).user with
    | none => true
    | some i => m.instFunc i != some f).length

def funcNamed? (name : Text) : Option FuncId :=
  m.order.find? fun f => (m.funcs.get f).name = name

def blockNamed? (f : FuncId) (name : Text) : Option BlockId :=
  (m.funcs.get f).blocks.find? fun b => (m.blocks.get b).name = name

def globalNamed? (name : Text) : Option GlobalId :=
  m.globals.ids.find? fun g => (m.globals.get g).name = name

/-- The type table as a function sees it: a removed function has none. -/
def typesOf (f : FuncId) : Option TypeTable :=
  if (m.funcs.get f).removed then none else some m.types

def nextInst (i : InstId) : Option InstId :=
  (m.insts.get i).block.bind fun b =>
    match (m.blocks.get b).insts.idxOf? i with
    | some n => (m.blocks.get b).insts[n + 1]?
    | none => none

end Module

end Midlevel.Ir
