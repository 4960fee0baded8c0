import Midlevel.Pass.ControlFlow
import Midlevel.Proofs.Ir.UseLists

/-!
A module as its readers see it. Operands, edges and use lists are how a module is stored; what it
says is which values an instruction reads, where a branch leads and what it passes, and how blocks
are made up. `Module.view` forgets the former and keeps the latter.

`Linked` is what the stored form needs for the view to be the whole truth: use lists and operands
agree, operands and edges belong to the instruction that names them, and both ends of an edge know
it. Operations on a module are described by what they do to the view, together with `Linked` for the
module that results.
-/

namespace Midlevel.Ir

open Pass (Exit exitsOf)

variable {v : Value} {i : InstId} {f : FuncId} (w : View)

def Inst.view (x : Inst) : Inst := { x with uses := [], operands := [], targets := [] }

def Block.view (b : Block) : Block := { b with edges := [] }

/-- What a module says, apart from how it is stored. -/
@[ext] structure View where
  inst : InstId → Inst
  /-- What an instruction reads, in order. -/
  reads : InstId → List (Option Value)
  /-- Where a branch leads and what it passes. -/
  exits : InstId → List Exit
  /-- Whether the blocks that a branch leads to know its edges. -/
  entered : InstId → Prop
  block : BlockId → Block
  /-- What the edges that leave no instruction pass to a block. -/
  opens : BlockId → List (List (Option Value))
  param : ParamId → Param
  func : FuncId → Func
  global : GlobalId → Global
  insts : Nat
  blocks : Nat
  params : Nat
  funcs : Nat
  globals : Nat
  name : Text
  types : TypeTable
  providers : List Provider
  order : List FuncId
  typeDecls : List TypeId

def View.Has : Value → Prop
  | .inst i => i.index < w.insts
  | .param p => p.index < w.params
  | .func f => f.index < w.funcs
  | .global g => g.index < w.globals

theorem View.Has.mono {w w' : View} (h : w.Has v) (hinsts : w.insts ≤ w'.insts)
    (hparams : w.params ≤ w'.params) (hfuncs : w.funcs ≤ w'.funcs)
    (hglobals : w.globals ≤ w'.globals) : w'.Has v := by
  cases v with
  | inst i => exact Nat.lt_of_lt_of_le h hinsts
  | param p => exact Nat.lt_of_lt_of_le h hparams
  | func f => exact Nat.lt_of_lt_of_le h hfuncs
  | global g => exact Nat.lt_of_lt_of_le h hglobals

def View.withTypes (types : TypeTable) : View := { w with types }

namespace Module

variable {m : Module} {w : View}

def openEdges (m : Module) (b : BlockId) : List EdgeId :=
  (m.blocks.get b).edges.filter fun e => (m.edges.get e).source.isNone

/-- What a module says if its operands read `value`. -/
def viewWith (m : Module) (value : OperandId → Option Value) : View where
  inst i := (m.insts.get i).view
  reads i := (m.insts.get i).operands.map value
  exits i := (m.insts.get i).targets.map fun e =>
    { target := (m.edges.get e).target, args := (m.edges.get e).args.map value }
  entered i := ∀ e ∈ (m.insts.get i).targets, ∃ b, e ∈ (m.blocks.get b).edges
  block b := (m.blocks.get b).view
  opens b := (m.openEdges b).map fun e => (m.edges.get e).args.map value
  param p := (m.params.get p).bare
  func f := (m.funcs.get f).bare
  global g := (m.globals.get g).bare
  insts := m.insts.entries.size
  blocks := m.blocks.entries.size
  params := m.params.entries.size
  funcs := m.funcs.entries.size
  globals := m.globals.entries.size
  name := m.name
  types := m.types
  providers := m.providers
  order := m.order
  typeDecls := m.typeDecls

def view (m : Module) : View := m.viewWith m.operandValue

theorem hasValue_iff_view (m : Module) (v : Value) : m.HasValue v ↔ m.view.Has v := by
  cases v <;> exact Iff.rfl

theorem hasInst_of_view (h : m.view = w) (hi : i.index < w.insts) : m.insts.Has i := by
  subst h
  exact hi

theorem hasBlock_of_view {b : BlockId} (h : m.view = w) (hb : b.index < w.blocks) :
    m.blocks.Has b := by
  subst h
  exact hb

theorem hasFunc_of_view (h : m.view = w) (hf : f.index < w.funcs) : m.funcs.Has f := by
  subst h
  exact hf

theorem view_exits (m : Module) (i : InstId) : m.view.exits i = exitsOf m i := rfl

theorem viewWith_skeleton (m : Module) (value : OperandId → Option Value) :
    m.skeleton.viewWith value = m.viewWith value := by
  have hinst (i) : m.skeleton.insts.get i = (m.insts.get i).bare :=
    Pool.get_map m.insts Inst.bare rfl i
  have hparam (p) : m.skeleton.params.get p = (m.params.get p).bare :=
    Pool.get_map m.params Param.bare rfl p
  have hfunc (f) : m.skeleton.funcs.get f = (m.funcs.get f).bare :=
    Pool.get_map m.funcs Func.bare rfl f
  have hglobal (g) : m.skeleton.globals.get g = (m.globals.get g).bare :=
    Pool.get_map m.globals Global.bare rfl g
  ext1 <;> try rfl
  case inst | reads | exits | entered => funext i; simp only [viewWith, hinst]; rfl
  · funext p; simp only [viewWith, hparam]; rfl
  · funext f; simp only [viewWith, hfunc]; rfl
  · funext g; simp only [viewWith, hglobal]; rfl
  all_goals simp [viewWith, skeleton]

/-- Operands and edges belong together. -/
structure Linked (m : Module) : Prop where
  wired : m.Wired
  operand : ∀ i, ∀ o ∈ (m.insts.get i).operands, m.operands.Has o ∧ (m.operands.get o).user = some i
  arg : ∀ e, ∀ o ∈ (m.edges.get e).args, m.operands.Has o ∧
    (m.operands.get o).user = (m.edges.get e).source
  /-- The edges without a source share no operand. -/
  openArg : ∀ e e' o, (m.edges.get e).source = none → o ∈ (m.edges.get e).args →
    o ∈ (m.edges.get e').args → e = e'
  /-- An operand that reads something belongs to its user, or to an edge that has none. -/
  owned : ∀ o v, m.operandValue o = some v →
    (∀ i, (m.operands.get o).user = some i → o ∈ m.allOperands i) ∧
    ((m.operands.get o).user = none → ∃ e, (m.edges.get e).source = none ∧ o ∈ (m.edges.get e).args)
  target : ∀ i, ∀ e ∈ (m.insts.get i).targets, (m.edges.get e).source = some i ∧
    ∃ b, (m.edges.get e).target = some b
  incoming : ∀ b, ∀ e ∈ (m.blocks.get b).edges, (m.edges.get e).target = some b ∧
    ∀ i, (m.edges.get e).source = some i → e ∈ (m.insts.get i).targets
  /-- An edge that passes something enters a block. -/
  enters : ∀ e, (m.edges.get e).args ≠ [] → ∃ b, e ∈ (m.blocks.get b).edges
  pred : ∀ i, ∀ e ∈ (m.insts.get i).targets, ∀ b, (m.insts.get i).block = some b →
    (m.edges.get e).pred = some b
  /-- The edges of a branch have a predecessor, those without a source have none. -/
  predIsSome : ∀ i, ∀ e ∈ (m.insts.get i).targets, (m.edges.get e).pred.isSome
  predIsNone : ∀ e, (m.edges.get e).source = none → (m.edges.get e).pred = none
  targetsNodup : ∀ i, (m.insts.get i).targets.Nodup
  edgesNodup : ∀ b, (m.blocks.get b).edges.Nodup

end Module

/-! ### Calls and effects -/

namespace View

def callee (i : InstId) : Option FuncId :=
  if (w.inst i).op = .call then
    match (w.reads i).head? with
    | some (some (.func f)) => some f
    | _ => none
  else none

/-- Whether an instruction must be kept even if nothing reads its result. -/
def hasEffects (w : View) (i : InstId) : Bool :=
  match (w.inst i).op with
  | .store | .copyAddr | .retainObject | .releaseObject | .deallocObject | .existentialRetain
  | .existentialRelease | .br | .condBr | .ret | .trap | .apply => true
  | .call =>
    match w.callee i with
    | none => true
    | some f => !(w.func f).readNone
  | .primitive => (w.inst i).payload.primitive.hasEffects
  | _ => false

def funcInsts (f : FuncId) : List InstId := (w.func f).blocks.flatMap fun b => (w.block b).insts

variable {w w' : View} {j : InstId}

theorem reads_of_callee (h : w.callee i = some f) : ∃ args, w.reads i = some (.func f) :: args := by
  unfold callee at h
  split at h
  · split at h
    · next g hg =>
      obtain rfl := Option.some.inj h
      obtain ⟨args, hargs⟩ := List.head?_eq_some_iff.mp hg
      exact ⟨args, hargs⟩
    · cases h
  · cases h

theorem callee_congr (hinst : w'.inst j = w.inst j) (hreads : w'.reads j = w.reads j) :
    w'.callee j = w.callee j := by
  unfold callee
  rw [hinst, hreads]

theorem hasEffects_congr (hinst : w'.inst j = w.inst j) (hcallee : w'.callee j = w.callee j)
    (hfunc : w'.func = w.func) :
    w'.hasEffects j = w.hasEffects j := by
  unfold hasEffects
  rw [hinst, hcallee, hfunc]

end View

namespace Module

theorem callee_view (m : Module) (i : InstId) : m.view.callee i = m.callee i := by
  have hop : (m.view.inst i).op = (m.insts.get i).op := rfl
  have hreads : m.view.reads i = (m.insts.get i).operands.map m.operandValue := rfl
  unfold View.callee Module.callee Module.operandAt
  rw [hop, hreads]
  split
  · cases (m.insts.get i).operands with
    | nil => rfl
    | cons o os =>
      simp only [List.map_cons, List.getElem?_cons_zero, Option.bind_some]
      cases m.operandValue o with
      | none => rfl
      | some v => cases v <;> rfl
  · rfl

theorem mem_reads_of_operandAt {m : Module} {n : Nat} (h : m.operandAt i n = some v) :
    some v ∈ m.view.reads i := by
  obtain ⟨o, ho, hv⟩ := Option.bind_eq_some_iff.mp h
  exact List.mem_map.mpr ⟨o, List.mem_of_getElem? ho, hv⟩

theorem hasEffects_view (m : Module) (i : InstId) : m.view.hasEffects i = m.hasEffects i := by
  unfold View.hasEffects Module.hasEffects
  rw [callee_view]
  rfl

end Module

abbrev Builder.HasValue (s : Builder) (v : Value) : Prop := s.module.HasValue v

abbrev Builder.Linked (s : Builder) : Prop := s.module.Linked

abbrev Builder.view (s : Builder) : View := s.module.view

/-- `P` holds with every module that says `w`. -/
abbrev Builder.With (s : Builder) (w : View) (P : Builder → Prop) : Prop :=
  ∀ m' : Module, m'.Linked → m'.view = w → P { s with module := m' }

end Midlevel.Ir

abbrev Midlevel.Pass.Workspace.view (s : Midlevel.Pass.Workspace) : Midlevel.Ir.View :=
  s.builder.view
