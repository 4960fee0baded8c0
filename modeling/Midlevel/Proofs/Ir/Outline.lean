import Midlevel.Proofs.Frame
import Midlevel.Proofs.Ir.Constructors

/-!
The outline of a module is what is left when uses, edges, blocks and names are forgotten: its types,
its functions without their bodies, and what every instruction ever made does, in the order in which
they were made. Nothing but a constructor adds to it and nothing but the removal of a function takes
away from it; every other operation is *quiet*. None of this asks the module to be well formed.
-/

namespace Midlevel.Ir

open Midlevel.Ir.Module

variable (f : FuncId) (i : InstId)

/-- What an instruction does, without its place and its operands. -/
def Inst.core (x : Inst) : Inst := { op := x.op, type := x.type, payload := x.payload }

def Func.head (x : Func) : Func := { x with uses := [], blocks := [], refName := [] }

structure Outline where
  types : TypeTable
  order : List FuncId
  funcs : Pool .func Func
  insts : Pool .inst Inst

def Module.outline (m : Module) : Outline where
  types := m.types
  order := m.order
  funcs := m.funcs.map Func.head
  insts := m.insts.map Inst.core

def SameOutline (m m' : Module) : Prop := m'.outline = m.outline

instance : IsPreorder Module SameOutline where
  refl _ := rfl
  trans _ _ _ h h' := h'.trans h

namespace SameOutline

variable {m m' : Module} (h : SameOutline m m')
include h

theorem types_eq : m'.types = m.types := congrArg Outline.types h

theorem order_eq : m'.order = m.order := congrArg Outline.order h

theorem head_eq : (m'.funcs.get f).head = (m.funcs.get f).head := by
  have : m'.funcs.map Func.head = m.funcs.map Func.head := congrArg Outline.funcs h
  rw [← Pool.get_map m'.funcs Func.head rfl, this, Pool.get_map m.funcs Func.head rfl]

theorem core_eq : (m'.insts.get i).core = (m.insts.get i).core := by
  have : m'.insts.map Inst.core = m.insts.map Inst.core := congrArg Outline.insts h
  rw [← Pool.get_map m'.insts Inst.core rfl, this, Pool.get_map m.insts Inst.core rfl]

theorem funcs_size : m'.funcs.entries.size = m.funcs.entries.size := by
  rw [← Pool.size_map m'.funcs Func.head, ← Pool.size_map m.funcs Func.head]
  exact congrArg (fun o => o.funcs.entries.size) h

end SameOutline

/-! ### Changes of a module -/

section Changes

variable (m : Module)

theorem outline_updateInst (i : InstId) {g : Inst → Inst} (hg : ∀ x, (g x).core = x.core) :
    SameOutline m (m.updateInst i g) := by
  simp only [SameOutline, outline, updateInst]
  rw [Pool.map_update _ _ _ _ hg]

theorem outline_updateFunc (f : FuncId) {g : Func → Func} (hg : ∀ x, (g x).head = x.head) :
    SameOutline m (m.updateFunc f g) := by
  simp only [SameOutline, outline, updateFunc]
  rw [Pool.map_update _ _ _ _ hg]

theorem outline_modifyUses (change : List OperandId → List OperandId) (v : Value) :
    SameOutline m (m.modifyUses change v) := by
  cases v with
  | inst i => exact outline_updateInst m i fun _ => rfl
  | func f => exact outline_updateFunc m f fun _ => rfl
  | param _ | global _ => rfl

theorem outline_register (o : OperandId) (v : Option Value) : SameOutline m (m.register o v) := by
  cases v with
  | none => rfl
  | some w => exact outline_modifyUses _ _ w

theorem outline_removeUse {m' : Module} {v : Value} {o : OperandId}
    (h : m.removeUse? v o = some m') :
    SameOutline m m' := by
  unfold removeUse? at h
  split at h
  · split at h
    · obtain rfl := Option.some.inj h
      exact outline_modifyUses m _ v
    · cases h
  · cases h

theorem outline_setOperand {m' : Module} {o : OperandId} {v : Option Value}
    (h : m.setOperand? o v = some m') : SameOutline m m' := by
  unfold setOperand? at h
  dsimp only at h
  split at h
  · obtain rfl := Option.some.inj h
    rfl
  · obtain ⟨n, hn, rfl⟩ := Option.map_eq_some_iff.mp h
    have hfreed : SameOutline m n := by
      split at hn
      · obtain rfl := Option.some.inj hn
        rfl
      · exact outline_removeUse m hn
    exact trans_of SameOutline hfreed (outline_register n o v)

theorem outline_newOperands (vs : Args) (user : Option InstId) :
    SameOutline m (m.newOperands vs user).2 := by
  induction vs generalizing m with
  | nil => rfl
  | cons v vs ih =>
    have hpush : SameOutline m { m with operands := m.operands.push { value := none, user } } := rfl
    exact trans_of SameOutline (trans_of SameOutline hpush (outline_register _ _ v)) (ih _)

end Changes

/-- A relation that allows whatever keeps the outline. -/
class QuietFraming (R : Module → Module → Prop) : Prop extends IsPreorder Module R where
  quiet : ∀ m m', SameOutline m m' → R m m'

instance : QuietFraming SameOutline := ⟨fun _ _ h => h⟩

-- Instances are found for whole programs, which takes as many steps as they have.
set_option synthInstance.maxSize 10000

/-! ### Reading -/

namespace Build

variable {α : Type} (e : EdgeId) (name : Text) (b : BlockId) (params : List Member)

section Reading

variable {τ : Type} [Aspect τ] {R : τ → τ → Prop} [IsPreorder τ R]

instance : Frames R module := .of_unchanged fun _ => rfl

instance : Frames R types := .of_unchanged fun _ => rfl

instance : Frames R cursor := .of_unchanged fun _ => rfl

instance : Frames R (func f) := .of_unchanged fun _ => rfl

instance : Frames R (block b) := .of_unchanged fun _ => rfl

instance : Frames R (inst i) := .of_unchanged fun _ => rfl

instance : Frames R (edge e) := .of_unchanged fun _ => rfl

instance reads_fail (e : Error) : Frames R (fail e : Build α) := .throw _

instance reads_crash (c : Crash) : Frames R (crash c : Build α) := .throw _

instance (o : Option α) : Frames R (demand o) := by
  cases o with
  | none => exact reads_crash _
  | some a => exact .pure a

instance reads_currentFunc : Frames R currentFunc := by
  refine .next fun c => ?_
  cases c.block <;> infer_instance

instance (op : Opcode) : Frames R (checkAttach op) :=
  frames_iff_wp.mpr fun _ => wp_checkAttach (fun _ _ => refl_of R _) fun _ _ => refl_of R _

instance (bs : List (Option BlockId)) : Frames R (checkErasable bs) := by
  induction bs with
  | nil => exact .pure _
  | cons o bs ih =>
    cases o with
    | none => exact reads_fail _
    | some b =>
      unfold checkErasable
      infer_instance

instance (bs : List BlockId) (b : BlockId) : Frames R (checkNoDanglingBranch bs b) :=
  .next inferInstance

@[instance] theorem reads_checkSameFunc (doing : Text) (a b : Option BlockId) :
    Frames R (checkSameFunc doing a b) := by
  cases a with
  | none => exact reads_fail _
  | some a =>
    cases b with
    | none => exact reads_fail _
    | some b =>
      refine .next fun x => .next fun y => ?_
      split <;> infer_instance

instance (pred succ : BlockId) : Frames R (soleBranch pred succ) := by
  unfold soleBranch
  refine .next fun m => ?_
  cases m.terminator pred <;> infer_instance

end Reading

section Cursor

variable {R : Module → Module → Prop} [IsPreorder Module R]

theorem reads_modify {g : Builder → Builder} (h : ∀ s, (g s).module = s.module) :
    Frames R (modify g : Build PUnit) := .of_unchanged h

instance reads_setCursor (c : Cursor) : Frames R (setCursor c) := .of_unchanged fun _ => rfl

instance : Frames R clearCursor := reads_setCursor _

instance : Frames R (positionAtEnd b) := .of_unchanged fun _ => rfl

instance : Frames R (positionBefore i) := .of_unchanged fun _ => rfl

end Cursor

/-! ### Quiet operations -/

variable {R : Module → Module → Prop} [QuietFraming R]

theorem quiet_modifyModule {f : Module → Module} (h : ∀ m, SameOutline m (f m)) :
    Frames R (modifyModule f) :=
  ⟨fun s => QuietFraming.quiet _ _ (h s.module)⟩

instance (blocks : Module → Pool .block Block) (params : Module → Pool .param Param) :
    Frames R (modifyModule fun m => { m with blocks := blocks m, params := params m }) :=
  quiet_modifyModule fun _ => rfl

instance (name : Inst → Text) (uses operands : Inst → List OperandId)
    (targets : Inst → List EdgeId) (block : Inst → Option BlockId) (erased : Inst → Bool) :
    Frames R (modifyInst i fun x => { x with
      name :=
  name x, uses := uses x, operands := operands x, targets := targets x, block := block x,
      erased := erased x }) := quiet_modifyModule fun m => outline_updateInst m i fun _ => rfl

instance (uses : Func → List OperandId) (blocks : Func → List BlockId) (refName : Func → Text) :
    Frames R (modifyFunc f fun x =>
      { x with uses := uses x, blocks := blocks x, refName := refName x }) :=
  quiet_modifyModule fun m => outline_updateFunc m f fun _ => rfl

instance (g : Block → Block) : Frames R (modifyBlock b g) := quiet_modifyModule fun _ => rfl

instance (g : Edge → Edge) : Frames R (modifyEdge e g) := quiet_modifyModule fun _ => rfl

theorem quiet_applyUses {f : Module → Option Module}
    (h : ∀ m m', f m = some m' → SameOutline m m') :
    Frames R (applyUses f) := by
  refine frames_iff_wp.mpr fun s => ?_
  unfold applyUses
  rw [wp_bind, wp_module]
  cases hf : f s.module with
  | none => exact refl_of R _
  | some m => exact QuietFraming.quiet _ _ (h _ _ hf)

instance (o : OperandId) (v : Option Value) : Frames R (setOperand o v) :=
  quiet_applyUses fun m _ h => outline_setOperand m h

instance (os : List OperandId) : Frames R (dropOperands os) := .forM

@[instance] theorem quiet_replaceAllUses (v w : Option Value) : Frames R (replaceAllUses v w) := by
  unfold replaceAllUses
  split <;> infer_instance

instance (target : BlockId) (pred : Option BlockId) (source : Option InstId)
    (args : Args) : Frames R (newEdge target pred source args) := by
  refine .next fun m => (quiet_modifyModule fun m => ?_).bind inferInstance
  exact outline_newOperands m args source

instance : Frames R (detachEdge e) := by
  refine .next fun x => .next fun _ => .next fun _ => .next fun y => ?_
  cases y.target <;> infer_instance

instance : Frames R (dropAll i) := .next inferInstance

/-! ### Edits of instructions -/

instance : Frames R (attach i b) := by
  unfold attach
  exact .next fun c => .next fun _ => .next fun _ => reads_modify (by intro _; rfl)

instance : Frames R (setName (.inst i) name) :=
  quiet_modifyModule fun m => outline_updateInst m i fun _ => rfl

instance : Frames R (unlink i) := by
  unfold unlink
  refine .next fun x => ?_
  cases x.block <;> infer_instance

instance : Frames R (discard i) := .next inferInstance

@[instance] theorem quiet_eraseFrom (parent : Option BlockId) (i : Option InstId) :
    Frames R (eraseFrom parent i) := by
  refine .next fun m => ?_
  split <;> infer_instance

instance (i : Option InstId) : Frames R (erase i) := by
  cases i <;> unfold erase <;> infer_instance

/-! ### Edits of blocks -/

instance : Frames R (removeBlock b) := .next inferInstance

instance : Frames R (eraseEmptied b) := .next inferInstance

instance (blocks : List (Option BlockId)) : Frames R (eraseBlocks blocks) := .next inferInstance

@[instance] theorem quiet_mergeBlocks (pred succ : Option BlockId) :
    Frames R (mergeBlocks pred succ) := by
  refine .next fun ⟨pred, succ, f⟩ => .next fun sole => ?_
  cases sole with
  | none => infer_instance
  | some te =>
    refine .next fun m => .next fun x => .next fun y => .ite_bind (.next fun _ => ?_)
    exact .bind (.forM) inferInstance

@[instance] theorem quiet_moveBlock (b anchor : Option BlockId) (displaces : Bool)
    (side : BlockId → BlockId → List BlockId) : Frames R (moveBlock b anchor displaces side) := by
  refine .next fun ⟨b, anchor, f⟩ => ?_
  infer_instance

instance : Frames R (addParams b params) := .forM

instance (f : FuncId) (params : List Member) : Frames R (newBlock name f params) :=
  .next inferInstance

instance : Frames R (appendBlock name params) := by
  unfold appendBlock
  refine .next fun o => ?_
  cases o with
  | none => exact reads_fail _
  | some f => cases params.find? (·.type = .none) <;> infer_instance

end Build

end Midlevel.Ir
