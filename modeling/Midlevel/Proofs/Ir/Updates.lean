import Midlevel.Proofs.Ir.Links

/-!
Changes that leave operands and edges where they are: instructions move between blocks, blocks and
functions are made, listed and renamed. A module stays linked through all of them as long as the
edges of a branch know the block that the branch stands in, and the view changes in the part that is
named.
-/

namespace Midlevel.Ir

open Function (update)
open Pass (Exit exitsOf)

variable {α β : Type} {f : Inst → Inst} {b : BlockId}

namespace View

def setInst (w : View) (i : InstId) (f : Inst → Inst) : View :=
  { w with inst := update w.inst i (f (w.inst i)) }

def setBlock (w : View) (b : BlockId) (f : Block → Block) : View :=
  { w with block := update w.block b (f (w.block b)) }

def setFunc (w : View) (f : FuncId) (g : Func → Func) : View :=
  { w with func := update w.func f (g (w.func f)) }

theorem update_self_apply [DecidableEq α] (w : α → β) (i j : α) (f : β → β) :
    update w i (f (w i)) j = if j = i then f (w j) else w j := by
  rw [Function.update_apply]
  split
  · next h => rw [h]
  · rfl

theorem part_ite {c : Prop} [Decidable c] {x y : α} (part : α → β) (h : part x = part y := by rfl) :
    part (if c then x else y) = part y := by
  split
  · exact h
  · rfl

theorem part_update_self {γ : Type} [DecidableEq α] (w : α → β) (i j : α) {f : β → β} (part : β → γ)
    (hf : ∀ x, part (f x) = part x) : part (update w i (f (w i)) j) = part (w j) := by
  rw [update_self_apply]
  exact part_ite part (hf _)

section

variable (w : View)
include w

@[simp] theorem inst_setInst (i j : InstId) (f : Inst → Inst) :
    (w.setInst i f).inst j = if j = i then f (w.inst j) else w.inst j := update_self_apply ..

@[simp] theorem block_setBlock (b c : BlockId) (f : Block → Block) :
    (w.setBlock b f).block c = if c = b then f (w.block c) else w.block c := update_self_apply ..

@[simp] theorem func_setFunc (f h : FuncId) (g : Func → Func) :
    (w.setFunc f g).func h = if h = f then g (w.func h) else w.func h := update_self_apply ..

@[simp] theorem block_setInst (i : InstId) (f : Inst → Inst) :
    (w.setInst i f).block = w.block := rfl

@[simp] theorem func_setBlock (b : BlockId) (f : Block → Block) :
    (w.setBlock b f).func = w.func := rfl

@[simp] theorem block_setFunc (f : FuncId) (g : Func → Func) :
    (w.setFunc f g).block = w.block := rfl

end

end View

namespace Module

variable {m : Module}
variable {g : Func → Func} {i : InstId}

/-! ### Instructions -/

/-- An instruction changes in what is neither operand, edge nor use. -/
structure Plain (f : Inst → Inst) (x : Inst) : Prop where
  uses : (f x).uses = x.uses
  operands : (f x).operands = x.operands
  targets : (f x).targets = x.targets
  view : (f x).view = f x.view

theorem Linked.updateInst (h : m.Linked) (hf : ∀ x, Plain f x)
    (hblock : ∀ e ∈ (m.insts.get i).targets, ∀ b, (f (m.insts.get i)).block = some b →
      (m.edges.get e).pred = some b) : (m.updateInst i f).Linked := by
  refine h.congr (h.wired.updateInst i fun x => (hf x).uses) ?_ h.predIsSome h.predIsNone
    (fun b => rfl)
    (fun j => m.insts.get_update_part Inst.operands i j fun x => (hf x).operands)
    fun j => m.insts.get_update_part Inst.targets i j fun x => (hf x).targets
  intro j e he b hb
  have hb' : ((m.insts.update i f).get j).block = some b := hb
  by_cases hi : m.insts.Has i
  · rw [Pool.get_update _ hi] at hb'
    split at hb'
    · next hj => exact hblock e (hj ▸ he) b (hj ▸ hb')
    · exact h.pred j e he b hb'
  · rw [Pool.update_of_not_has _ hi] at hb'
    exact h.pred j e he b hb'

theorem view_updateInst (hi : m.insts.Has i) (hf : ∀ x, Plain f x) :
    (m.updateInst i f).view = m.view.setInst i f := by
  ext1 <;> try rfl
  · funext j
    show ((m.insts.update i f).get j).view = _
    rw [Pool.get_update _ hi, View.inst_setInst]
    split
    · exact (hf _).view
    · rfl
  · funext j
    exact congrArg (List.map m.operandValue) (m.insts.get_update_part Inst.operands i j fun x =>
      (hf x).operands)
  · funext j
    exact congrArg (List.map _) (m.insts.get_update_part Inst.targets i j fun x => (hf x).targets)
  · funext j
    show (∀ e ∈ ((m.insts.update i f).get j).targets, _) = _
    rw [m.insts.get_update_part Inst.targets i j fun x => (hf x).targets]
    rfl
  · exact Pool.size_update _ _ _

theorem view_setName (hi : m.insts.Has i) (name : Text) :
    (m.setValueName name (.inst i)).view = m.view.setInst i ({ · with name }) :=
  view_updateInst hi fun _ => ⟨rfl, rfl, rfl, rfl⟩

theorem has_of_instBlock (h : (m.insts.get i).block = some b) : m.insts.Has i := by
  by_contra hn
  rw [Pool.get_of_not_has hn] at h
  exact absurd h (Option.some_ne_none b).symm

/-! ### Blocks -/

theorem Linked.updateBlock (h : m.Linked) (b : BlockId) {f : Block → Block}
    (hf : ∀ x, (f x).edges = x.edges) : (m.updateBlock b f).Linked :=
  h.congr (h.wired.congr (fun _ => rfl) fun _ hv => hv) h.pred h.predIsSome h.predIsNone
    fun b' => m.blocks.get_update_part Block.edges b b' hf

theorem view_updateBlock {f : Block → Block} (hf : ∀ x, (f x).edges = x.edges)
    (hview : ∀ x, (f x).view = f x.view) (hb : m.blocks.Has b ∨ f default = default) :
    (m.updateBlock b f).view = m.view.setBlock b f := by
  ext1 <;> try rfl
  · funext j
    refine propext (forall₂_congr fun e he => exists_congr fun b' => ?_)
    show e ∈ ((m.blocks.update b f).get b').edges ↔ _
    rw [m.blocks.get_update_part Block.edges b b' hf]
  · funext b'
    show ((m.blocks.update b f).get b').view = _
    rw [Pool.get_update_or _ hb, View.block_setBlock]
    split
    · exact hview _
    · rfl
  · funext b'
    show (((m.blocks.update b f).get b').edges.filter _).map _ = _
    rw [m.blocks.get_update_part Block.edges b b' hf]
    rfl
  · exact Pool.size_update _ _ _

/-! ### Functions -/

theorem uses_updateFunc (f : FuncId) (hg : ∀ x, (g x).uses = x.uses) (v : Value) :
    (m.updateFunc f g).uses v = m.uses v := by
  cases v with
  | func f' => exact m.funcs.get_update_part Func.uses f f' hg
  | inst i => rfl
  | param p => rfl
  | global g => rfl

theorem hasValue_updateFunc (f : FuncId) (g : Func → Func) (v : Value) :
    (m.updateFunc f g).HasValue v ↔ m.HasValue v := by
  cases v <;> simp [HasValue, updateFunc]

theorem Linked.updateFunc (h : m.Linked) (f : FuncId) (hg : ∀ x, (g x).uses = x.uses) :
    (m.updateFunc f g).Linked :=
  h.congr (h.wired.congr (uses_updateFunc f hg) fun v => (hasValue_updateFunc f g v).mpr)
    h.pred h.predIsSome
    h.predIsNone

theorem view_updateFunc {f : FuncId} (hbare : ∀ x, (g x).bare = g x.bare)
    (hf : m.funcs.Has f ∨ g default = default) : (m.updateFunc f g).view = m.view.setFunc f g := by
  ext1 <;> try rfl
  · funext f'
    show ((m.funcs.update f g).get f').bare = _
    rw [Pool.get_update_or _ hf, View.func_setFunc]
    split
    · exact hbare _
    · rfl
  · exact Pool.size_update _ _ _

end Module

namespace Build

variable {s : Builder} {E : Post Fault} {Q : Post Unit}

theorem wp_setInst (h : s.Linked) (hf : ∀ x, Module.Plain f x) {i : InstId}
    (hi : s.module.insts.Has i)
    (hpred : ∀ e ∈ (s.module.insts.get i).targets, ∀ b, (f (s.module.insts.get i)).block = some b →
      (s.module.edges.get e).pred = some b)
    (k : s.With (s.module.view.setInst i f) (Q ())) : wp (modifyInst i f) Q E s :=
  k _ (h.updateInst hf hpred) (Module.view_updateInst hi hf)

theorem wp_setBlock (h : s.Linked) {f : Block → Block}
    (hf : ∀ x, (f x).edges = x.edges ∧ (f x).view = f x.view)
    (hb : s.module.blocks.Has b ∨ f default = default)
    (k : s.With (s.module.view.setBlock b f) (Q ())) :
    wp (modifyBlock b f) Q E s :=
  k _ (h.updateBlock b fun x => (hf x).1)
    (Module.view_updateBlock (fun x => (hf x).1) (fun x => (hf x).2) hb)

theorem wp_setFunc (h : s.Linked) {f : FuncId} {g : Func → Func}
    (hg : ∀ x, (g x).uses = x.uses ∧ (g x).bare = g x.bare)
    (hf : s.module.funcs.Has f ∨ g default = default)
    (k : s.With (s.module.view.setFunc f g) (Q ())) :
    wp (modifyFunc f g) Q E s :=
  k _ (h.updateFunc f fun x => (hg x).1) (Module.view_updateFunc (fun x => (hg x).2) hf)

end Build

end Midlevel.Ir
