import Midlevel.Proofs.Ir.Emission

/-!
Building branches. A branch is checked against the block it leads to, and its edges are made before
it is attached; once it stands in its block the view has gained one instruction with its exits.
-/

namespace Midlevel.Ir

open Midlevel.Ir.Module

open Pass (Exit)

variable {b t : BlockId} {target : Option BlockId} {args vs : Args} {i : InstId} {es : List EdgeId}

def Cursor.funcIn (c : Cursor) (m : Module) : Option FuncId :=
  match c.block with
  | some b => (m.blocks.get b).func
  | none => c.func

/-- A branch at the cursor may lead to `t` with those arguments. -/
structure CanBranch (m : Module) (c : Cursor) (t : BlockId) (args : Args) : Prop where
  func : (m.blocks.get t).func.isSome
  here : (m.blocks.get t).func = c.funcIn m
  args : Build.checkArgs m t args = .ok ()

theorem Module.has_of_blockFunc {m : Module} (h : (m.blocks.get b).func.isSome) :
    m.blocks.Has b := by
  by_contra hn
  rw [Pool.get_of_not_has hn] at h
  exact absurd h Bool.false_ne_true

namespace Build

variable {s : Builder} {E : Post Fault}
variable {Q : Post InstId} {op : Opcode}

@[simp] theorem wp_currentFunc {Q : Post (Option FuncId)} : wp currentFunc Q E s ↔
    Q (s.cursor.funcIn s.module) s := by
  unfold currentFunc Cursor.funcIn
  rw [wp_bind, wp_cursor]
  cases s.cursor.block with
  | none => exact Iff.rfl
  | some b => exact Iff.rfl

/-! ### Checks -/

theorem wp_checkOperand {Q : Post Value} {n : Nat} {v : Option Value} {want : TypeId}
    (hE : ∀ e, (∀ w, v = some w → ¬ (want ≠ .none → s.module.valueType w = want)) → E (.error e) s)
    (k : ∀ w, v = some w → (want ≠ .none → s.module.valueType w = want) → Q w s) :
    wp (checkOperand op n v want) Q E s := by
  unfold checkOperand
  cases v with
  | none => exact hE _ fun w hw => absurd hw (by simp)
  | some v =>
    simp only [wp_bind, wp_ite]
    refine ⟨fun hbad => hE _ ?_, fun hgood => k v rfl fun hw => ?_⟩
    · rintro w hw hgood
      rw [← Option.some.inj hw] at hgood
      exact hbad.2 (hgood hbad.1)
    · by_contra hne
      exact hgood ⟨hw, hne⟩

theorem wp_checkTarget {Q : Post BlockId}
    (hE : ∀ e, (∀ t, target = some t → (s.module.blocks.get t).func.isSome →
      (s.module.blocks.get t).func ≠ s.cursor.funcIn s.module) → E (.error e) s)
    (k : ∀ t, target = some t → (s.module.blocks.get t).func.isSome →
      (s.module.blocks.get t).func = s.cursor.funcIn s.module → Q t s) :
      wp (checkTarget op target) Q E s := by
  unfold checkTarget
  cases target with
  | none => exact hE _ fun t ht => absurd ht (by simp)
  | some t =>
    simp only [wp_bind, wp_currentFunc, wp_ite]
    refine ⟨fun hbad => hE _ ?_, fun hgood => ?_⟩
    · intro t' ht' hsome hhere
      rw [← Option.some.inj ht'] at hsome hhere
      rcases hbad with hbad | hbad
      · exact absurd hsome (by simp [hbad])
      · exact hbad hhere
    · rw [not_or, not_not, Option.isNone_iff_eq_none, ← ne_eq, ← Option.isSome_iff_ne_none] at hgood
      exact k t rfl hgood.1 hgood.2

theorem wp_checkBranchArgs {Q : Post Unit}
    (hE : ∀ e, checkArgs s.module t args ≠ .ok () → E (.error e) s)
    (k : checkArgs s.module t args = .ok () → Q () s) : wp (checkBranchArgs op t args) Q E s := by
  unfold checkBranchArgs
  rw [wp_bind, wp_module]
  cases hc : checkArgs s.module t args with
  | ok u => exact k hc
  | error e => exact hE _ (by rw [hc]; simp)

/-! ### Branches -/

/-- A branch under construction: instruction `i` of a linked module, in no block, whose edges `es`
are made but not yet entered in it. -/
structure UnderWay (m : Module) (i : InstId) (es : List EdgeId) (b : BlockId) : Prop where
  linked : (m.withTargets i es).Linked
  has : m.insts.Has i
  block : (m.insts.get i).block = none
  pred : ∀ e ∈ es, (m.edges.get e).pred = some b

theorem wp_newInst_underWay (h : s.module.Linked) {x : Inst} (hx : Fresh x)
    (hblock : x.block = none)
    (hvs : ∀ w, some w ∈ vs → s.module.HasValue w) (b : BlockId)
    (k : ∀ m', UnderWay m' s.view.nextInst [] b →
      (m'.withTargets s.view.nextInst []).view = s.view.addInst x vs →
      (∀ c, m'.blocks.Has c ↔ s.module.blocks.Has c) →
      (∀ w, s.module.HasValue w → m'.HasValue w) →
      Q s.view.nextInst { s with module := m' }) : wp (newInst x vs) Q E s := by
  refine wp_newInst h hx.uses hx.operands hx.targets hvs fun m' hm' hview => ?_
  have hi : m'.insts.Has s.view.nextInst := hasInst_of_view hview (Nat.lt_succ_self _)
  have htargets : (m'.insts.get s.view.nextInst).targets = [] := by
    have : m'.view.exits s.view.nextInst = [] := by
      rw [hview]
      exact s.module.exits_next
    exact List.map_eq_nil_iff.mp this
  have hsame : m'.withTargets s.view.nextInst [] = m' := by
    unfold withTargets updateInst
    rw [Pool.update_eq_self]
    generalize m'.insts.get s.view.nextInst = y at htargets
    cases y
    cases htargets
    rfl
  have hinst : (m'.insts.get s.view.nextInst).view = x.view := by
    have : m'.view.inst s.view.nextInst = x.view := by
      rw [hview]
      exact Function.update_self ..
    exact this
  refine k m' ⟨hsame.symm ▸ hm', hi, ?_, by simp⟩ ?_ ?_ ?_
  · have : (m'.insts.get s.view.nextInst).view.block = x.view.block := by rw [hinst]
    exact this.trans hblock
  · rw [hsame, hview, hx.view]
  · intro c
    show c.index < m'.view.blocks ↔ c.index < s.view.blocks
    rw [hview]
    rfl
  · intro w hw
    rw [hasValue_iff_view] at hw ⊢
    rw [hview]
    cases w with
    | inst j => exact Nat.lt_succ_of_lt hw
    | param p => exact hw
    | func f => exact hw
    | global g => exact hw

theorem wp_newEdge_underWay {Q : Post EdgeId} (h : UnderWay s.module i es b)
    (ht : s.module.blocks.Has t) (hvs : ∀ w, some w ∈ vs → s.module.HasValue w)
    (k : ∀ e m', UnderWay m' i (es ++ [e]) b → (m'.withTargets i (es ++ [e])).view =
        (s.module.withTargets i es).view.addExit i { target := some t, args := vs } →
      (∀ c, m'.blocks.Has c ↔ s.module.blocks.Has c) →
      (∀ w, m'.HasValue w ↔ s.module.HasValue w) → Q e { s with module := m' }) :
    wp (newEdge t (some b) (some i) vs) Q E s :=
  wp_newEdge h.linked h.has ht h.block hvs h.pred fun e m' hl hv hi hbs hvals hbl hp =>
    k e m' ⟨hl, hi, hbl, hp⟩ hv hbs hvals

theorem wp_finishBranch {Q : Post Unit} (h : UnderWay s.module i es b) (hb : s.module.blocks.Has b)
    (k : ∀ m', m'.Linked → m'.view = (s.module.withTargets i es).view.place i b s.cursor.before →
      Q () (s.log m' i)) :
    wp (do modifyInst i ({ · with targets := es }); attach i b) Q E s := by
  rw [wp_bind, wp_modifyInst]
  refine wp_attach h.linked ?_ hb ?_ k
  · show (s.module.insts.update i _).Has i
    rw [Pool.has_update]
    exact h.has
  · intro e he
    have he' : e ∈ ((s.module.withTargets i es).insts.get i).targets := he
    rw [get_withTargets h.has, if_pos rfl] at he'
    exact h.pred e he'

theorem wp_br (h : s.Linked) (hargs : ∀ w, some w ∈ args → s.module.HasValue w)
    (hE : ∀ e, (∀ t b, target = some t → CanBranch s.module s.cursor t args →
      ¬ CanAttach s.module s.cursor .br b) → E (.error e) s)
    (k : ∀ t b m', target = some t → CanBranch s.module s.cursor t args →
      CanAttach s.module s.cursor .br b → m'.Linked →
      m'.view = s.view.emit { op := .br, type := .void } [] [⟨some t, args⟩] b s.cursor.before →
      Q s.view.nextInst (s.log m' s.view.nextInst)) :
    wp (br target args) Q E s := by
  unfold br
  rw [wp_bind]
  refine wp_checkTarget (fun e hbad => hE e fun t b ht hc => absurd hc.here (hbad t ht hc.func))
    fun t ht hfunc hhere => ?_
  rw [wp_bind]
  refine wp_checkBranchArgs (fun e hbad => hE e fun t' b ht' hc => absurd hc.args ?_)
    fun hargsOk => ?_
  · rwa [← Option.mem_unique ht ht']
  rw [wp_bind]
  have hcan : CanBranch s.module s.cursor t args := ⟨hfunc, hhere, hargsOk⟩
  refine wp_checkAttach (fun e hbad => hE e fun t' b _ _ => hbad b) fun b hattach => ?_
  rw [wp_bind]
  refine wp_newInst_underWay h ⟨rfl, rfl, rfl⟩ rfl (by simp) b
    fun m₁ hm₁ hview₁ hblocks₁ hvalues₁ => ?_
  rw [wp_bind]
  refine wp_newEdge_underWay hm₁ ((hblocks₁ t).mpr (has_of_blockFunc hfunc))
    (fun w hw => hvalues₁ w (hargs w hw)) fun e m₂ hm₂ hview₂ hblocks₂ _ => ?_
  have hb : m₂.blocks.Has b := (hblocks₂ b).mpr ((hblocks₁ b).mpr hattach.has)
  rw [← bind_assoc, wp_bind]
  refine wp_finishBranch hm₂ hb fun m₃ hm₃ hview₃ => k t b m₃ ht hcan hattach hm₃ ?_
  rw [hview₁, ← View.addBranch_nil s.module.exits_next, View.addExit_addBranch] at hview₂
  rw [View.emit, ← List.nil_append [Exit.mk _ _], ← hview₂]
  exact hview₃

theorem wp_condBr (h : s.Linked) {cond : Option Value} {onTrue onFalse : Option BlockId}
    {trueArgs falseArgs : Args} (hcond : ∀ w, cond = some w → s.module.HasValue w)
    (hargs : ∀ w, some w ∈ trueArgs ++ falseArgs → s.module.HasValue w)
    (hE : ∀ e, (∀ c t f b, cond = some c → s.module.valueType c = .bool →
      onTrue = some t → CanBranch s.module s.cursor t trueArgs →
      onFalse = some f → CanBranch s.module s.cursor f falseArgs →
      ¬ CanAttach s.module s.cursor .condBr b) → E (.error e) s)
    (k : ∀ c t f b m', cond = some c → s.module.valueType c = .bool →
      onTrue = some t → CanBranch s.module s.cursor t trueArgs →
      onFalse = some f → CanBranch s.module s.cursor f falseArgs →
      CanAttach s.module s.cursor .condBr b → m'.Linked →
      m'.view = s.view.emit { op := .condBr, type := .void } [some c]
        [⟨some t, trueArgs⟩, ⟨some f, falseArgs⟩] b s.cursor.before →
      Q s.view.nextInst (s.log m' s.view.nextInst)) :
    wp (condBr cond onTrue trueArgs onFalse falseArgs) Q E s := by
  unfold condBr
  rw [wp_bind]
  refine wp_checkOperand (fun e hbad => hE e fun c t f b hc hbool _ _ _ _ _ =>
    hbad c hc fun _ => hbool)
    fun c hc hbool => ?_
  replace hbool := hbool (by decide)
  rw [wp_bind]
  refine wp_checkTarget (fun e hbad => hE e fun _ t _ _ _ _ ht hcan _ _ _ =>
    absurd hcan.here (hbad t ht hcan.func)) fun t ht htfunc hthere => ?_
  rw [wp_bind]
  refine wp_checkTarget (fun e hbad => hE e fun _ _ f _ _ _ _ _ hf hcan _ =>
    absurd hcan.here (hbad f hf hcan.func)) fun f hf hffunc hfhere => ?_
  rw [wp_bind]
  refine wp_checkBranchArgs (fun e hbad => hE e fun _ t' _ _ _ _ ht' hcan _ _ _ =>
    absurd hcan.args ?_) fun htargs => ?_
  · rwa [← Option.mem_unique ht ht']
  rw [wp_bind]
  refine wp_checkBranchArgs (fun e hbad => hE e fun _ _ f' _ _ _ _ _ hf' hcan _ =>
    absurd hcan.args ?_) fun hfargs => ?_
  · rwa [← Option.mem_unique hf hf']
  rw [wp_bind]
  have htcan : CanBranch s.module s.cursor t trueArgs := ⟨htfunc, hthere, htargs⟩
  have hfcan : CanBranch s.module s.cursor f falseArgs := ⟨hffunc, hfhere, hfargs⟩
  refine wp_checkAttach (fun e hbad => hE e fun _ _ _ b _ _ _ _ _ _ => hbad b) fun b hattach => ?_
  rw [wp_bind]
  refine wp_newInst_underWay h ⟨rfl, rfl, rfl⟩ rfl ?_ b fun m₁ hm₁ hview₁ hblocks₁ hvalues₁ => ?_
  · intro w hw
    refine hcond w ?_
    rw [hc, List.mem_singleton.mp hw]
  rw [wp_bind]
  refine wp_newEdge_underWay hm₁ ((hblocks₁ t).mpr (has_of_blockFunc htfunc))
    (fun w hw => hvalues₁ w (hargs w (List.mem_append_left _ hw)))
    fun et m₂ hm₂ hview₂ hblocks₂ hvalues₂ => ?_
  rw [wp_bind]
  refine wp_newEdge_underWay hm₂ ((hblocks₂ f).mpr ((hblocks₁ f).mpr (has_of_blockFunc hffunc)))
    (fun w hw => (hvalues₂ w).mpr (hvalues₁ w (hargs w (List.mem_append_right _ hw))))
    fun ef m₃ hm₃ hview₃ hblocks₃ _ => ?_
  have hb : m₃.blocks.Has b := (hblocks₃ b).mpr ((hblocks₂ b).mpr ((hblocks₁ b).mpr hattach.has))
  rw [← bind_assoc, wp_bind]
  refine wp_finishBranch hm₃ hb fun m₄ hm₄ hview₄ =>
    k c t f b m₄ hc hbool ht htcan hf hfcan hattach hm₄ ?_
  rw [hview₁, ← View.addBranch_nil s.module.exits_next, View.addExit_addBranch] at hview₂
  rw [hview₂, View.addExit_addBranch] at hview₃
  exact hview₄.trans (congrArg (View.place · _ b _) hview₃)

end Build

end Midlevel.Ir
