import Midlevel.Proofs.Ir.Branches

/-!
Edits of single instructions. Erasing an instruction silences it, takes it out of its block and
marks it; attaching one that was taken out tells its edges where it went.
-/

namespace Midlevel.Ir

open Midlevel.Ir.Module List

open Pass (Exit)

variable (es : List EdgeId) (b : BlockId)

namespace View

variable {i : InstId} {w : View}

def unlink (w : View) (i : InstId) : View :=
  { w with
    inst := fun j => if j = i then { w.inst j with block := none } else w.inst j
    block := fun b => if (w.inst i).block = some b then
      { w.block b with insts := (w.block b).insts.filter (· ≠ i) } else w.block b }

def discard (w : View) (i : InstId) : View :=
  ((w.silence i).unlink i).setInst i ({ · with erased := true })

theorem unlink_of_none (h : (w.inst i).block = none) : w.unlink i = w := by
  ext1 <;> try rfl
  · funext j
    show (if j = i then { w.inst j with block := none } else w.inst j) = w.inst j
    split
    · next hj =>
      subst hj
      rw [← h]
    · rfl
  · funext b
    show (if (w.inst i).block = some b then _ else w.block b) = w.block b
    rw [h, if_neg (by simp)]

theorem unlink_of_some {b : BlockId} (h : (w.inst i).block = some b) :
    w.unlink i = (w.setBlock b fun x => { x with insts := x.insts.filter (· ≠ i) }).setInst i
      ({ · with block := none }) := by
  ext1 <;> try rfl
  · funext j
    rw [inst_setInst]
    rfl
  · funext c
    rw [block_setInst, block_setBlock]
    show (if (w.inst i).block = some c then _ else w.block c) = _
    rw [h]
    by_cases hc : c = b
    · rw [if_pos hc, if_pos (by rw [hc])]
    · rw [if_neg hc, if_neg fun hbc => hc (Option.some.inj hbc).symm]

def Placed (w : View) (i : InstId) : Prop := ∀ b, i ∈ (w.block b).insts → (w.inst i).block = some b

theorem block_unlink (h : w.Placed i) (c : BlockId) :
    (w.unlink i).block c = { w.block c with insts := (w.block c).insts.filter (· ≠ i) } := by
  show (if (w.inst i).block = some c then _ else w.block c) = _
  split
  · rfl
  · next hn =>
    have hself : (w.block c).insts.filter (· ≠ i) = (w.block c).insts :=
      filter_eq_self.mpr fun j hj => decide_eq_true fun hji => hn (h c (hji ▸ hj))
    rw [hself]

theorem inst_discard (w : View) (i j : InstId) : (w.discard i).inst j =
    if j = i then { w.inst j with block := none, erased := true } else w.inst j := by
  unfold discard
  by_cases hj : j = i <;> simp [hj, unlink, silence]

theorem reads_discard (w : View) (i j : InstId) : (w.discard i).reads j = if j = i then []
    else w.reads j :=
  Function.update_apply ..

theorem exits_discard (w : View) (i j : InstId) : (w.discard i).exits j = if j = i then []
    else w.exits j :=
  Function.update_apply ..

theorem block_discard (h : w.Placed i) (c : BlockId) :
    (w.discard i).block c = { w.block c with insts := (w.block c).insts.filter (· ≠ i) } :=
  block_unlink h c

theorem has_discard (w : View) (i : InstId) (v : Value) : (w.discard i).Has v ↔ w.Has v := by
  cases v <;> exact Iff.rfl

end View

namespace Module

variable {m : Module}

/-! ### Taking out -/

def cursorPast (m : Module) (i : InstId) (c : Cursor) : Cursor :=
  if c.before = some i then { c with before := m.nextInst i } else c

/-! ### Putting back -/

def setPreds (m : Module) (es : List EdgeId) (b : BlockId) : Module :=
  { m with edges := es.foldl (fun p e => p.update e ({ · with pred := some b })) m.edges }

theorem edge_setPreds (e : EdgeId) : ((m.setPreds es b).edges.get e).target =
    (m.edges.get e).target ∧
    ((m.setPreds es b).edges.get e).source = (m.edges.get e).source ∧
    ((m.setPreds es b).edges.get e).args = (m.edges.get e).args := by
  unfold setPreds
  generalize m.edges = p
  induction es generalizing p with
  | nil => exact ⟨rfl, rfl, rfl⟩
  | cons d es ih =>
    obtain ⟨ht, hs, ha⟩ := ih (p.update d ({ · with pred := some b }))
    exact ⟨ht.trans (p.get_update_part Edge.target d e fun _ => rfl),
      hs.trans (p.get_update_part Edge.source d e fun _ => rfl),
      ha.trans (p.get_update_part Edge.args d e fun _ => rfl)⟩

theorem pred_setPreds {es : List EdgeId} (hes : ∀ e ∈ es, m.edges.Has e) (b : BlockId)
    (e : EdgeId) :
    ((m.setPreds es b).edges.get e).pred = if e ∈ es then some b else (m.edges.get e).pred := by
  unfold setPreds
  generalize m.edges = p at hes ⊢
  induction es generalizing p with
  | nil => simp
  | cons d es ih =>
    have hd : p.Has d := hes d mem_cons_self
    have hrest := ih (p.update d ({ · with pred := some b })) fun e' he' => by
      rw [Pool.has_update]
      exact hes e' (mem_cons_of_mem _ he')
    refine hrest.trans ?_
    rw [Pool.get_update _ hd]
    by_cases hmem : e ∈ es
    · rw [if_pos hmem, if_pos (mem_cons_of_mem _ hmem)]
    · rw [if_neg hmem]
      by_cases hed : e = d
      · rw [if_pos hed, if_pos (hed ▸ mem_cons_self)]
      · rw [if_neg hed, if_neg (by simp [hed, hmem])]

theorem view_setPreds : (m.setPreds es b).view = m.view := by
  have hedge := m.edge_setPreds es b
  ext1 <;> try rfl
  · funext i
    refine map_congr_left fun e _ => ?_
    show Exit.mk ((m.setPreds es b).edges.get e).target
      (((m.setPreds es b).edges.get e).args.map m.operandValue) = _
    rw [(hedge e).1, (hedge e).2.2]
  · funext c
    show ((m.blocks.get c).edges.filter fun e => ((m.setPreds es b).edges.get e).source.isNone).map
      (fun e => ((m.setPreds es b).edges.get e).args.map m.operandValue) = _
    simp only [fun e => (hedge e).2.1, fun e => (hedge e).2.2]
    rfl

theorem Linked.rehome (h : m.Linked) {i : InstId} {b : BlockId} {f : Inst → Inst}
    (hf : ∀ x, Plain f x)
    (hi : m.insts.Has i) (hblock : ∀ x, (f x).block = some b) :
    ((m.updateInst i f).setPreds (m.insts.get i).targets b).Linked := by
  have hes : ∀ e ∈ (m.insts.get i).targets, (m.updateInst i f).edges.Has e := fun e he => by
    obtain ⟨t, ht⟩ := (h.target i e he).2
    exact hasEdge_of_target ht
  have hpred := fun e => pred_setPreds hes b e
  refine h.congr (h.wired.congr (uses_updateInst i fun x => (hf x).uses) fun v =>
    (hasValue_updateInst i f v).mpr) ?_ ?_ ?_
    (fun c => rfl) (fun j => m.insts.get_update_part Inst.operands i j fun x => (hf x).operands)
    (fun j => m.insts.get_update_part Inst.targets i j fun x => (hf x).targets)
    fun e => (m.updateInst i f).edge_setPreds _ b e
  · intro j e he c hc
    have hc' : ((m.insts.update i f).get j).block = some c := hc
    rw [hpred]
    rw [Pool.get_update _ hi] at hc'
    by_cases hj : j = i
    · rw [if_pos hj, hblock] at hc'
      rw [if_pos (hj ▸ he), hc']
    · rw [if_neg hj] at hc'
      rw [if_neg fun hmem =>
        hj (Option.some.inj ((h.target j e he).1.symm.trans (h.target i e hmem).1))]
      exact h.pred j e he c hc'
  · intro j e he
    rw [hpred]
    split
    · rfl
    · exact h.predIsSome j e he
  · intro e he
    rw [hpred, if_neg fun hmem => absurd ((h.target i e hmem).1.symm.trans he) (by simp)]
    exact h.predIsNone e he

end Module

namespace Build

variable {s : Builder} {E : Post Fault} {Q : Post Unit}
variable {i : InstId}

/-! ### Erasing -/

theorem wp_unlink (h : s.Linked) (i : InstId) (k : s.With (s.module.view.unlink i) (Q ())) :
    wp (unlink i) Q E s := by
  unfold unlink
  rw [wp_bind, wp_inst]
  cases hblock : (s.module.insts.get i).block with
  | none =>
    refine k s.module h ?_
    exact (View.unlink_of_none hblock).symm
  | some b =>
    rw [wp_bind]
    have hi : s.module.insts.Has i := has_of_instBlock hblock
    refine wp_setBlock h (fun _ => by trivial) (.inr rfl) fun m₁ h₁ hview₁ => ?_
    refine wp_setInst h₁ (fun _ => by constructor <;> rfl) (hasInst_of_view hview₁ hi)
      (fun e he c hc => absurd hc (by simp))
      fun m₂ h₂ hview₂ => k m₂ h₂ ?_
    refine hview₂.trans ?_
    rw [hview₁]
    exact (View.unlink_of_some hblock).symm

theorem wp_discard (h : s.Linked) (hi : s.module.insts.Has i)
    (k : s.With (s.module.view.discard i) (Q ())) :
    wp (discard i) Q E s := by
  unfold discard
  rw [wp_bind]
  refine wp_dropAll h i fun m₁ h₁ hview₁ => ?_
  rw [wp_bind]
  refine wp_unlink h₁ i fun m₂ h₂ hview₂ => ?_
  have hi₂ : m₂.insts.Has i := hasInst_of_view hview₂ (hasInst_of_view hview₁ hi)
  refine wp_setInst h₂ (fun _ => by constructor <;> rfl) hi₂ (h₂.pred i) fun m₃ h₃ hview₃ =>
    k m₃ h₃ ?_
  refine hview₃.trans ?_
  rw [hview₂]
  unfold View.discard
  rw [← hview₁]

theorem wp_eraseFrom (h : s.Linked) {b : BlockId}
    (hE : ∀ e, ¬ ((s.module.insts.get i).block = some b ∧ i ∈ (s.module.blocks.get b).insts) →
      E (.error e) s)
    (hC : ∀ c, c ≠ .corruptUses → s.module.view.Reads (.inst i) → E (.crash c) s)
    (k : ∀ m', i ∈ (s.module.blocks.get b).insts → m'.Linked → m'.view = s.module.view.discard i →
      Q () { s with module := m', cursor := s.module.cursorPast i s.cursor }) :
    wp (eraseFrom (some b) (some i)) Q E s := by
  unfold eraseFrom
  simp only [wp_bind, wp_ite]
  refine ⟨fun hbad => hE _ fun hgood => ?_, fun hgood => ?_⟩
  · exact hbad.elim (fun hc => hc hgood.1) (fun hc => hc hgood.2)
  rw [not_or, not_not, not_not] at hgood
  have huses : ¬ (s.module.insts.get i).uses.isEmpty ↔ s.view.Reads (.inst i) := by
    rw [List.isEmpty_iff]
    exact not_iff_comm.mp h.uses_eq_nil.symm
  refine ⟨fun hused => hC _ (by simp) (huses.mp (by simpa using hused)), fun _ => ?_⟩
  have hi : s.module.insts.Has i := has_of_instBlock hgood.1
  refine ⟨fun hcursor => ?_, fun hcursor => ?_⟩
  · refine wp_discard h hi fun m' hm' hview => ?_
    have := k m' hgood.2 hm' hview
    unfold cursorPast at this
    rwa [if_pos hcursor] at this
  · refine wp_discard h hi fun m' hm' hview => ?_
    have := k m' hgood.2 hm' hview
    unfold cursorPast at this
    rwa [if_neg hcursor] at this

/-! ### Attaching again -/

theorem wp_setPreds : wp (es.forM fun e => modifyEdge e ({ · with pred:= some b })) Q E s ↔
      Q () { s with module := s.module.setPreds es b } := by
  induction es generalizing s with
  | nil => exact Iff.rfl
  | cons e es ih =>
    exact ih

theorem wp_insert (h : s.Linked) (hi : s.module.insts.Has i)
    (hE : ∀ e, ((s.module.insts.get i).block = none → (s.module.insts.get i).erased = false →
      ∀ b, ¬ CanAttach s.module s.cursor (s.module.insts.get i).op b) → E (.error e) s)
    (k : ∀ b m', (s.module.insts.get i).block = none → (s.module.insts.get i).erased = false →
      CanAttach s.module s.cursor (s.module.insts.get i).op b → m'.Linked →
      m'.view = s.module.view.place i b s.cursor.before → Q () (s.log m' i)) :
      wp (insert (some i)) Q E s := by
  unfold insert
  simp only [wp_bind, wp_ite]
  refine ⟨fun hno => hE _ fun hblock herased => ?_, fun hdetached => ?_⟩
  · simp [isDetached, hblock, herased] at hno
  have hdet : (s.module.insts.get i).block = none ∧ (s.module.insts.get i).erased = false := by
    simpa [isDetached] using hdetached
  refine wp_checkAttach (fun e hno => hE e fun _ _ => hno) fun b hcan => ?_
  unfold attach
  simp only [wp_bind, wp_modifyBlock, wp_modifyInst, wp_setPreds]
  have hplain : ∀ x, Module.Plain ({ · with block := some b, erased := false }) x := fun _ =>
    ⟨rfl, rfl, rfl, rfl⟩
  have hblock := h.updateBlock b (f := fun x =>
    { x with insts := insertBefore i s.cursor.before x.insts }) fun _ => rfl
  refine k b _ hdet.1 hdet.2 hcan (hblock.rehome hplain hi fun _ => rfl) ?_
  rw [view_setPreds, view_updateInst (m := s.module.updateBlock b _) hi hplain,
    view_updateBlock (f := fun x =>
      { x with insts := insertBefore i s.cursor.before x.insts }) (fun _ => rfl) (fun _ => rfl)
      (.inl hcan.has)]
  rfl

end Build

end Midlevel.Ir
