import Midlevel.Proofs.Ir.Updates

/-!
How code grows. A new instruction comes with operands of its own, a branch with edges of its own; a
module that was linked before stays linked, and the view gains one instruction at the cursor.
-/

namespace Midlevel.Ir

open Midlevel.Ir.Module List Pool Option
open Function (update update_apply update_idem)

open Pass (Exit exitsOf)

variable {w : View} {ps os : List OperandId} {x : Inst} {i : InstId} {Q : Post InstId}
  {vs : Args} {b t : BlockId} {o : OperandId}

namespace View

def nextInst (w : View) : InstId := ⟨w.insts⟩

def addInst (w : View) (x : Inst) (vs : Args) : View :=
  { w with
    inst := update w.inst w.nextInst x
    reads := update w.reads w.nextInst vs
    insts := w.insts + 1 }

def place (w : View) (i : InstId) (b : BlockId) (before : Option InstId) : View :=
  (w.setBlock b fun x => { x with insts := Build.insertBefore i before x.insts }).setInst i
    ({ · with block := some b, erased := false })

def addBranch (w : View) (x : Inst) (vs : Args) (exits : List Exit) : View :=
  { w.addInst x vs with exits := update w.exits w.nextInst exits }

def emit (w : View) (x : Inst) (vs : List (Option Value)) (exits : List Exit) (b : BlockId)
    (before : Option InstId) : View :=
  (w.addBranch x vs exits).place w.nextInst b before

def addExit (w : View) (i : InstId) (x : Exit) : View :=
  { w with exits := update w.exits i (w.exits i ++ [x]) }

theorem addBranch_nil (h : w.exits w.nextInst = []) (x : Inst) (vs : Args) :
    w.addBranch x vs [] = w.addInst x vs := by
  unfold addBranch
  rw [← h, Function.update_eq_self]
  rfl

theorem addExit_addBranch (w : View) (x : Inst) (vs : Args) (xs : List Exit)
    (y : Exit) : (w.addBranch x vs xs).addExit w.nextInst y = w.addBranch x vs (xs ++ [y]) := by
  ext1 <;> try rfl
  show update (update w.exits _ xs) _ (update w.exits _ xs _ ++ [y]) = _
  rw [Function.update_self, update_idem]
  rfl

def unlinked (w : View) : View :=
  { w with reads := fun _ => [], exits := fun _ => [], entered := fun _ => True,
           opens := fun _ => [] }

theorem eq_of_unlinked {w' : View} (h : w'.unlinked = w.unlinked) (hreads : w'.reads = w.reads)
    (hexits : w'.exits = w.exits) (hentered : w'.entered = w.entered)
    (hopens : w'.opens = w.opens) : w' = w := by
  cases w
  cases w'
  simp_all [unlinked]

def addOpen (w : View) (b : BlockId) (vs : Args) : View :=
  { w with opens := update w.opens b (w.opens b ++ [vs]) }

end View

namespace Module

variable {m m' : Module}

theorem Adds.operandValues_old {user : Option InstId} (h : m.Adds m' os vs user)
    (hps : ∀ o ∈ ps, m.operands.Has o) : ps.map m'.operandValue = ps.map m.operandValue :=
  map_congr_left fun o ho => h.value_of_not_mem o fun hc => h.fresh o hc (hps o ho)

/-! ### A new instruction -/

theorem Linked.pushInst (h : m.Linked) (huses : x.uses = []) (hoperands : x.operands = [])
    (htargets : x.targets = []) :
    { m with insts := m.insts.push x }.Linked := by
  refine h.congr (h.wired.congr (fun v => ?_) fun v hv =>
    hv.mono (m.insts.size_le_push x) .refl .refl .refl)
    ?_ h.predIsSome h.predIsNone (fun _ => rfl)
      (m.insts.get_push_part_of_default Inst.operands hoperands)
    (m.insts.get_push_part_of_default Inst.targets htargets)
  · cases v with
    | inst j => exact m.insts.get_push_part_of_default Inst.uses huses j
    | param p => rfl
    | func f => rfl
    | global g => rfl
  · intro j e he b hb
    refine h.pred j e he b ?_
    rw [← hb]
    rw [get_push, if_neg]
    rintro rfl
    rw [get_next] at he
    cases he

theorem view_pushInst (hoperands : x.operands = []) (htargets : x.targets = []) :
    { m with insts := m.insts.push x }.view = m.view.addInst x.view [] := by
  have htgt := m.insts.get_push_part_of_default Inst.targets htargets
  ext1 <;> try rfl
  · exact m.insts.get_push_part x Inst.view
  · refine (m.insts.get_push_part x fun y => y.operands.map m.operandValue).trans ?_
    rw [hoperands]
    rfl
  · exact funext fun j => congrArg (List.map _) (htgt j)
  · exact funext fun j => congrArg (fun es => ∀ e ∈ es, ∃ b, e ∈ (m.blocks.get b).edges) (htgt j)
  · exact Array.size_push x

theorem Linked.giveOperands (h : m.Linked) (hi : m.insts.Has i)
    (hnil : (m.insts.get i).operands = []) (ha : m.Adds m' os vs (some i)) :
    (m'.updateInst i ({ · with operands := os })).Linked := by
  -- Edges and blocks are those of `m`, so what only reads them is settled by what `m` has.
  obtain ⟨name, types, providers, order, typeDecls, funcs, blocks, insts, params, operands, edges,
    globals⟩ := m'
  obtain rfl : edges = m.edges := skeleton_edges ha.skeleton
  obtain rfl : blocks = m.blocks := skeleton_blocks ha.skeleton
  have hops : ∀ j, ((insts.update i ({ · with operands := os })).get j).operands =
      if j = i then os else (m.insts.get j).operands := by
    intro j
    rw [get_update _ ((skeleton_hasInst ha.skeleton i).mpr hi)]
    split
    · rfl
    · exact skeleton_operands ha.skeleton j
  have htargets : ∀ j, ((insts.update i ({ · with operands := os })).get j).targets =
      (m.insts.get j).targets :=
    fun j => (insts.get_update_part Inst.targets i j (by intro; rfl)).trans
      (skeleton_targets ha.skeleton j)
  have huser : ∀ o, m.operands.Has o →
      (operands.get o).user = (m.operands.get o).user := fun o ho =>
    (ha.user o).trans (if_neg fun hc => ha.fresh o hc ho)
  refine ⟨ha.wired.updateInst i fun _ => rfl, ?_, fun e o ho => ?_, h.openArg, ?_,
    fun j e he => h.target j e (htargets j ▸ he), fun b e he => ?_, h.enters, fun j e he b hb => ?_,
    fun j e he => h.predIsSome j e (htargets j ▸ he), h.predIsNone,
      fun j => htargets j ▸ h.targetsNodup j,
    h.edgesNodup⟩
  · intro j o ho
    rw [Module.updateInst, hops] at ho
    split at ho
    · next hj =>
      refine ⟨(ha.has o).mpr (.inr ho), ?_⟩
      rw [hj]
      exact (ha.user o).trans (if_pos ho)
    · have := h.operand j o ho
      exact ⟨(ha.has o).mpr (.inl this.1), (huser o this.1).trans this.2⟩
  · have := h.arg e o ho
    exact ⟨(ha.has o).mpr (.inl this.1), (huser o this.1).trans this.2⟩
  · intro o v hv
    by_cases ho : o ∈ os
    · have hu : (operands.get o).user = some i := (ha.user o).trans (if_pos ho)
      refine ⟨fun j hj => ?_, fun hn => ?_⟩
      · have hji : j = i := mem_unique hj hu
        rw [mem_allOperands, Module.updateInst, hops, if_pos hji]
        exact .inl ho
      · cases hu.symm.trans hn
    · have hv' : m.operandValue o = some v := (ha.value_of_not_mem o ho).symm.trans hv
      have hhas := hasOperand_of_value hv'
      refine ⟨fun j hj => ?_, fun hn => (h.owned o v hv').2 ((huser o hhas).symm.trans hn)⟩
      have hmem := (h.owned o v hv').1 j ((huser o hhas).symm.trans hj)
      rw [mem_allOperands] at hmem ⊢
      rw [Module.updateInst, hops, htargets]
      refine hmem.imp_left fun hc => ?_
      rw [if_neg]
      · exact hc
      · rintro rfl
        rw [hnil] at hc
        cases hc
  · exact ⟨(h.incoming b e he).1, fun j hj => (htargets j).symm ▸ (h.incoming b e he).2 j hj⟩
  · refine h.pred j e (htargets j ▸ he) b ?_
    rw [← skeleton_instBlock ha.skeleton j, ← hb]
    exact (insts.get_update_part Inst.block i j (by intro; rfl)).symm

theorem Adds.view {user : Option InstId} (ha : m.Adds m' os vs user) (h : m.Linked) :
    m'.view = m.view := by
  have hskel : m'.view = m.viewWith m'.operandValue := by
    rw [Module.view, ← m'.viewWith_skeleton, ha.skeleton, m.viewWith_skeleton]
  rw [hskel]
  ext1 <;> try rfl
  · funext i
    exact ha.operandValues_old fun o ho => (h.operand i o ho).1
  · funext i
    refine map_congr_left fun e _ => ?_
    congr 1
    exact ha.operandValues_old fun o ho => (h.arg e o ho).1
  · funext b
    refine map_congr_left fun e _ => ?_
    exact ha.operandValues_old fun o ho => (h.arg e o ho).1

theorem view_setOperands (hi : m.insts.Has i) (os : List OperandId) :
    (m.updateInst i ({ · with operands := os })).view =
      { m.view with reads := update m.view.reads i (m.operandValues os) } := by
  have htargets : ∀ j, ((m.insts.update i ({ · with operands := os })).get j).targets =
      (m.insts.get j).targets := fun j => m.insts.get_update_part Inst.targets i j fun _ => rfl
  ext1 <;> try rfl
  · exact funext fun j => m.insts.get_update_part Inst.view i j fun _ => rfl
  · funext j
    show ((m.insts.update i _).get j).operands.map _ =
      update (fun j => (m.insts.get j).operands.map m.operandValue) i _ j
    rw [get_update _ hi, update_apply]
    split <;> rfl
  · exact funext fun j => congrArg (List.map _) (htargets j)
  · exact funext fun j =>
      congrArg (fun es => ∀ e ∈ es, ∃ b, e ∈ (m.blocks.get b).edges) (htargets j)
  · exact size_update _ _ _

end Module

namespace Build

variable {s : Builder} {E : Post Fault}

theorem wp_newInst (h : s.Linked) (huses : x.uses = []) (hoperands : x.operands = [])
    (htargets : x.targets = [])
    (hvs : ∀ w, some w ∈ vs → s.HasValue w) (k : s.With (s.view.addInst x.view vs)
      (Q s.view.nextInst)) : wp (newInst x vs) Q E s := by
  unfold newInst
  simp only [wp_bind, wp_module, wp_modifyModule, wp_modifyInst]
  have h₁ := h.pushInst huses hoperands htargets
  have hview₁ := view_pushInst (m := s.module) hoperands htargets
  have hnew : (s.module.insts.push x).get s.module.insts.next = x := by
    rw [get_push, if_pos rfl]
  have hi : (s.module.insts.push x).Has s.module.insts.next := (has_push _ _ _).mpr (.inr rfl)
  generalize hm₁ : { s.module with insts := s.module.insts.push x } = m₁ at h₁ hview₁
  have hi₁ : m₁.insts.Has s.module.insts.next := hm₁ ▸ hi
  have hnil : (m₁.insts.get s.module.insts.next).operands = [] := by
    rw [← hm₁, hnew, hoperands]
  have hvs₁ : ∀ w, some w ∈ vs → m₁.HasValue w := by
    intro w hw
    rw [← hm₁]
    exact (hvs w hw).mono (s.module.insts.size_le_push x) .refl .refl .refl
  have ha := adds_newOperands h₁.wired vs (some s.module.insts.next) hvs₁
  refine k _ (h₁.giveOperands hi₁ hnil ha) ?_
  rw [view_setOperands ((skeleton_hasInst ha.skeleton _).mpr hi₁), ha.view h₁, ha.values, hview₁]
  have hnext : s.module.insts.next = s.view.nextInst := rfl
  simp only [View.addInst]
  rw [hnext, update_idem]

end Build

/-! ### A new edge -/

namespace Module

variable {m m' : Module}

theorem hasEdge_of_target {e : EdgeId} (h : (m.edges.get e).target = some b) : m.edges.Has e := by
  by_contra hn
  rw [get_of_not_has hn] at h
  exact absurd h (some_ne_none b).symm

/-- `m'` is `m` with an edge `e` into `t`, which leaves `source` last and passes the new operands
`os`. -/
structure EdgeAdded (m m' : Module) (e : EdgeId) (t : BlockId) (pred : Option BlockId)
    (source : Option InstId) (os : List OperandId) : Prop where
  wired : m'.Wired
  freshOperand : ∀ o ∈ os, ¬ m.operands.Has o
  hasOperand : ∀ o, m'.operands.Has o ↔ m.operands.Has o ∨ o ∈ os
  user : ∀ o, (m'.operands.get o).user = if o ∈ os then source else (m.operands.get o).user
  value : ∀ o, o ∉ os → m'.operandValue o = m.operandValue o
  freshEdge : ¬ m.edges.Has e
  edge : ∀ e', m'.edges.get e' =
    if e' = e then { target := some t, pred, source, args := os } else m.edges.get e'
  edges : ∀ b, (m'.blocks.get b).edges =
    if b = t then (m.blocks.get b).edges ++ [e] else (m.blocks.get b).edges
  operands : ∀ i, (m'.insts.get i).operands = (m.insts.get i).operands
  targets : ∀ i, (m'.insts.get i).targets =
    if source = some i then (m.insts.get i).targets ++ [e] else (m.insts.get i).targets
  block : ∀ i, (m'.insts.get i).block = (m.insts.get i).block

section EdgeAdded

variable {e : EdgeId} {pred : Option BlockId} {source : Option InstId}
 (ha : m.EdgeAdded m' e t pred source os)
variable {e' : EdgeId}

include ha

namespace EdgeAdded

theorem mem_targets : e' ∈ (m'.insts.get i).targets ↔ e' ∈ (m.insts.get i).targets ∨ e' = e ∧
    source = some i := by
  rw [ha.targets]
  split
  · next h => simp [h]
  · next h => simp [h]

theorem mem_edges : e' ∈ (m'.blocks.get b).edges ↔ e' ∈ (m.blocks.get b).edges ∨
    e' = e ∧ b = t := by
  rw [ha.edges]
  split
  · next h => simp [h]
  · next h => simp [h]

theorem edge_of_ne (h : e' ≠ e) : m'.edges.get e' = m.edges.get e' := (ha.edge e').trans (if_neg h)

theorem edge_self : m'.edges.get e = { target := some t, pred, source, args := os } :=
  (ha.edge e).trans (if_pos rfl)

theorem ne_of_target (h : (m.edges.get e').target = some b) :
    e' ≠ e := fun hc => ha.freshEdge (hc ▸ hasEdge_of_target h)

theorem ne_of_arg (h : o ∈ (m.edges.get e').args) : e' ≠ e := by
  rintro rfl
  rw [get_of_not_has ha.freshEdge] at h
  cases h

theorem user_old (h : m.operands.Has o) : (m'.operands.get o).user = (m.operands.get o).user := by
  rw [ha.user, if_neg fun hc => ha.freshOperand o hc h]

theorem linked (h : m.Linked)
    (hsome : ∀ i, source = some i → pred.isSome ∧ ∀ b, (m.insts.get i).block = some b →
      pred = some b)
    (hnone : source = none → pred = none) : m'.Linked := by
  have hold : ∀ i, ∀ e' ∈ (m.insts.get i).targets, e' ≠ e := fun i e' he' =>
    (h.target i e' he').2.elim fun b hb => ha.ne_of_target hb
  refine ⟨ha.wired, ?_, ?_, ?_, ?_, ?_, ?_, ?_, ?_, ?_, ?_, fun i => ?_, fun b => ?_⟩
  · intro i o ho
    rw [ha.operands] at ho
    have := h.operand i o ho
    exact ⟨(ha.hasOperand o).mpr (.inl this.1), (ha.user_old this.1).trans this.2⟩
  · intro e' o ho
    by_cases he : e' = e
    · subst he
      rw [ha.edge_self] at ho ⊢
      exact ⟨(ha.hasOperand o).mpr (.inr ho), (ha.user o).trans (if_pos ho)⟩
    · rw [ha.edge_of_ne he] at ho ⊢
      have := h.arg e' o ho
      exact ⟨(ha.hasOperand o).mpr (.inl this.1), (ha.user_old this.1).trans this.2⟩
  · intro e₁ e₂ o hs h₁ h₂
    by_cases he₁ : e₁ = e
    · by_cases he₂ : e₂ = e
      · exact he₁.trans he₂.symm
      · rw [he₁, ha.edge_self] at h₁
        rw [ha.edge_of_ne he₂] at h₂
        exact absurd (h.arg e₂ o h₂).1 (ha.freshOperand o h₁)
    · rw [ha.edge_of_ne he₁] at hs h₁
      by_cases he₂ : e₂ = e
      · rw [he₂, ha.edge_self] at h₂
        exact absurd (h.arg e₁ o h₁).1 (ha.freshOperand o h₂)
      · rw [ha.edge_of_ne he₂] at h₂
        exact h.openArg e₁ e₂ o hs h₁ h₂
  · intro o v hv
    by_cases ho : o ∈ os
    · rw [ha.user, if_pos ho]
      refine ⟨fun i hi => ?_, fun hn => ⟨e, ?_⟩⟩
      · refine mem_allOperands.mpr (.inr ⟨e, ha.mem_targets.mpr (.inr ⟨rfl, hi⟩), ?_⟩)
        rw [ha.edge_self]
        exact ho
      · rw [ha.edge_self]
        exact ⟨hn, ho⟩
    · rw [ha.value o ho] at hv
      rw [ha.user_old (hasOperand_of_value hv)]
      refine ⟨fun i hi => ?_, fun hn => ?_⟩
      · rcases mem_allOperands.mp ((h.owned o v hv).1 i hi) with hmem | ⟨e', he', hmem⟩
        · exact mem_allOperands.mpr (.inl (ha.operands i ▸ hmem))
        · refine mem_allOperands.mpr (.inr ⟨e', ha.mem_targets.mpr (.inl he'), ?_⟩)
          rwa [ha.edge_of_ne (hold i e' he')]
      · obtain ⟨e', hs, hmem⟩ := (h.owned o v hv).2 hn
        refine ⟨e', ?_⟩
        rw [ha.edge_of_ne (ha.ne_of_arg hmem)]
        exact ⟨hs, hmem⟩
  · intro i e' he'
    rcases ha.mem_targets.mp he' with he' | ⟨rfl, hi⟩
    · rw [ha.edge_of_ne (hold i e' he')]
      exact h.target i e' he'
    · rw [ha.edge_self]
      exact ⟨hi, t, rfl⟩
  · intro b e' he'
    rcases ha.mem_edges.mp he' with he' | ⟨rfl, rfl⟩
    · have hin := h.incoming b e' he'
      rw [ha.edge_of_ne (ha.ne_of_target hin.1)]
      exact ⟨hin.1, fun i hi => ha.mem_targets.mpr (.inl (hin.2 i hi))⟩
    · rw [ha.edge_self]
      exact ⟨rfl, fun i hi => ha.mem_targets.mpr (.inr ⟨rfl, hi⟩)⟩
  · intro e' he'
    by_cases he : e' = e
    · exact ⟨t, ha.mem_edges.mpr (.inr ⟨he, rfl⟩)⟩
    · rw [ha.edge_of_ne he] at he'
      obtain ⟨b, hb⟩ := h.enters e' he'
      exact ⟨b, ha.mem_edges.mpr (.inl hb)⟩
  · intro i e' he' b hb
    rw [ha.block] at hb
    rcases ha.mem_targets.mp he' with he' | ⟨rfl, hi⟩
    · rw [ha.edge_of_ne (hold i e' he')]
      exact h.pred i e' he' b hb
    · rw [ha.edge_self]
      exact (hsome i hi).2 b hb
  · intro i e' he'
    rcases ha.mem_targets.mp he' with he' | ⟨rfl, hi⟩
    · rw [ha.edge_of_ne (hold i e' he')]
      exact h.predIsSome i e' he'
    · rw [ha.edge_self]
      exact (hsome i hi).1
  · intro e' he'
    by_cases he : e' = e
    · rw [he, ha.edge_self] at he' ⊢
      exact hnone he'
    · rw [ha.edge_of_ne he] at he' ⊢
      exact h.predIsNone e' he'
  · rw [ha.targets]
    split
    · rw [← concat_eq_append]
      exact (h.targetsNodup i).concat fun he => hold i e he rfl
    · exact h.targetsNodup i
  · rw [ha.edges]
    split
    · rw [← concat_eq_append]
      exact (h.edgesNodup b).concat fun he => ha.ne_of_target (h.incoming b e he).1 rfl
    · exact h.edgesNodup b

theorem operandValues_old (hps : ∀ o ∈ ps, m.operands.Has o) :
    ps.map m'.operandValue = ps.map m.operandValue :=
  map_congr_left fun o ho => ha.value o fun hc => ha.freshOperand o hc (hps o ho)

end EdgeAdded

namespace EdgeAdded

variable (h : m.Linked)
include h

theorem reads : m'.view.reads = m.view.reads := by
  funext i
  show (m'.insts.get i).operands.map _ = (m.insts.get i).operands.map _
  rw [ha.operands]
  exact ha.operandValues_old fun o ho => (h.operand i o ho).1

theorem exits_old (i : InstId) :
    ((m.insts.get i).targets.map fun e' =>
      Exit.mk (m'.edges.get e').target ((m'.edges.get e').args.map m'.operandValue)) =
      m.view.exits i := by
  refine map_congr_left fun e' he' => ?_
  obtain ⟨-, b, hb⟩ := h.target i e' he'
  rw [ha.edge_of_ne (ha.ne_of_target hb)]
  congr 1
  exact ha.operandValues_old fun o ho => (h.arg e' o ho).1

theorem entered : m'.view.entered = m.view.entered := by
  funext i
  refine propext ⟨fun hall e' he' => ?_, fun hall e' he' => ?_⟩
  · obtain ⟨b, hb⟩ := hall e' (ha.mem_targets.mpr (.inl he'))
    rcases ha.mem_edges.mp hb with hb | ⟨rfl, -⟩
    · exact ⟨b, hb⟩
    · obtain ⟨-, c, hc⟩ := h.target i e' he'
      exact absurd rfl (ha.ne_of_target hc)
  · rcases ha.mem_targets.mp he' with he' | ⟨rfl, -⟩
    · obtain ⟨b, hb⟩ := hall e' he'
      exact ⟨b, ha.mem_edges.mpr (.inl hb)⟩
    · exact ⟨t, ha.mem_edges.mpr (.inr ⟨rfl, rfl⟩)⟩

theorem opens_old (b : BlockId) :
    (((m.blocks.get b).edges.filter fun e' => (m'.edges.get e').source.isNone).map fun e' =>
      (m'.edges.get e').args.map m'.operandValue) = m.view.opens b := by
  have hne : ∀ e' ∈ (m.blocks.get b).edges, e' ≠ e := fun e' he' =>
    ha.ne_of_target (h.incoming b e' he').1
  have hfilter : ((m.blocks.get b).edges.filter fun e' => (m'.edges.get e').source.isNone) =
      m.openEdges b :=
    filter_congr fun e' he' => by rw [ha.edge_of_ne (hne e' he')]
  rw [hfilter]
  refine map_congr_left fun e' he' => ?_
  rw [ha.edge_of_ne (hne e' (mem_filter.mp he').1)]
  exact ha.operandValues_old fun o ho => (h.arg e' o ho).1

theorem view_some (hs : source = some i) (hrest : m'.view.unlinked = m.view.unlinked) :
    m'.view = m.view.addExit i { target := some t, args := m'.operandValues os } := by
  have hexits : m'.view.exits = (m.view.addExit i ⟨some t, m'.operandValues os⟩).exits := by
    funext j
    show (m'.insts.get j).targets.map _ = update m.view.exits i _ j
    rw [ha.targets, update_apply]
    by_cases hj : j = i
    · subst hj
      rw [if_pos hs, if_pos rfl, map_append]
      refine congrArg₂ _ (ha.exits_old h j) ?_
      simp only [map_cons, ha.edge_self]
      rfl
    · rw [if_neg fun hc => hj (some.inj (hc.symm.trans hs)), if_neg hj]
      exact ha.exits_old h j
  have hopens : m'.view.opens = m.view.opens := by
    funext b
    show ((m'.blocks.get b).edges.filter _).map _ = _
    rw [ha.edges]
    split
    · rw [filter_append]
      have : [e].filter (fun e' => (m'.edges.get e').source.isNone) = [] := by
        simp [ha.edge_self, hs]
      rw [this, append_nil]
      exact ha.opens_old h b
    · exact ha.opens_old h b
  exact View.eq_of_unlinked hrest (ha.reads h) hexits (ha.entered h) hopens

theorem view_none (hs : source = none) (hrest : m'.view.unlinked = m.view.unlinked) :
    m'.view = m.view.addOpen t (m'.operandValues os) := by
  have hexits : m'.view.exits = m.view.exits := by
    funext j
    show (m'.insts.get j).targets.map _ = _
    rw [ha.targets, if_neg (by rw [hs]; simp)]
    exact ha.exits_old h j
  have hopens : m'.view.opens = (m.view.addOpen t (m'.operandValues os)).opens := by
    funext b
    show ((m'.blocks.get b).edges.filter _).map _ = update m.view.opens t _ b
    rw [ha.edges, update_apply]
    split
    · next hb =>
      have : [e].filter (fun e' => (m'.edges.get e').source.isNone) = [e] := by
        simp [ha.edge_self, hs]
      rw [filter_append, this, map_append, hb]
      refine congrArg₂ _ (ha.opens_old h t) ?_
      simp only [map_cons, ha.edge_self]
      rfl
    · exact ha.opens_old h b
  exact View.eq_of_unlinked hrest (ha.reads h) hexits (ha.entered h) hopens

end EdgeAdded

end EdgeAdded

def withTargets (m : Module) (i : InstId) (es : List EdgeId) : Module :=
  (m.updateInst i ({ · with targets := es }))

def pushEdge (m : Module) (e : EdgeId) (t : BlockId) (edge : Edge) : Module :=
  { m with
    edges := m.edges.push edge
    blocks := m.blocks.update t fun b => { b with edges := b.edges ++ [e] } }

theorem get_withTargets (hi : m.insts.Has i) (es : List EdgeId) (j : InstId) :
    (m.withTargets i es).insts.get j = if j = i then { m.insts.get j with targets := es }
      else m.insts.get j :=
  get_update _ hi _ _

theorem wired_pushEdge (h : m.Wired) (e : EdgeId) (t : BlockId) (edge : Edge) :
    (m.pushEdge e t edge).Wired :=
  h.congr (fun _ => rfl) fun _ hv => hv

theorem wired_withTargets (i : InstId) (es : List EdgeId) :
    (m.withTargets i es).Wired ↔ m.Wired := by
  have huses : ∀ v, (m.withTargets i es).uses v = m.uses v := uses_updateInst i fun _ => rfl
  have hmade : ∀ v, (m.withTargets i es).HasValue v ↔ m.HasValue v := hasValue_updateInst i _
  exact ⟨fun h => h.congr (fun v => (huses v).symm) fun v => (hmade v).mp,
    fun h => h.congr huses fun v => (hmade v).mpr⟩

theorem Adds.edgeAdded_some (ha : m.Adds m' os vs (some i)) (es : List EdgeId) (b : BlockId)
    (hi : m.insts.Has i) (ht : m.blocks.Has t) : (m.withTargets i es).EdgeAdded
      ((m'.pushEdge m.edges.next t ⟨some t, some b, some i, os⟩).withTargets i
      (es ++ [m.edges.next]))
      m.edges.next t (some b) (some i) os := by
  have hedges : m'.edges = m.edges := skeleton_edges ha.skeleton
  have hblocks : m'.blocks = m.blocks := skeleton_blocks ha.skeleton
  have hi' : m'.insts.Has i := (skeleton_hasInst ha.skeleton i).mpr hi
  refine ⟨(wired_pushEdge ha.wired _ _ _).updateInst i fun _ => rfl, ha.fresh, ha.has, ha.user,
    ha.value_of_not_mem, not_has_next _, ?_, ?_, ?_, ?_, ?_⟩
  · intro e'
    show (m'.edges.push _).get e' = if e' = m.edges.next then _ else m.edges.get e'
    rw [hedges, get_push]
  · intro c
    show ((m'.blocks.update t _).get c).edges = _
    rw [hblocks, get_update _ ht]
    split <;> rfl
  · intro j
    rw [get_withTargets hi]
    refine (congrArg Inst.operands (get_withTargets hi' _ j)).trans ?_
    split
    · exact skeleton_operands ha.skeleton j
    · exact skeleton_operands ha.skeleton j
  · intro j
    rw [get_withTargets hi]
    refine (congrArg Inst.targets (get_withTargets hi' _ j)).trans ?_
    by_cases hj : j = i
    · subst hj
      simp
    · have : ¬ some i = some j := fun hc => hj (some.inj hc).symm
      rw [if_neg hj, if_neg hj, if_neg this]
      exact skeleton_targets ha.skeleton j
  · intro j
    rw [get_withTargets hi]
    refine (congrArg Inst.block (get_withTargets hi' _ j)).trans ?_
    split
    · exact skeleton_instBlock ha.skeleton j
    · exact skeleton_instBlock ha.skeleton j

theorem unlinked_pushEdge {user : Option InstId} (ha : m.Adds m' os vs user) (e : EdgeId)
    (t : BlockId) (edge : Edge) :
    (m'.pushEdge e t edge).view.unlinked = m.view.unlinked := by
  have hskel : m'.viewWith m.operandValue = m.viewWith m.operandValue := by
    rw [← m'.viewWith_skeleton, ha.skeleton, m.viewWith_skeleton]
  rw [view, view, ← hskel]
  ext1 <;> try rfl
  · exact funext fun b => m'.blocks.get_update_part Block.view t b fun _ => rfl
  · exact size_update _ _ _

theorem unlinked_withTargets (i : InstId) (es : List EdgeId) :
    (m.withTargets i es).view.unlinked = m.view.unlinked := by
  ext1 <;> try rfl
  · exact funext fun j => m.insts.get_update_part Inst.view i j fun _ => rfl
  · exact size_update _ _ _

end Module

namespace Build

variable {s : Builder} {E : Post Fault} {Q : Post EdgeId}

/-- A branch that is being built gains an edge. Its edges are entered in the instruction at the end
only, so the module is described as if they were there already. -/
theorem wp_newEdge {es : List EdgeId} (h : (s.module.withTargets i es).Linked)
    (hi : s.module.insts.Has i)
    (ht : s.module.blocks.Has t) (hblock : (s.module.insts.get i).block = none)
    (hvs : ∀ w, some w ∈ vs → s.HasValue w) (hes : ∀ e ∈ es, (s.module.edges.get e).pred = some b)
    (k : ∀ e m', (m'.withTargets i (es ++ [e])).Linked → (m'.withTargets i (es ++ [e])).view =
        (s.module.withTargets i es).view.addExit i { target := some t, args := vs } →
      m'.insts.Has i → (∀ c, m'.blocks.Has c ↔ s.module.blocks.Has c) →
      (∀ w, m'.HasValue w ↔ s.HasValue w) → (m'.insts.get i).block = none →
      (∀ e' ∈ es ++ [e], (m'.edges.get e').pred = some b) → Q e { s with module := m' }) :
    wp (newEdge t (some b) (some i) vs) Q E s := by
  unfold newEdge
  simp only [wp_bind, wp_module, wp_modifyModule]
  have ha := adds_newOperands ((wired_withTargets i es).mp h.wired) vs (some i) hvs
  generalize s.module.newOperands vs (some i) = r at ha ⊢
  obtain ⟨os, m₁⟩ := r
  show Q s.module.edges.next
    { s with module := m₁.pushEdge s.module.edges.next t ⟨some t, some b, some i, os⟩ }
  have hadded := ha.edgeAdded_some es b hi ht
  have hpred : ∀ j, some i = some j → (some b).isSome ∧
      ∀ c, ((s.module.withTargets i es).insts.get j).block = some c → some b = some c := by
    rintro j hj
    refine ⟨rfl, fun c hc => ?_⟩
    rw [get_withTargets hi, if_pos (some.inj hj).symm, ← some.inj hj] at hc
    cases hblock.symm.trans hc
  refine k _ _ (hadded.linked h hpred fun hc => absurd hc (by simp)) ?_ ?_ ?_ ?_ ?_ ?_
  · rw [hadded.view_some h rfl]
    · congr 1
      exact congrArg (Exit.mk (some t)) ha.values
    · rw [unlinked_withTargets, unlinked_pushEdge ha, unlinked_withTargets]
  · exact (skeleton_hasInst ha.skeleton i).mpr hi
  · intro c
    show (m₁.blocks.update _ _).Has c ↔ _
    rw [has_update, skeleton_blocks ha.skeleton]
  · exact fun w => skeleton_hasValue ha.skeleton w
  · exact (skeleton_instBlock ha.skeleton i).trans hblock
  · intro e' he'
    show ((m₁.edges.push _).get e').pred = some b
    rw [skeleton_edges ha.skeleton, get_push]
    split
    · rfl
    · next hne => exact hes e' (by simpa [hne] using he')

end Build

/-! ### Emitting at the cursor -/

/-- An instruction with opcode `op` may go where the cursor is, which is in block `b`. -/
structure CanAttach (m : Module) (c : Cursor) (op : Opcode) (b : BlockId) : Prop where
  block : c.block = some b
  func : (m.blocks.get b).func.isSome
  before : ∀ i, c.before = some i → (m.insts.get i).block = some b ∧ op.isTerminator = false
  atEnd : c.before = none → m.terminator b = none

theorem CanAttach.has {m : Module} {c : Cursor} {op : Opcode} (h : CanAttach m c op b) :
    m.blocks.Has b := by
  by_contra hn
  have := h.func
  rw [get_of_not_has hn] at this
  exact absurd this Bool.false_ne_true

namespace Module

theorem exits_next (m : Module) : m.view.exits m.view.nextInst = [] := by
  show (m.insts.get m.insts.next).targets.map _ = []
  rw [get_next]
  rfl

end Module

/-- The module has become `m`, and the journal says that `i` was placed. -/
abbrev Builder.log (s : Builder) (m : Module) (i : InstId) : Builder :=
  { s with module := m, journal := s.journal.map (· ++ [i]) }

namespace Build

variable {s : Builder} {E : Post Fault}

theorem wp_checkAttach {Q : Post BlockId} {op : Opcode}
    (hE : ∀ e, (∀ b, ¬ CanAttach s.module s.cursor op b) → E (.error e) s)
    (k : ∀ b, CanAttach s.module s.cursor op b → Q b s) : wp (checkAttach op) Q E s := by
  unfold checkAttach
  simp only [wp_bind, wp_module, wp_cursor]
  cases hblock : s.cursor.block with
  | none => exact hE _ fun b hb => absurd (hblock.symm.trans hb.block) (by simp)
  | some b =>
    have hsame : ∀ c, CanAttach s.module s.cursor op c → c = b := fun c hc =>
      mem_unique hc.block hblock
    simp only [wp_ite]
    refine ⟨fun hfunc => hE _ fun c hc => ?_, fun hfunc => ?_⟩
    · have := hsame c hc ▸ hc.func
      rw [isNone_iff_eq_none.mp hfunc] at this
      cases this
    have hsome : (s.module.blocks.get b).func.isSome := by
      rw [isSome_iff_ne_none]
      exact fun hc => hfunc (isNone_iff_eq_none.mpr hc)
    cases hbefore : s.cursor.before with
    | none =>
      simp only [wp_ite]
      refine ⟨fun hterm => hE _ fun c hc => ?_, fun hterm => ?_⟩
      · rw [← hsame c hc, hc.atEnd hbefore] at hterm
        cases hterm
      · refine k b ⟨hblock, hsome, fun i hi => ?_, fun _ => ?_⟩
        · cases hbefore.symm.trans hi
        · simpa using hterm
    | some i =>
      simp only [wp_ite]
      refine ⟨fun hin => hE _ fun c hc => ?_,
        fun hin => ⟨fun hop => hE _ fun c hc => ?_, fun hop => ?_⟩⟩
      · exact hin (hsame c hc ▸ (hc.before i hbefore).1)
      · rw [(hc.before i hbefore).2] at hop
        cases hop
      · refine k b ⟨hblock, hsome, fun j hj => ?_, fun hn => ?_⟩
        · obtain rfl : i = j := mem_unique hbefore hj
          exact ⟨not_not.mp hin, by simpa using hop⟩
        · cases hbefore.symm.trans hn

theorem wp_attach {Q : Post Unit} (h : s.Linked) (hi : s.module.insts.Has i)
    (hb : s.module.blocks.Has b)
    (hpred : ∀ e ∈ (s.module.insts.get i).targets, (s.module.edges.get e).pred = some b)
    (k : ∀ m', m'.Linked → m'.view = s.module.view.place i b s.cursor.before → Q () (s.log m' i)) :
    wp (attach i b) Q E s := by
  unfold attach
  simp only [wp_bind, wp_cursor, wp_modifyBlock]
  have hlinked := h.updateBlock b
    (f := fun x => { x with insts := insertBefore i s.cursor.before x.insts })
    fun _ => rfl
  refine wp_setInst hlinked (fun _ => by constructor <;> rfl) hi ?_ fun m' hm' hview => k m' hm' ?_
  · intro e he c hc
    rw [← some.inj hc]
    exact hpred e he
  · rw [hview]
    exact congrArg (View.setInst · i _) (view_updateBlock (fun _ => rfl) (fun _ => rfl) (.inl hb))

structure Fresh (x : Inst) : Prop where
  uses : x.uses = []
  operands : x.operands = []
  targets : x.targets = []

theorem Fresh.view (h : Fresh x) : x.view = x := by
  obtain ⟨op, type, name, payload, uses, operands, targets, block, erased⟩ := x
  obtain ⟨rfl, rfl, rfl⟩ := h
  rfl

theorem wp_emit (h : s.Linked) (hx : Fresh x) (hvs : ∀ w, some w ∈ vs → s.HasValue w)
    (hE : ∀ e, (∀ b, ¬ CanAttach s.module s.cursor x.op b) → E (.error e) s)
    (k : ∀ b m', CanAttach s.module s.cursor x.op b → m'.Linked →
      m'.view = s.view.emit x vs [] b s.cursor.before →
      Q s.view.nextInst (s.log m' s.view.nextInst)) : wp (emit x vs) Q E s := by
  unfold emit
  rw [wp_bind]
  refine wp_checkAttach hE fun b hcan => ?_
  rw [wp_bind]
  refine wp_newInst h hx.uses hx.operands hx.targets hvs fun m₁ h₁ hview₁ => ?_
  rw [wp_bind]
  have hi : m₁.insts.Has s.view.nextInst := hasInst_of_view hview₁ (Nat.lt_succ_self _)
  have hb : m₁.blocks.Has b := hasBlock_of_view hview₁ hcan.has
  have hexits : m₁.view.exits s.view.nextInst = [] := by
    rw [hview₁]
    exact s.module.exits_next
  refine wp_attach h₁ hi hb ?_ fun m₂ h₂ hview₂ => k b m₂ hcan h₂ ?_
  · intro e he
    rw [map_eq_nil_iff.mp hexits] at he
    cases he
  · rw [hview₂, hview₁, hx.view, ← View.addBranch_nil s.module.exits_next]
    rfl

end Build

end Midlevel.Ir
