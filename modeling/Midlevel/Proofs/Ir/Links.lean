import Midlevel.Proofs.Hoare
import Midlevel.Proofs.Ir.View

/-!
Operations on operands and edges, by what they do to the view of a module. Rewiring operands keeps
a module linked as long as only operands that belong to something start to read; an instruction that
drops everything it has falls silent, and nothing else changes.
-/

namespace Midlevel.Ir

open View Midlevel.Ir.Module List
open Function (update update_of_ne)

open Pass (Exit exitsOf)

variable {i : InstId} {os : List OperandId} {v : Option Value} {o : OperandId} {b : BlockId}

namespace View

/-- The value is read by an instruction, passed by a branch, or passed by an edge without a
source. -/
def Reads (w : View) (v : Value) : Prop :=
  (∃ i, some v ∈ w.reads i) ∨ (∃ i, ∃ x ∈ w.exits i, some v ∈ x.args) ∨
    ∃ b, ∃ args ∈ w.opens b, some v ∈ args

def silence (w : View) (i : InstId) : View :=
  { w with
    reads := update w.reads i []
    exits := update w.exits i []
    entered := update w.entered i True }

theorem update_congr {β : Type} {f g : InstId → β} {a : β} (h : ∀ j, j ≠ i → f j = g j) :
    update f i a = update g i a := by
  funext j
  by_cases hj : j = i
  · simp [hj]
  · rw [update_of_ne hj, update_of_ne hj, h j hj]

def mapValues (w : View) (f : Option Value → Option Value) : View :=
  { w with
    reads := fun i => (w.reads i).map f
    exits := fun i => (w.exits i).map fun x => { x with args := x.args.map f }
    opens := fun b => (w.opens b).map (·.map f) }

end View

namespace Module

variable {m m' : Module}

theorem mem_allOperands :
    o ∈ m.allOperands i ↔ o ∈ (m.insts.get i).operands ∨ ∃ e ∈ (m.insts.get i).targets, o ∈
    (m.edges.get e).args := by
  rw [allOperands, mem_append, mem_flatMap]

theorem mem_operandValues : v ∈ m.operandValues os ↔ ∃ o ∈ os, m.operandValue o = v := by
  rw [operandValues, mem_map]

theorem Linked.user (h : m.Linked) (ho : o ∈ m.allOperands i) :
    m.operands.Has o ∧ (m.operands.get o).user = some i := by
  rcases mem_allOperands.mp ho with ho | ⟨e, he, ho⟩
  · exact h.operand i o ho
  · obtain ⟨hhas, huser⟩ := h.arg e o ho
    exact ⟨hhas, huser.trans (h.target i e he).1⟩

/-- An operand that reads something, or that an instruction has. -/
def InUse (m : Module) (o : OperandId) : Prop :=
  (∃ v, m.operandValue o = some v) ∨ ∃ i, o ∈ m.allOperands i

theorem Linked.owned_of_inUse (h : m.Linked) (ho : m.InUse o) :
    (∀ i, (m.operands.get o).user = some i → o ∈ m.allOperands i) ∧
    ((m.operands.get o).user = none → ∃ e, (m.edges.get e).source = none ∧
      o ∈ (m.edges.get e).args) := by
  rcases ho with ⟨v, hv⟩ | ⟨i, hi⟩
  · exact h.owned o v hv
  · have huser := (h.user hi).2
    exact ⟨fun j hj => Option.mem_unique huser hj ▸ hi,
      fun hn => absurd (huser.symm.trans hn) (Option.some_ne_none i)⟩

theorem Linked.uses_eq_nil (h : m.Linked) {v : Value} : m.uses v = [] ↔ ¬ m.view.Reads v := by
  rw [h.wired.uses_eq_nil]
  constructor
  · rintro hnone (⟨i, hi⟩ | ⟨i, x, hx, hv⟩ | ⟨b, args, hargs, hv⟩)
    · obtain ⟨o, -, ho⟩ := mem_operandValues.mp hi
      exact hnone o ho
    · obtain ⟨e, -, rfl⟩ := mem_map.mp hx
      obtain ⟨o, -, ho⟩ := mem_operandValues.mp hv
      exact hnone o ho
    · obtain ⟨e, -, rfl⟩ := mem_map.mp hargs
      obtain ⟨o, -, ho⟩ := mem_operandValues.mp hv
      exact hnone o ho
  · intro hnone o ho
    apply hnone
    obtain ⟨howned, hopen⟩ := h.owned o v ho
    cases huser : (m.operands.get o).user with
    | some i =>
      rcases mem_allOperands.mp (howned i huser) with hmem | ⟨e, he, hmem⟩
      · exact .inl ⟨i, mem_operandValues.mpr ⟨o, hmem, ho⟩⟩
      · exact .inr (.inl ⟨i, _, mem_map.mpr ⟨e, he, rfl⟩, mem_operandValues.mpr ⟨o, hmem, ho⟩⟩)
    | none =>
      obtain ⟨e, hsource, hmem⟩ := hopen huser
      obtain ⟨b, hb⟩ := h.enters e (ne_nil_of_mem hmem)
      refine .inr (.inr ⟨b, _, mem_map.mpr ⟨e, ?_, rfl⟩, ?_⟩)
      · exact mem_filter.mpr ⟨hb, by rw [hsource]; rfl⟩
      · exact mem_operandValues.mpr ⟨o, hmem, ho⟩

theorem Linked.congr (h : m.Linked) (hwired : m'.Wired)
    (hpred : ∀ i, ∀ e ∈ (m.insts.get i).targets, ∀ b, (m'.insts.get i).block = some b →
      (m'.edges.get e).pred = some b)
    (hsome : ∀ i, ∀ e ∈ (m.insts.get i).targets, (m'.edges.get e).pred.isSome)
    (hnone : ∀ e, (m.edges.get e).source = none → (m'.edges.get e).pred = none)
    (hblocks : ∀ b, (m'.blocks.get b).edges = (m.blocks.get b).edges := by intro; rfl)
    (hoperands : ∀ i, (m'.insts.get i).operands = (m.insts.get i).operands := by intro; rfl)
    (htargets : ∀ i, (m'.insts.get i).targets = (m.insts.get i).targets := by intro; rfl)
    (hedges : ∀ e, (m'.edges.get e).target = (m.edges.get e).target ∧
      (m'.edges.get e).source = (m.edges.get e).source ∧
      (m'.edges.get e).args = (m.edges.get e).args := by exact fun _ => ⟨rfl, rfl, rfl⟩)
    (hreaders : m'.readers = m.readers := by rfl)
    (hvalue : ∀ o v, m'.operandValue o = some v →
      m.InUse o := by exact fun _ v hv => .inl ⟨v, hv⟩) : m'.Linked where
  wired := hwired
  operand i o ho := by
    rw [hoperands] at ho
    rw [hasOperand_of_readers hreaders, user_eq_of_readers hreaders]
    exact h.operand i o ho
  arg e o ho := by
    rw [(hedges e).2.2] at ho
    rw [hasOperand_of_readers hreaders, user_eq_of_readers hreaders, (hedges e).2.1]
    exact h.arg e o ho
  openArg e e' o := by
    rw [(hedges e).2.1, (hedges e).2.2, (hedges e').2.2]
    exact h.openArg e e' o
  owned o v hv := by
    have howned := h.owned_of_inUse (hvalue o v hv)
    rw [user_eq_of_readers hreaders]
    refine ⟨fun i hi => ?_, fun hn => ?_⟩
    · have := howned.1 i hi
      rw [mem_allOperands] at this ⊢
      rw [hoperands, htargets]
      simpa only [fun e => (hedges e).2.2] using this
    · obtain ⟨e, hs, hmem⟩ := howned.2 hn
      exact ⟨e, (hedges e).2.1.trans hs, (hedges e).2.2 ▸ hmem⟩
  target i e he := by
    rw [htargets] at he
    rw [(hedges e).1, (hedges e).2.1]
    exact h.target i e he
  incoming b e he := by
    rw [hblocks] at he
    rw [(hedges e).1, (hedges e).2.1]
    refine ⟨(h.incoming b e he).1, fun i hi => ?_⟩
    rw [htargets]
    exact (h.incoming b e he).2 i hi
  enters e he := by
    rw [(hedges e).2.2] at he
    obtain ⟨b, hb⟩ := h.enters e he
    exact ⟨b, (hblocks b) ▸ hb⟩
  pred i e he := by
    rw [htargets] at he
    exact hpred i e he
  predIsSome i e he := by
    rw [htargets] at he
    exact hsome i e he
  predIsNone e he := by
    rw [(hedges e).2.1] at he
    exact hnone e he
  targetsNodup i := htargets i ▸ h.targetsNodup i
  edgesNodup b := hblocks b ▸ h.edgesNodup b

/-! ### Rewiring -/

section Rewires

variable {value : OperandId → Option Value} (hr : m.Rewires m' value)

include hr

theorem Rewires.edges : m'.edges = m.edges := skeleton_edges hr.skeleton

theorem Rewires.blocks : m'.blocks = m.blocks := skeleton_blocks hr.skeleton

theorem Rewires.linked (h : m.Linked) (hvalue : ∀ o v, value o = some v → m.InUse o) :
    m'.Linked := by
  have hskel := hr.skeleton
  refine h.congr hr.wired ?_ ?_ ?_ (fun b => by rw [hr.blocks]) (skeleton_operands hskel)
    (skeleton_targets hskel)
    (fun e => by rw [hr.edges]; exact ⟨rfl, rfl, rfl⟩) hr.readers fun o v hv =>
      hvalue o v (hr.value ▸ hv)
  · intro i e he b hb
    rw [skeleton_instBlock hskel] at hb
    exact hr.edges ▸ h.pred i e he b hb
  · exact fun i e he => hr.edges ▸ h.predIsSome i e he
  · exact fun e he => hr.edges ▸ h.predIsNone e he

theorem Rewires.view : m'.view = m.viewWith value := by
  rw [Module.view, hr.value, ← m'.viewWith_skeleton, hr.skeleton, m.viewWith_skeleton]

end Rewires

end Module

/-! ### Pointing operands elsewhere -/

namespace Build

variable {s : Builder} {Q : Post Unit} {E : Post Fault}

theorem wp_setOperand (h : s.module.Wired) (ho : s.module.operands.Has o)
    (hv : ∀ w, v = some w → s.HasValue w)
    (k : ∀ m', s.module.Rewires m' (update s.module.operandValue o v) →
      Q () { s with module := m' }) : wp (setOperand o v) Q E s := by
  obtain ⟨m', heq, hm'⟩ := setOperand?_eq h ho v hv
  unfold setOperand applyUses
  simp only [wp_bind, wp_module, heq]
  exact k m' hm'

theorem wp_setOperands (h : s.module.Wired) (hos : ∀ o ∈ os, s.module.operands.Has o)
    (hv : ∀ w, v = some w → s.HasValue w)
    (k : ∀ m', s.module.Rewires m' (fun o => if o ∈ os then v else s.module.operandValue o) →
      Q () { s with module := m' }) : wp (forM os fun o => setOperand o v) Q E s := by
  refine wp_forM_module (fun done m' => s.module.Rewires m' fun o => if o ∈ done then v
    else s.module.operandValue o)
    (by simpa using Module.Rewires.refl h) ?_ k
  intro done o rest hsplit m' hm'
  have ho : m'.operands.Has o := by
    rw [hasOperand_of_readers hm'.readers]
    exact hos o (by rw [hsplit]; simp)
  refine wp_setOperand hm'.wired ho (fun w hw => (skeleton_hasValue hm'.skeleton w).mpr (hv w hw))
    fun m'' hm'' => ?_
  refine ⟨m'', rfl, hm''.wired, hm''.skeleton.trans hm'.skeleton,
    hm''.readers.trans hm'.readers, ?_⟩
  rw [hm''.value]
  funext p
  rw [hm'.value]
  by_cases hp : p = o <;> simp [hp]

theorem wp_dropOperands (h : s.Linked) (hos : ∀ o ∈ os, s.module.operands.Has o)
    (k : ∀ m', m'.Linked →
      s.module.Rewires m' (fun o => if o ∈ os then none else s.module.operandValue o) →
      Q () { s with module := m' }) : wp (dropOperands os) Q E s := by
  refine wp_setOperands h.wired hos (by simp) fun m' hm' => k m' (hm'.linked h fun o v hv => ?_) hm'
  split at hv
  · cases hv
  · exact .inl ⟨v, hv⟩

/-- The loop goes over a copy of the use list, while each step takes an operand out of the list
itself, wherever it has got to by then. -/
theorem wp_redirect (h : s.module.Wired) {v w : Value} (hvw : v ≠ w) (hw : s.HasValue w)
    (k : ∀ m', s.module.Redirects m' v w (s.module.uses v) → Q () { s with module := m' }) :
    wp (replaceAllUses (some v) (some w)) Q E s := by
  simp only [replaceAllUses, ne_eq, hvw, not_false_eq_true, if_true, wp_bind, wp_module]
  refine wp_forM_module (fun done m' => s.module.Redirects m' v w done)
    ⟨by simpa using Module.Rewires.refl h, ?_, fun _ _ => rfl⟩ ?_ k
  · simp
  · intro done o rest hsplit m' hm'
    have ho : o ∈ s.module.uses v := hsplit ▸ by simp
    have hnew : o ∉ done := by
      have hnodup := hsplit ▸ h.nodup_uses v
      exact fun hc => (nodup_append.mp hnodup).2.2 o hc o mem_cons_self rfl
    obtain ⟨m'', hset, hm''⟩ := hm'.step hvw hw (h.mem_uses.mp ho) hnew
    simp only [setOperand, applyUses, wp_bind, wp_module, hset]
    exact ⟨m'', rfl, hm''⟩

def substitute (v w : Value) (x : Option Value) : Option Value := if x = some v then some w else x

theorem wp_replaceAllUses (h : s.Linked) (v w : Value) (hw : s.HasValue w)
    (k : s.With (s.module.view.mapValues (substitute v w)) (Q ())) :
    wp (replaceAllUses (some v) (some w)) Q E s := by
  have hview : ∀ m', s.module.Rewires m' (fun o => substitute v w (s.module.operandValue o)) →
      Q () { s with module := m' } := by
    intro m' hm'
    refine k m' (hm'.linked h fun o u hu => ?_) ?_
    · unfold substitute at hu
      split at hu
      · next ho => exact .inl ⟨v, ho⟩
      · exact .inl ⟨u, hu⟩
    · rw [hm'.view]
      ext1 <;> try rfl
      all_goals
        funext _
        simp [view, viewWith, mapValues]
  by_cases hvw : v = w
  · subst hvw
    have hid : (fun o => substitute v v (s.module.operandValue o)) = s.module.operandValue := by
      funext o
      unfold substitute
      split
      · next ho => exact ho.symm
      · rfl
    have hsame : s.module.Rewires s.module fun o => substitute v v (s.module.operandValue o) := by
      rw [hid]
      exact Module.Rewires.refl h.wired
    simpa [replaceAllUses] using hview s.module hsame
  · refine wp_redirect h.wired hvw hw fun m' hm' => hview m' ?_
    simpa only [h.wired.mem_uses, substitute] using hm'.toRewires

end Build

/-! ### Cutting edges and silencing instructions -/

namespace Module

variable {m : Module}
variable {e : EdgeId}

def cut (m : Module) (e : EdgeId) : Module :=
  { m with
    edges := m.edges.update e ({ · with args := [] })
    blocks := match (m.edges.get e).target with
      | none => m.blocks
      | some b => m.blocks.update b fun x => { x with edges := x.edges.filter (· ≠ e) } }

theorem edge_cut (e e' : EdgeId) : (m.cut e).edges.get e' =
    if e' = e then { m.edges.get e' with args := [] } else m.edges.get e' :=
  Pool.get_update_or m.edges (.inr rfl) e'

@[simp] theorem source_cut (e e' : EdgeId) : ((m.cut e).edges.get e').source =
    (m.edges.get e').source := by
  rw [edge_cut]; split <;> rfl

@[simp] theorem target_cut (e e' : EdgeId) : ((m.cut e).edges.get e').target =
    (m.edges.get e').target := by
  rw [edge_cut]; split <;> rfl

@[simp] theorem pred_cut (e e' : EdgeId) :
    ((m.cut e).edges.get e').pred = (m.edges.get e').pred := by
  rw [edge_cut]; split <;> rfl

theorem args_cut (e e' : EdgeId) : ((m.cut e).edges.get e').args = if e' = e then []
    else (m.edges.get e').args := by
  rw [edge_cut]; split <;> rfl

theorem block_cut (h : m.Linked) (e : EdgeId) (b : BlockId) : (m.cut e).blocks.get b =
    { m.blocks.get b with edges := (m.blocks.get b).edges.filter (· ≠ e) } := by
  have hkeep : (m.edges.get e).target ≠ some b →
      (m.blocks.get b).edges.filter (· ≠ e) = (m.blocks.get b).edges := by
    intro hne
    refine filter_eq_self.mpr fun e' he' => ?_
    simp only [decide_eq_true_eq]
    rintro rfl
    exact hne (h.incoming b e' he').1
  unfold cut
  cases htarget : (m.edges.get e).target with
  | none => rw [hkeep (by simp [htarget])]
  | some t =>
    rw [Pool.get_update_or _ (.inr rfl)]
    split
    · rfl
    · next hb =>
      rw [hkeep]
      rw [htarget]
      exact fun hc => hb (Option.some.inj hc).symm

theorem size_cut (m : Module) (e : EdgeId) :
    (m.cut e).blocks.entries.size = m.blocks.entries.size := by
  unfold cut
  split <;> simp

theorem mem_edges_cut (h : m.Linked) {e' : EdgeId} :
    e' ∈ ((m.cut e).blocks.get b).edges ↔ e' ∈ (m.blocks.get b).edges ∧ e' ≠ e := by
  rw [block_cut h]
  simp

theorem Linked.cut (h : m.Linked) (hargs : ∀ o ∈ (m.edges.get e).args, m.operandValue o = none) :
    (m.cut e).Linked where
  wired := h.wired.congr (fun _ => rfl) fun _ hv => hv
  operand := h.operand
  arg e' o ho := by
    rw [args_cut] at ho
    rw [source_cut]
    split at ho
    · cases ho
    · exact h.arg e' o ho
  openArg e₁ e₂ o hs h₁ h₂ := by
    rw [source_cut] at hs
    rw [args_cut] at h₁ h₂
    split at h₁
    · cases h₁
    · split at h₂
      · cases h₂
      · exact h.openArg e₁ e₂ o hs h₁ h₂
  owned o v ho := by
    have hkept : ∀ e', o ∈ (m.edges.get e').args → o ∈ ((m.cut e).edges.get e').args := by
      intro e' ho'
      rw [args_cut, if_neg]
      · exact ho'
      · rintro rfl
        cases (hargs o ho').symm.trans ho
    refine ⟨fun i hi => ?_, fun hn => ?_⟩
    · rcases mem_allOperands.mp ((h.owned o v ho).1 i hi) with hmem | ⟨e', he', hmem⟩
      · exact mem_allOperands.mpr (.inl hmem)
      · exact mem_allOperands.mpr (.inr ⟨e', he', hkept e' hmem⟩)
    · obtain ⟨e', hs, hmem⟩ := (h.owned o v ho).2 hn
      exact ⟨e', (source_cut e e').trans hs, hkept e' hmem⟩
  target i e' he' := by
    rw [source_cut, target_cut]
    exact h.target i e' he'
  incoming b e' he' := by
    rw [source_cut, target_cut]
    exact h.incoming b e' ((mem_edges_cut h).mp he').1
  enters e' he' := by
    rw [args_cut] at he'
    split at he'
    · exact absurd rfl he'
    · next hne =>
      obtain ⟨b, hb⟩ := h.enters e' he'
      exact ⟨b, (mem_edges_cut h).mpr ⟨hb, hne⟩⟩
  pred i e' he' b hb := by
    rw [pred_cut]
    exact h.pred i e' he' b hb
  predIsSome i e' he' := by
    rw [pred_cut]
    exact h.predIsSome i e' he'
  predIsNone e' he' := by
    rw [source_cut] at he'
    rw [pred_cut]
    exact h.predIsNone e' he'
  targetsNodup := h.targetsNodup
  edgesNodup b := by
    rw [block_cut h]
    exact (h.edgesNodup b).filter _

def dropArgs (m : Module) (e : EdgeId) (o : OperandId) : Option Value :=
  if o ∈ (m.edges.get e).args then none else m.operandValue o

theorem Rewires.cut {m' : Module} {value : OperandId → Option Value} (hr : m.Rewires m' value)
    (e : EdgeId) : (m.cut e).Rewires (m'.cut e) value where
  wired := hr.wired.congr (fun _ => rfl) fun _ hv => hv
  skeleton := by
    have hm : ∀ x : Module, (x.cut e).skeleton =
        { x.skeleton with edges := (x.skeleton.cut e).edges,
                          blocks := (x.skeleton.cut e).blocks } :=
      fun _ => rfl
    rw [hm, hm, hr.skeleton]
  readers := hr.readers
  value := hr.value

section

variable (h : m.Linked)
include h

theorem openEdges_cut (e : EdgeId) (b : BlockId) :
    (m.cut e).openEdges b = (m.openEdges b).filter (· ≠ e) := by
  unfold openEdges
  rw [block_cut h, filter_filter, filter_filter]
  refine filter_congr fun e' _ => ?_
  rw [source_cut, Bool.and_comm]

theorem dropArgs_of_user (ho : (m.operands.get o).user ≠ (m.edges.get e).source) :
    m.dropArgs e o = m.operandValue o :=
  if_neg fun hc => ho (h.arg e o hc).2

section

variable (hi : (m.edges.get e).source ≠ some i)
include hi

theorem map_dropArgs_operands :
    (m.insts.get i).operands.map (m.dropArgs e) = (m.insts.get i).operands.map m.operandValue := by
  refine map_congr_left fun o ho => dropArgs_of_user h ?_
  rw [(h.operand i o ho).2]
  exact Ne.symm hi

theorem exits_cut : ((m.cut e).viewWith (m.dropArgs e)).exits i = m.view.exits i := by
  refine map_congr_left fun e' he' => ?_
  have hs : (m.edges.get e').source = some i := (h.target i e' he').1
  have hne : e' ≠ e := fun hc => hi (hc ▸ hs)
  rw [target_cut, args_cut, if_neg hne]
  congr 1
  refine map_congr_left fun o ho => dropArgs_of_user h ?_
  rw [(h.arg e' o ho).2, hs]
  exact Ne.symm hi

theorem entered_cut (value : OperandId → Option Value) : ((m.cut e).viewWith value).entered i =
    m.view.entered i := by
  refine propext (forall₂_congr fun e' he' => exists_congr fun b => ?_)
  rw [mem_edges_cut h, and_iff_left_iff_imp]
  rintro - rfl
  exact hi (h.target i e' he').1

end

theorem blockView_cut (e : EdgeId) : (fun b => ((m.cut e).blocks.get b).view) = m.view.block :=
  funext fun b => (congrArg Block.view (block_cut h e b)).trans rfl

theorem opens_cut (hne : ∀ e' ∈ m.openEdges b, e' ≠ e) :
    ((m.cut e).viewWith (m.dropArgs e)).opens b = m.view.opens b := by
  show ((m.cut e).openEdges b).map _ = (m.openEdges b).map _
  rw [openEdges_cut h, filter_eq_self.mpr fun e' he' => decide_eq_true (hne e' he')]
  refine map_congr_left fun e' he' => ?_
  rw [args_cut, if_neg (hne e' he')]
  refine map_congr_left fun o ho => if_neg fun hc => hne e' he' ?_
  exact h.openArg e' e o (Option.isNone_iff_eq_none.mp (mem_filter.mp he').2) ho hc

theorem silence_cut (hi : (m.edges.get e).source = some i) :
    ((m.cut e).viewWith (m.dropArgs e)).silence i = m.view.silence i := by
  have hother : ∀ j, j ≠ i → (m.edges.get e).source ≠ some j :=
    fun j hj hc => hj (Option.mem_unique hi hc).symm
  ext1 <;> try rfl
  · exact update_congr fun j hj => map_dropArgs_operands h (hother j hj)
  · exact update_congr fun j hj => exits_cut h (hother j hj)
  · exact update_congr fun j hj => entered_cut h (hother j hj) _
  · exact blockView_cut h e
  · funext b
    refine opens_cut h ?_
    rintro e' he' rfl
    have hs := (mem_filter.mp he').2
    rw [hi] at hs
    cases hs
  · exact m.size_cut e

end

end Module

namespace Build

variable {s : Builder} {Q : Post Unit} {E : Post Fault}

theorem wp_detachEdge (h : s.Linked) (e : EdgeId)
    (k : ∀ m', m'.Linked → m'.view = (s.module.cut e).viewWith (s.module.dropArgs e) →
      (s.module.cut e).skeleton = m'.skeleton → Q () { s with module := m' }) :
    wp (detachEdge e) Q E s := by
  unfold detachEdge
  simp only [wp_bind, wp_edge]
  refine wp_dropOperands h (fun o ho => (h.arg e o ho).1) fun m₁ hlinked hm₁ => ?_
  have hnone : ∀ o ∈ (m₁.edges.get e).args, m₁.operandValue o = none := by
    intro o ho
    rw [hm₁.edges] at ho
    rw [hm₁.value]
    exact if_pos ho
  have hcut := hm₁.cut e
  have hfinal : Q () { s with module := m₁.cut e } :=
    k _ (hlinked.cut hnone) hcut.view hcut.skeleton.symm
  have hsame : ((m₁.updateEdge e ({ · with args := [] })).edges.get e).target =
      (m₁.edges.get e).target := target_cut e e
  simp only [wp_modifyEdge, hsame]
  unfold cut at hfinal
  cases htarget : (m₁.edges.get e).target <;> rw [htarget] at hfinal <;> exact hfinal

end Build

namespace Module

variable {m : Module}
variable {f : Inst → Inst}

theorem get_updateInst_self (hf : f default = default) :
    (m.updateInst i f).insts.get i = f (m.insts.get i) :=
  (Pool.get_update_or _ (.inr hf) _).trans (if_pos rfl)

theorem hasValue_updateInst (i : InstId) (f : Inst → Inst) (v : Value) :
    (m.updateInst i f).HasValue v ↔ m.HasValue v := by
  cases v <;> simp [HasValue, updateInst]

theorem uses_updateInst (i : InstId) (hf : ∀ x, (f x).uses = x.uses) (v : Value) :
    (m.updateInst i f).uses v = m.uses v := by
  cases v with
  | inst j => exact m.insts.get_update_part Inst.uses i j hf
  | param p => rfl
  | func f => rfl
  | global g => rfl

theorem Wired.updateInst (h : m.Wired) (i : InstId) (hf : ∀ x, (f x).uses = x.uses) :
    (m.updateInst i f).Wired :=
  h.congr (uses_updateInst i hf) fun v hv => (hasValue_updateInst i f v).mpr hv

theorem Linked.release (h : m.Linked) (hdefault : f default = default)
    (huses : ∀ x, (f x).uses = x.uses)
    (hblock : ∀ x, (f x).block = x.block)
    (hoperands : ∀ o ∈ (f (m.insts.get i)).operands, o ∈ (m.insts.get i).operands)
    (htargets : (f (m.insts.get i)).targets.Sublist (m.insts.get i).targets)
    (hnone : ∀ o ∈ (m.insts.get i).operands, o ∉ (f (m.insts.get i)).operands →
      m.operandValue o = none) (hgone : ∀ e ∈ (m.insts.get i).targets, e ∉
      (f (m.insts.get i)).targets →
      (m.edges.get e).args = [] ∧ ∀ b, e ∉ (m.blocks.get b).edges) : (m.updateInst i f).Linked := by
  have hget (j) : (m.insts.update i f).get j = if j = i then f (m.insts.get j) else m.insts.get j :=
    Pool.get_update_or _ (.inr hdefault) _
  have hops : ∀ j, ∀ o ∈ ((m.insts.update i f).get j).operands, o ∈ (m.insts.get j).operands := by
    intro j o ho
    rw [hget] at ho
    split at ho
    · next hj => rw [hj] at ho ⊢; exact hoperands o ho
    · exact ho
  have hsub (j) : ((m.insts.update i f).get j).targets.Sublist (m.insts.get j).targets := by
    rw [hget]
    split
    · next hj => rw [hj]; exact htargets
    · exact .refl _
  have hedges : ∀ j, ∀ e ∈ ((m.insts.update i f).get j).targets, e ∈ (m.insts.get j).targets :=
    fun j _ he => (hsub j).subset he
  refine ⟨h.wired.updateInst i huses, ?_, h.arg, h.openArg, ?_, ?_, ?_, h.enters, ?_, ?_,
    h.predIsNone, ?_, h.edgesNodup⟩
  · intro j o ho
    exact h.operand j o (hops j o ho)
  · intro o v hv
    refine ⟨fun j hj => ?_, (h.owned o v hv).2⟩
    have hv' : m.operandValue o = some v := hv
    rw [mem_allOperands]
    show o ∈ ((m.insts.update i f).get j).operands ∨
      ∃ e ∈ ((m.insts.update i f).get j).targets, o ∈ (m.edges.get e).args
    rw [hget]
    split
    · next hji =>
      subst hji
      rcases mem_allOperands.mp ((h.owned o v hv).1 j hj) with hmem | ⟨e, he, hmem⟩
      · left
        by_contra hc
        rw [hnone o hmem hc] at hv'
        cases hv'
      · right
        refine ⟨e, ?_, hmem⟩
        by_contra hc
        rw [(hgone e he hc).1] at hmem
        cases hmem
    · exact mem_allOperands.mp ((h.owned o v hv).1 j hj)
  · intro j e he
    exact h.target j e (hedges j e he)
  · intro b e he
    refine ⟨(h.incoming b e he).1, fun j hj => ?_⟩
    have hold := (h.incoming b e he).2 j hj
    show e ∈ ((m.insts.update i f).get j).targets
    rw [hget]
    split
    · next hji =>
      subst hji
      by_contra hc
      exact (hgone e hold hc).2 b he
    · exact hold
  · intro j e he b hb
    refine h.pred j e (hedges j e he) b ?_
    rw [← hb]
    exact (m.insts.get_update_part Inst.block i j hblock).symm
  · intro j e he
    exact h.predIsSome j e (hedges j e he)
  · exact fun j => (h.targetsNodup j).sublist (hsub j)

def dropReads (m : Module) (i : InstId) (o : OperandId) : Option Value :=
  if o ∈ (m.insts.get i).operands then none else m.operandValue o

theorem dropReads_of_user (h : m.Linked) (ho : (m.operands.get o).user ≠ some i) :
    m.dropReads i o = m.operandValue o :=
  if_neg fun hc => ho (h.operand i o hc).2

theorem silence_dropReads (h : m.Linked) (i : InstId) : (m.viewWith (m.dropReads i)).silence i =
    m.view.silence i := by
  ext1 <;> try rfl
  · refine update_congr fun j hj => map_congr_left fun o ho => dropReads_of_user h ?_
    rw [(h.operand j o ho).2]
    exact fun hc => hj (Option.some.inj hc)
  · refine update_congr fun j hj => map_congr_left fun e he => ?_
    congr 1
    refine map_congr_left fun o ho => dropReads_of_user h ?_
    rw [(h.arg e o ho).2, (h.target j e he).1]
    exact fun hc => hj (Option.some.inj hc)
  · funext b
    refine map_congr_left fun e he => ?_
    refine map_congr_left fun o ho => dropReads_of_user h ?_
    have hs : (m.edges.get e).source = none := Option.isNone_iff_eq_none.mp (mem_filter.mp he).2
    rw [(h.arg e o ho).2, hs]
    simp

theorem silence_updateInst (i : InstId) (hf : ∀ x, (f x).view = x.view) :
    (m.updateInst i f).view.silence i = m.view.silence i := by
  have hget : ∀ j, j ≠ i → (m.insts.update i f).get j = m.insts.get j :=
    fun j hj => Pool.get_update_of_ne _ (Ne.symm hj) f
  ext1 <;> try rfl
  · funext j
    exact m.insts.get_update_part Inst.view i j hf
  · exact update_congr fun j hj => congrArg (·.operands.map m.operandValue) (hget j hj)
  · exact update_congr fun j hj => congrArg (List.map _) (congrArg Inst.targets (hget j hj))
  · exact update_congr fun j hj =>
      congrArg (fun x : Inst => ∀ e ∈ x.targets, ∃ b, e ∈ (m.blocks.get b).edges) (hget j hj)
  · exact Pool.size_update _ _ _

theorem silence_eq_self (hoperands : (m.insts.get i).operands = [])
    (htargets : (m.insts.get i).targets = []) :
    m.view.silence i = m.view := by
  have hreads : m.view.reads i = [] := congrArg (List.map _) hoperands
  have hexits : m.view.exits i = [] := congrArg (List.map _) htargets
  have hentered : m.view.entered i = True := by
    refine propext ⟨fun _ => trivial, fun _ e he => ?_⟩
    rw [htargets] at he
    cases he
  unfold silence
  rw [← hreads, ← hexits, ← hentered]
  simp only [Function.update_eq_self]

end Module

namespace Build

variable {s : Builder} {Q : Post Unit} {E : Post Fault}

theorem wp_dropAll (h : s.Linked) (i : InstId) (k : s.With (s.module.view.silence i) (Q ())) :
    wp (dropAll i) Q E s := by
  unfold dropAll
  simp only [wp_bind]
  refine wp_dropOperands h (fun o ho => (h.operand i o ho).1) fun m₁ h₁ hm₁ => ?_
  have hview₁ : m₁.view.silence i = s.module.view.silence i := by
    rw [hm₁.view]
    exact silence_dropReads h i
  have hnone : ∀ o ∈ (m₁.insts.get i).operands, m₁.operandValue o = none := by
    intro o ho
    rw [skeleton_operands hm₁.skeleton] at ho
    rw [hm₁.value]
    exact if_pos ho
  have h₂ : (m₁.updateInst i ({ · with operands := [] })).Linked :=
    h₁.release rfl (fun _ => rfl) (fun _ => rfl) (by simp)
      (.refl _) (fun o ho _ => hnone o ho) (fun e he hc => absurd he hc)
  rw [wp_modifyInst]
  generalize hm₂ : (m₁.updateInst i ({ · with operands := [] })) = m₂ at h₂
  have hview₂ : m₂.view.silence i = s.module.view.silence i := by
    rw [← hview₁, ← hm₂]
    exact silence_updateInst i fun _ => rfl
  have hops₂ : (m₂.insts.get i).operands = [] := by
    rw [← hm₂, get_updateInst_self rfl]
  -- one edge after the other is cut; those that are done pass nothing and enter nothing
  refine wp_forM_module (fun done m' => m'.Linked ∧
      m'.view.silence i = s.module.view.silence i ∧ (m'.insts.get i).operands = [] ∧
      (m'.insts.get i).targets = (m₂.insts.get i).targets ∧
      ∀ e ∈ done, (m'.edges.get e).args = [] ∧ ∀ b, e ∉ (m'.blocks.get b).edges)
    ⟨h₂, hview₂, hops₂, rfl, by simp⟩ ?_ ?_
  · rintro done e rest hsplit m' ⟨h', hview', hops', htargets', hdone⟩
    have hsource : (m'.edges.get e).source = some i := by
      refine (h'.target i e ?_).1
      rw [htargets', hsplit]
      simp
    refine wp_detachEdge h' e fun m'' h'' hview'' hskel => ⟨m'', rfl, h'', ?_, ?_, ?_, ?_⟩
    · rw [hview'']
      exact (silence_cut h' hsource).trans hview'
    · exact (skeleton_operands hskel.symm i).trans hops'
    · exact (skeleton_targets hskel.symm i).trans htargets'
    · intro e' he'
      rw [skeleton_edges hskel.symm, skeleton_blocks hskel.symm]
      rw [args_cut]
      simp only [mem_edges_cut h']
      by_cases hee : e' = e
      · subst hee
        exact ⟨if_pos rfl, fun b hb => hb.2 rfl⟩
      · have hd := hdone e' (by simpa [hee] using he')
        exact ⟨by rw [if_neg hee]; exact hd.1, fun b hb => hd.2 b hb.1⟩
  · rintro m₃ ⟨h₃, hview₃, hops₃, htargets₃, hdone⟩
    have h₄ : (m₃.updateInst i ({ · with targets := [] })).Linked :=
      h₃.release rfl (fun _ => rfl) (fun _ => rfl) (fun o ho => ho)
        (nil_sublist _) (fun o ho hc => absurd ho hc)
        (fun e he _ => hdone e (htargets₃ ▸ he))
    rw [wp_modifyInst]
    refine k _ h₄ ?_
    rw [← hview₃, ← silence_updateInst i (f := ({ · with targets := [] })) fun _ => rfl]
    refine (silence_eq_self ?_ ?_).symm
    · rw [get_updateInst_self rfl]
      exact hops₃
    · rw [get_updateInst_self rfl]

end Build

end Midlevel.Ir
