import Midlevel.Proofs.Ir.Built
import Midlevel.Proofs.Pass.Reend

/-!
The two steps of the clean-up that give blocks another end: branches on literals are decided, and
branches to a block that only branches on go to where that block does.
-/

namespace Midlevel.Ir

open Midlevel.Flow Build List
open Pass (Exit rebuildBranch)

variable {c : BlockId} {v : Value}

namespace View

variable {w : View} {i j : InstId}

theorem line_discard (hj : j ≠ i) : (w.discard i).line j = w.line j := by
  rw [line, line, inst_discard, reads_discard, exits_discard]
  simp only [if_neg hj]

theorem valueType_discard (v : Value) : (w.discard i).valueType v = w.valueType v := by
  cases v with
  | inst j =>
    show ((w.discard i).inst j).type = (w.inst j).type
    rw [inst_discard]
    split <;> rfl
  | param p => rfl
  | func g => rfl
  | global g => rfl

theorem values_discard {v : Option Value} (hv : v ∈ ((w.discard i).line j).values) : j ≠ i ∧
    v ∈ (w.line j).values := by
  by_cases hj : j = i
  · rw [Flow.Line.values, line, reads_discard, exits_discard] at hv
    simp [hj] at hv
  · exact ⟨hj, line_discard hj ▸ hv⟩

theorem reads_of_discard (hv : (w.discard i).Reads v) : w.Reads v := by
  rcases hv with ⟨j, hv⟩ | ⟨j, y, hy, hv⟩ | hopen
  · exact mem_reads (values_discard (mem_append_left _ hv)).2
  · have hmem : some v ∈ ((w.discard i).line j).values :=
      mem_append_right _ (mem_flatMap.mpr ⟨y, hy, hv⟩)
    exact mem_reads (values_discard hmem).2
  · exact .inr (.inr hopen)

/-- A branch at the end of block `c` can read `vs` and leave by `ys`. -/
structure Rebuildable (w : View) (c : BlockId) (vs : Args) (ys : List Exit) : Prop where
  bool : ∀ v, some v ∈ vs → w.valueType v = .bool
  takes : ∀ y ∈ ys, ∃ u, y.target = some u ∧ (w.block u).func = (w.block c).func ∧
    w.Accepts u y.args

end View

section Rebuild

variable {f : FuncId} {s : Builder} {m : Module} {Q : Post Unit} {E : Post Fault} {t : InstId}
  {cond : Option Value}
  {exits ys : List Exit} {x : Inst} {vs : Args}

/-- The branch that is built for a condition, if there is one, and exits. -/
inductive NewEnd : Option Value → List Exit → Inst → Args → List Exit → Prop
  | br (y : Exit) (rest : List Exit) : NewEnd none (y :: rest) { op := .br, type := .void } [] [y]
  | condBr (v : Value) (y z : Exit) (rest : List Exit) :
    NewEnd (some v) (y :: z :: rest) { op := .condBr, type := .void } [some v] [y, z]

theorem View.Rebuildable.canBranch {w : View} (h : w.Rebuildable c vs ys) (hs : w.Shape)
    (hc : (w.block c).func ≠ none)
    (hview : m.view = w.discard t) {y : Exit} (hy : y ∈ ys) :
    ∃ u, y.target = some u ∧ CanBranch m
    { func := (m.blocks.get c).func, block := some c } u y.args := by
  obtain ⟨u, hu, hfunc, haccepts⟩ := h.takes y hy
  have hblock (d : BlockId) : (m.blocks.get d).func = (w.block d).func := by
    show (m.view.block d).func = _
    rw [hview, block_discard (hs.insts.placed t)]
  refine ⟨u, hu, ?_, ?_, Module.checkArgs_eq_ok.mpr ?_⟩
  · rw [hblock, hfunc]
    exact Option.isSome_iff_ne_none.mpr hc
  · exact (hblock u).trans (hfunc.trans (hblock c).symm)
  · rw [hview]
    refine haccepts.congr ?_ rfl fun v _ => valueType_discard v
    rw [block_discard (hs.insts.placed t)]

theorem wp_rebuild (h : s.module.Linked) (hr : s.module.view.Replacing f c t x vs ys)
    (hnew : NewEnd cond exits x vs ys)
    (hE : ∀ e s', ¬ s.module.view.Rebuildable c vs ys → E e s')
    (k : ∀ s', s'.module.Linked → s'.module.view = s.module.view.reend c t x vs ys → Q () s') :
    wp (rebuildBranch t cond exits) Q E s := by
  have hblock : (s.module.insts.get t).block = some c := hr.placed
  have hfunc := (hr.run.ended.last t c hr.placed hr.branch).1
  rw [rebuildBranch, wp_bind, wp_inst, wp_bind, hblock]
  refine wp_eraseFrom h (fun _ hbad => absurd ⟨hblock, hr.mem⟩ hbad)
    (fun _ _ hread => absurd hread (hr.run.unread t hr.branch)) fun m₁ _ hm₁ hview => ?_
  have hadmits (op : Opcode) : m₁.view.Admits op c none :=
    hview ▸ hr.run.ended.admits_discard hr.run.shape hr.placed hr.branch op
  have hvalue {v : Value} (hv : some v ∈ vs ++ ys.flatMap Exit.args) : m₁.HasValue v := by
    rw [m₁.hasValue_iff_view, hview]
    exact (s.module.hasValue_iff_view v).mp (h.hasValue_of_reads (hr.values v hv))
  rw [wp_bind, wp_demand_some, wp_bind, wp_positionAtEnd, wp_bind]
  cases hnew with
  | br y rest =>
    show wp (demand (some y)) _ _ _
    rw [wp_demand_some, wp_bind]
    refine wp_br hm₁ (fun v hv => hvalue (by simpa using hv))
      (fun _ hbad => hE _ _ fun hgood => ?_) ?_
    · obtain ⟨u, hu, hcan⟩ := hgood.canBranch hr.run.shape hfunc hview mem_cons_self
      exact hbad u c hu hcan ((hadmits _).canAttach rfl)
    · intro u b m₂ hu _ hattach hm₂ hview₂
      obtain rfl := Option.some.inj hattach.block
      refine k _ hm₂ ?_
      rw [show y = ⟨some u, y.args⟩ by rw [← hu], View.reend, ← hview]
      exact hview₂
  | condBr v y z rest =>
    show wp (demand (some y)) _ _ _
    rw [wp_demand_some, wp_bind]
    show wp (demand (some z)) _ _ _
    rw [wp_demand_some, wp_bind]
    refine wp_condBr hm₁ (fun u hu => hvalue (by simp [hu]))
      (fun u hu => hvalue (by simpa using .inr (by simpa using hu)))
      (fun _ hbad => hE _ _ fun hgood => ?_) ?_
    · obtain ⟨u, hu, hcan⟩ := hgood.canBranch hr.run.shape hfunc hview mem_cons_self
      obtain ⟨u', hu', hcan'⟩ :=
        hgood.canBranch hr.run.shape hfunc hview (mem_cons_of_mem _ mem_cons_self)
      have hbool : m₁.valueType v = .bool := by
        rw [← m₁.view_valueType, hview, View.valueType_discard]
        exact hgood.bool v mem_cons_self
      exact hbad v u u' c rfl hbool hu hcan hu' hcan' ((hadmits _).canAttach rfl)
    · intro v' u u' b m₂ hv' _ hu _ hu' _ hattach hm₂ hview₂
      obtain rfl := Option.some.inj hv'
      obtain rfl := Option.some.inj hattach.block
      refine k _ hm₂ ?_
      rw [show y = ⟨some u, y.args⟩ by rw [← hu], show z = ⟨some u', z.args⟩ by rw [← hu'],
        View.reend, ← hview]
      exact hview₂

end Rebuild

/-! ### Literals that nobody reads -/

namespace View

variable {b : BlockId} {t : InstId}
variable {y : Exit} {j : InstId} {init : List InstId}

structure Unneeded (w : View) (f : FuncId) (i : InstId) : Prop where
  run : w.Runnable f
  op : (w.inst i).op = .boolLiteral
  unread : ¬ w.Reads (.inst i)

variable {w : View} {f : FuncId} {i : InstId}

namespace Unneeded

variable (h : w.Unneeded f i)

include h

theorem block (c : BlockId) :
    (w.discard i).block c = { w.block c with insts := (w.block c).insts.filter (· ≠ i) } :=
  block_discard (h.run.shape.insts.placed i) c

theorem blockFunc (c : BlockId) : ((w.discard i).block c).func = (w.block c).func := by rw [h.block]

theorem instFunc_eq (hj : j ≠ i) : (w.discard i).instFunc j = w.instFunc j := by
  rw [instFunc, inst_discard, if_neg hj]
  exact Option.bind_congr fun c _ => h.blockFunc c

theorem ne_of_instFunc (hj : (w.discard i).instFunc j = some f) : j ≠ i := by
  rintro rfl
  rw [instFunc, inst_discard, if_pos rfl] at hj
  cases hj

theorem dropsLiteral : DropsLiteral (w.graph f) ((w.discard i).graph f) i where
  entry := rfl
  params := funext fun c => by
    show ((w.discard i).block c).params = _
    rw [h.block]
    rfl
  lines c := by
    show ((w.discard i).block c).insts.map _ = ((w.block c).insts.map w.line).filter _
    rw [h.block, filter_map]
    refine map_congr_left fun j hj => line_discard ?_
    simpa using (mem_filter.mp hj).2
  literal c l hl hid := by
    obtain ⟨j, -, rfl⟩ := mem_map.mp hl
    obtain rfl : j = i := hid
    refine ⟨h.op, ?_⟩
    show w.exits j = []
    cases herased : (w.inst j).erased with
    | true => exact (h.run.shape.formed.erased j herased).2.2
    | false =>
      refine eq_nil_of_length_eq_zero ?_
      rw [h.run.shape.formed.exits j herased, h.op]
      rfl
  unread c l hl hv := by
    obtain ⟨j, -, rfl⟩ := mem_map.mp hl
    exact h.unread (mem_reads hv)

theorem closed (hc : w.Closed c init t) : (w.discard i).Closed c (init.filter (· ≠ i)) t := by
  have hop (j) : ((w.discard i).inst j).op = (w.inst j).op := by
    rw [inst_discard]
    split <;> rfl
  have ht : t ≠ i := by
    rintro rfl
    exact nomatch (congrArg Opcode.isTerminator h.op).symm.trans hc.last
  refine ⟨?_, fun j hj => (congrArg _ (hop j)).trans (hc.init j (mem_filter.mp hj).1),
    (congrArg _ (hop t)).trans hc.last⟩
  rw [h.block, hc.eq]
  rw [filter_append, filter_cons_of_pos (by simpa using ht), filter_nil]

theorem verified : (w.discard i).Verified f where
  nonempty := h.run.verified.nonempty
  closed c hc := by
    obtain ⟨init, t, hc'⟩ := h.run.verified.closed c ((h.blockFunc c).symm.trans hc)
    exact ⟨_, t, h.closed hc'⟩
  values j hj v hv := by
    obtain ⟨hji, hold⟩ := values_discard hv
    obtain ⟨u, rfl, hu⟩ := h.run.verified.values j ((h.instFunc_eq hji).symm.trans hj) v hold
    refine ⟨u, rfl, fun k hk => ?_⟩
    have hki : k ≠ i := by
      rintro rfl
      exact h.unread (hk ▸ mem_reads hold)
    rw [h.instFunc_eq hki, inst_discard, if_neg hki]
    exact hu k hk
  exits j hj y hy := by
    have hji := h.ne_of_instFunc hj
    rw [exits_discard, if_neg hji] at hy
    obtain ⟨u, hu, hfunc, haccepts⟩ :=
      h.run.verified.exits j ((h.instFunc_eq hji).symm.trans hj) y hy
    refine ⟨u, hu, (h.blockFunc u).trans hfunc, haccepts.congr ?_ rfl fun v _ =>
      valueType_discard v⟩
    rw [h.block]
  entered j hj := by
    have hji := h.ne_of_instFunc hj
    show Function.update w.entered i True j
    rw [Function.update_of_ne hji]
    exact h.run.verified.entered j ((h.instFunc_eq hji).symm.trans hj)
  opens := h.run.verified.opens

theorem runnable : (w.discard i).Runnable f := by
  obtain ⟨av, ha⟩ := h.run.certified
  refine ⟨⟨h.run.shape.discard i, h.run.ended.discard h.run.shape i, fun j hj hr => ?_,
    h.verified⟩, _,
    h.dropsLiteral.available ha⟩
  refine h.run.unread j ?_ (reads_of_discard hr)
  rw [inst_discard] at hj
  split at hj <;> exact hj

theorem defines (hv : (w.discard i).Defines c v) : w.Defines c v := by
  rcases hv with ⟨p, hp, rfl⟩ | ⟨j, hj, rfl⟩
  · exact .inl ⟨p, (congrArg Block.params (h.block c)) ▸ hp, rfl⟩
  · rw [h.block] at hj
    exact .inr ⟨j, (mem_filter.mp hj).1, rfl⟩

theorem enclosed (he : w.Enclosed f) : (w.discard i).Enclosed f where
  cond j hj hop v hv := by
    have hji := h.ne_of_instFunc hj
    rw [inst_discard, if_neg hji] at hop
    rw [reads_discard, if_neg hji] at hv
    rw [valueType_discard]
    exact he.cond j ((h.instFunc_eq hji).symm.trans hj) hop v hv
  branches j y hy c hc htarget := by
    rw [exits_discard] at hy
    split at hy
    · cases hy
    · next hji => exact (h.instFunc_eq hji).trans (he.branches j y hy c hc htarget)
  values j c hc v hdef hv := by
    obtain ⟨hji, hv⟩ := values_discard hv
    exact (h.instFunc_eq hji).trans (he.values j c hc v (h.defines hdef) hv)
  opens d args hargs c hc v hdef := he.opens d args hargs c hc v (h.defines hdef)

theorem refines : Refines f w (w.discard i) := by
  have hop (j) : ((w.discard i).inst j).op = (w.inst j).op := by
    rw [inst_discard]
    split <;> rfl
  refine ⟨h.enclosed, fun j hj => (hop j).symm.trans hj, fun j hj => ?_, (· == i), fun j hj => ?_,
    h.dropsLiteral.same⟩
  · rw [inst_discard]
    split
    · rfl
    · exact hj
  · obtain rfl := eq_of_beq hj
    rw [inst_discard, if_pos rfl]
    exact ⟨h.op, rfl⟩

end Unneeded

/-! ### Branches on literals -/

namespace Accepted

variable (h : w.Accepted f)
include h

theorem takes (hb : (w.block b).func = some f) (hj : w.instFunc j = some f) (hy : y ∈ w.exits j) :
    ∃ u, y.target = some u ∧ (w.block u).func = (w.block b).func ∧ w.Accepts u y.args := by
  obtain ⟨u, hu, hfunc, haccepts⟩ := h.verified.exits j hj y hy
  exact ⟨u, hu, hfunc.trans hb.symm, haccepts⟩

theorem not_erased (hi : i ∈ (w.block b).insts) : (w.inst i).erased = false := by
  by_contra herased
  have hnone := (h.shape.formed.erased i (by simpa using herased)).1
  exact nomatch hnone.symm.trans (h.shape.insts.placed i b hi)

theorem exits_length (hi : i ∈ (w.block b).insts) : (w.exits i).length = (w.inst i).op.exits :=
  h.shape.formed.exits i (h.not_erased hi)

theorem deciding (hb : (w.block b).func = some f) (hc : w.Closed b init t)
    (hfree : w.NextFree) (hy : y ∈ w.exits t) :
    Reending w f b init t { op := .br, type := .void } [] [y] where
  run := h
  func := hb
  closed := hc
  free := hfree
  emittable := emittable_br y
  last := rfl
  reads v hv := absurd hv not_mem_nil
  exits z hz := by
    have hmem : t ∈ (w.block b).insts := by simp [hc.eq]
    exact ⟨t, (instFunc_of_mem h.shape.insts hmem).trans hb, mem_singleton.mp hz ▸ hy⟩
  cond := nofun

end Accepted

/-- A branch on a literal gives way to one that goes where the literal says. -/
theorem Runnable.decided (h : w.Runnable f) {lit : InstId} (hb : (w.block b).func = some f)
    (hc : w.Closed b init t) (hfree : w.NextFree) (hop : (w.inst t).op = .condBr)
    (hreads : (w.reads t).head? = some (some (.inst lit))) (hlit : (w.inst lit).op = .boolLiteral)
    (hy : (if (w.inst lit).payload.bool then (w.exits t)[0]? else (w.exits t)[1]?) = some y) :
    (w.reend b t { op := .br, type := .void } [] [y]).Runnable f ∧
      Refines f w (w.reend b t { op := .br, type := .void } [] [y]) := by
  have hexit : y ∈ w.exits t := by
    split at hy <;> exact mem_of_getElem? hy
  have hr := h.deciding hb hc hfree hexit
  have hd : DecidesBranch (w.graph f) _ b _ (w.line t) _ lit (w.inst lit).payload.bool :=
    { hr.reends with
      cond := hop
      reads := hreads
      br := by rw [line, inst_reend, if_pos rfl]
      noReads := by rw [line, reads_reend, if_pos rfl]
      taken := by
        rw [line, exits_reend, if_pos rfl]
        exact ⟨y, rfl, hy⟩
      literal := fun c l hl hid => by
        obtain ⟨i, -, rfl⟩ := mem_map.mp hl
        obtain rfl : i = lit := hid
        exact ⟨hlit, rfl⟩ }
  obtain ⟨av, ha⟩ := h.certified
  exact ⟨⟨hr.accepted, _, hd.available ha⟩, hr.replacing.refines hr.enclosed (hd.same ha h.ends)⟩

end View

end Midlevel.Ir

namespace Midlevel.Pass

open Midlevel.Flow
open Ir

variable {E : Fault → Workspace → Prop} {lit t : InstId}

/-- The clean-up has kept the meaning of `f` so far. -/
structure Kept (f : FuncId) (w₀ : View) (s : Workspace) : Prop where
  linked : s.builder.module.Linked
  run : s.builder.module.view.Runnable f
  refines : View.Refines f w₀ s.builder.module.view

variable {f : FuncId} {w₀ : View} {s : Workspace} {b : BlockId}

theorem constantBranch?_eq_some {m : Module} (h : constantBranch? m b = some (t, lit)) :
    m.terminator b = some t ∧ (m.insts.get t).op = .condBr ∧ m.operandAt t 0 = some (.inst lit) ∧
      (m.insts.get lit).op = .boolLiteral := by
  rw [constantBranch?] at h
  split at h
  · cases h
  · next t' ht =>
    split at h
    · cases h
    · next hop =>
      split at h
      · next lit' hlit =>
        split at h
        · next hbool =>
          obtain ⟨rfl, rfl⟩ := Prod.mk.inj (Option.some.inj h)
          exact ⟨ht, not_not.mp hop, hlit, hbool⟩
        · cases h
      · cases h

theorem Kept.closed (h : Kept f w₀ s) (hb : (s.view.block b).func = some f)
    (ht : s.module.terminator b = some t) : ∃ init, s.view.Closed b init t := by
  obtain ⟨init, t', hc⟩ := h.run.verified.closed b hb
  have hlast := (Module.terminator_eq_some.mp ht).1
  rw [show (s.module.blocks.get b).insts = init ++ [t'] from hc.eq, List.getLast?_concat] at hlast
  obtain rfl := Option.some.inj hlast
  exact ⟨init, hc⟩

theorem wp_eraseLiteral (h : Kept f w₀ s) {Q : Unit → Workspace → Prop}
    (hop : (s.module.view.inst lit).op = .boolLiteral)
    (hfunc : s.module.view.instFunc lit = some f) (hdead : s.module.isDead (.inst lit) = true)
    (k : ∀ s', Kept f w₀ s' → s'.module.view.func = s.module.view.func → Q () s') :
    wp (Transform.build (Build.erase (some lit))) Q E s := by
  obtain ⟨c, hmem, -⟩ := h.run.exists_mem hfunc
  have hblock : (s.module.insts.get lit).block = some c := h.run.shape.insts.placed lit c hmem
  have hunread : ¬ s.module.view.Reads (.inst lit) := by
    rw [← h.linked.uses_eq_nil]
    exact List.isEmpty_iff.mp (Bool.and_eq_true_iff.mp hdead).1
  have hu : s.module.view.Unneeded f lit := ⟨h.run, hop, hunread⟩
  rw [Transform.wp_build, Build.erase, wp_bind, Build.wp_inst, hblock]
  refine Build.wp_eraseFrom h.linked (fun _ hbad => absurd ⟨hblock, hmem⟩ hbad)
    (fun _ _ hr => absurd hr hunread) fun m' _ hl hview => k _ ⟨hl, ?_, ?_⟩ ?_
  · exact hview ▸ hu.runnable
  · exact hview ▸ h.refines.trans hu.refines
  · rw [hview]
    rfl

theorem Kept.congr (h : Kept f w₀ s) {s' : Workspace} (hs : s'.builder = s.builder) :
    Kept f w₀ s' := by
  obtain ⟨hl, hrun, hrefines⟩ := h
  rw [← hs] at hl hrun hrefines
  exact ⟨hl, hrun, hrefines⟩

structure OnLiteral (w : View) (f : FuncId) (b : BlockId) (init : List InstId) (t lit : InstId)
    (y z : Exit) : Prop where
  closed : w.Closed b init t
  func : w.instFunc t = some f
  op : (w.inst t).op = .condBr
  exits : w.exits t = [y, z]
  reads : (w.reads t).head? = some (some (.inst lit))
  literal : (w.inst lit).op = .boolLiteral
  literalFunc : w.instFunc lit = some f

theorem Kept.onLiteral (h : Kept f w₀ s) (hb : (s.view.block b).func = some f)
    (hconst : constantBranch? s.module b = some (t, lit)) :
    ∃ init y z, OnLiteral s.view f b init t lit y z := by
  obtain ⟨hterm, hop, hread, hlit⟩ := constantBranch?_eq_some hconst
  obtain ⟨init, hc⟩ := h.closed hb hterm
  have hmem : t ∈ (s.view.block b).insts := by simp [hc.eq]
  have hfunc := (View.instFunc_of_mem h.run.shape.insts hmem).trans hb
  have hlength : (s.view.exits t).length = 2 := by
    rw [h.run.exits_length hmem, show (s.view.inst t).op = .condBr from hop]
    rfl
  obtain ⟨y, z, hexits⟩ := List.length_eq_two.mp hlength
  have hreads : (s.view.reads t).head? = some (some (.inst lit)) := by
    obtain ⟨o, ho, hv⟩ := Option.bind_eq_some_iff.mp hread
    show ((s.module.insts.get t).operands.map _).head? = _
    rw [List.head?_map, List.head?_eq_getElem?, ho, Option.map_some, hv]
  obtain ⟨u, hu, hlive⟩ := h.run.verified.values t hfunc (some (.inst lit))
    (List.mem_append_left _ (List.mem_of_mem_head? (Option.mem_def.mpr hreads)))
  exact ⟨init, y, z, hc, hfunc, hop, hexits, hreads, hlit, (hlive lit (Option.some.inj hu).symm).2⟩

theorem wp_foldConstantBranch (h : Kept f w₀ s) (hb : (s.view.block b).func = some f) :
    wp (foldConstantBranch b) (fun _ s' => Kept f w₀ s' ∧ s'.view.func = s.view.func) E s := by
  rw [foldConstantBranch, wp_bind, Transform.wp_module]
  split
  · exact ⟨h, rfl⟩
  · next t lit hconst =>
    obtain ⟨init, y, z, ho⟩ := h.onLiteral hb hconst
    rw [← Module.view_exits, ho.exits]
    show wp (Transform.demand (some z) >>= _) _ _ _
    rw [wp_bind, Transform.wp_demand_some, wp_bind, Transform.wp_build]
    generalize hx : (if (s.module.insts.get lit).payload.bool = true then
      ([y, z].head?.getD z) else z) = x
    have htaken : (if (s.view.inst lit).payload.bool then
        (s.view.exits t)[0]? else (s.view.exits t)[1]?) = some x := by
      rw [ho.exits, ← hx]
      exact (apply_ite some ..).symm
    have hexit : x ∈ s.view.exits t := by
      split at htaken <;> exact List.mem_of_getElem? htaken
    have hr := h.run.deciding hb ho.closed (View.nextFree h.linked) hexit
    have hgood : s.module.view.Rebuildable b [] [x] :=
      ⟨nofun, fun y hy => List.mem_singleton.mp hy ▸ h.run.takes hb ho.func hexit⟩
    refine wp_rebuild h.linked hr.replacing (.br x []) (fun _ _ => absurd hgood)
      fun s' hl hview => ?_
    obtain ⟨hrun, hrefines⟩ :=
      h.run.decided hb ho.closed (View.nextFree h.linked) ho.op ho.reads ho.literal htaken
    rw [← hview] at hrun hrefines
    have hkept : ∀ stats, Kept f w₀ ⟨s', stats⟩ := fun _ => ⟨hl, hrun, h.refines.trans hrefines⟩
    have hfuncs : s'.module.view.func = s.view.func := by
      rw [hview]
      rfl
    rw [wp_bind, Transform.wp_count, wp_bind, Transform.wp_module, wp_ite]
    refine ⟨fun hdead => ?_, fun _ => ⟨hkept _, hfuncs⟩⟩
    -- The literal is where it was, as it is neither the branch that went nor the one that came.
    have hnext : lit ≠ s.view.nextInst := by
      rintro rfl
      obtain ⟨c, hc, -⟩ := Option.bind_eq_some_iff.mp ho.literalFunc
      exact nomatch hr.free.block.symm.trans hc
    have hne : lit ≠ t := by
      rintro rfl
      exact nomatch ho.literal.symm.trans ho.op
    have hop : (s'.module.view.inst lit).op = .boolLiteral := by
      rw [hview, View.inst_reend, if_neg hnext, if_neg hne]
      exact ho.literal
    have hfunc : s'.module.view.instFunc lit = some f := by
      rw [hview, hr.replacing.instFunc_eq hnext hne]
      exact ho.literalFunc
    rw [wp_bind]
    refine wp_eraseLiteral (hkept _) hop hfunc hdead fun s'' hkept' hfuncs' => ?_
    exact (Transform.wp_count _).mpr ⟨hkept'.congr rfl, hfuncs'.trans hfuncs⟩

theorem wp_foldConstantBranches (h : Kept f w₀ s) :
    wp (foldConstantBranches f) (fun _ s' => Kept f w₀ s') E s := by
  refine wp_forM_of_each (fun t => Kept f w₀ t ∧
    t.view.func = s.view.func) (fun b hb t ht => ?_) ⟨h, rfl⟩ fun t ht => ht.1
  refine wp_mono (wp_foldConstantBranch ht.1 ?_)
    (fun _ u hu => ⟨hu.1, hu.2.trans ht.2⟩) fun _ _ => id
  rw [← ht.1.run.shape.blocks.mem_iff, ht.2]
  exact hb

end Midlevel.Pass
