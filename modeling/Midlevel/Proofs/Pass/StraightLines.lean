import Midlevel.Proofs.Ir.Merging
import Midlevel.Proofs.Pass.Unreachable

/-!
Blocks that are merged into the block before them. A block that is entered by one branch only, an
unconditional one, is appended to the block of that branch, and what the branch passed takes the
place of the parameters. Nothing can go wrong there: the verifier has seen that the branch passes
what the parameters ask for, and a branch has no result that one could read.
-/

namespace Midlevel.Ir

open Midlevel.Flow List
open Pass (Exit)

variable {v : Value}

namespace View

/-- Block `s` is entered from the end of block `p` only, which passes `args`. -/
structure Joining (w : View) (f : FuncId) (p s : BlockId) (init : List InstId) (t : InstId)
    (args : List Value) : Prop where
  run : w.Runnable f
  pred : (w.block p).func = some f
  inner : s ∈ (w.func f).blocks.tail
  ne : p ≠ s
  closed : w.Closed p init t
  op : (w.inst t).op = .br
  exits : w.exits t = [⟨some s, args.map some⟩]
  sole : ∀ i, w.instFunc i = some f → ∀ x ∈ w.exits i, x.target = some s → i = t

theorem type_leaveFunc (w : View) (b : BlockId) (g : FuncId) :
    ((w.leaveFunc b).func g).type = (w.func g).type := by
  show (if (w.block b).func = some g then (w.func g).withBlocks _ else w.func g).type = _
  split <;> rfl

namespace Joining

variable {w : View} {f : FuncId} {p s : BlockId} {init : List InstId} {t : InstId}
  {args : List Value}
  (h : w.Joining f p s init t args)
variable {b : BlockId} {i : InstId} {u : Value}

abbrev merged (_ : w.Joining f p s init t args) : View := w.merge p s t (args.map some)

include h

theorem folding : w.Folding p s init t := ⟨h.run.shape.insts, h.ne, h.closed.eq⟩

theorem instFunc : w.instFunc t = some f :=
  (instFunc_of_mem h.run.shape.insts h.folding.mem).trans h.pred

theorem succ : (w.block s).func = some f :=
  (h.run.shape.blocks.mem_iff f s).mp (mem_of_mem_tail h.inner)

theorem not_entry : s ≠ (w.graph f).entry := by
  rintro heq
  have hnodup := h.run.shape.blocks.nodup f
  rw [h.run.blocks_eq, nodup_cons] at hnodup
  exact hnodup.1 (heq ▸ h.inner)

theorem accepts : w.Accepts s (args.map some) := by
  obtain ⟨u, hu, -, haccepts⟩ := h.run.verified.exits t h.instFunc ⟨some s, args.map some⟩
    (by simp [h.exits])
  obtain rfl := Option.some.inj hu
  exact haccepts

theorem count : args.length = (w.block s).params.length := by
  have := h.accepts.length_eq
  rwa [length_map] at this

/-! ### What merging leaves of the view -/

theorem blocks_merge : (h.merged.func f).blocks = (w.graph f).entry ::
    (w.func f).blocks.tail.filter (· ≠ s) := by
  have hplaced := ((h.run.shape.discard t).mapValues (w.passed s args)).blocks
  refine (hplaced.blocks_append p s f).trans ?_
  show (w.func f).blocks.filter (· ≠ s) = _
  rw [h.run.blocks_eq, filter_cons_of_pos (by simpa using h.not_entry.symm)]
  rfl

theorem tail_subset (hb : b ∈ (h.merged.func f).blocks.tail) :
    b ∈ (w.func f).blocks.tail ∧ b ≠ s := by
  rw [h.blocks_merge] at hb
  simpa using hb

theorem op_merge (i : InstId) : (h.merged.inst i).op = (w.inst i).op := by
  rw [h.folding.inst_merge]
  split
  · rfl
  · split <;> rfl

theorem params_merge (b : BlockId) : (h.merged.block b).params = (w.block b).params := by
  rw [h.folding.block_merge]
  split
  · rfl
  · split <;> rfl

theorem func_merge (hb : b ≠ s) : (h.merged.block b).func = (w.block b).func := by
  rw [h.folding.block_merge, if_neg hb]
  split <;> rfl

theorem valueType_merge (v : Value) : h.merged.valueType v = w.valueType v := by
  cases v with
  | inst i =>
    show (h.merged.inst i).type = (w.inst i).type
    rw [h.folding.inst_merge]
    split
    · rfl
    · split <;> rfl
  | param p => rfl
  | func g => exact type_leaveFunc _ s g
  | global g => rfl

theorem instFunc_eq (hi : i ≠ t) : h.merged.instFunc i = w.instFunc i := by
  rw [View.instFunc, View.instFunc, h.folding.inst_merge, if_neg hi]
  split
  · next hmem =>
    rw [h.run.shape.insts.placed i s hmem]
    show (h.merged.block p).func = (w.block s).func
    rw [h.func_merge h.ne, h.pred, h.succ]
  · next hmem =>
    refine Option.bind_congr fun c hc => h.func_merge ?_
    rintro rfl
    exact hmem (h.run.ended.listed i c hc (by simp [h.succ]))

theorem instFunc_of_merge {g : FuncId} (hi : h.merged.instFunc i = some g) : i ≠ t ∧
    w.instFunc i = some g := by
  have hne : i ≠ t := by
    rintro rfl
    rw [View.instFunc, h.folding.inst_merge, if_pos rfl] at hi
    cases hi
  exact ⟨hne, (h.instFunc_eq hne).symm.trans hi⟩

/-! ### Values -/

theorem arg_mem (hu : u ∈ args) : some u ∈ (w.line t).values := by
  have hexit : ⟨some s, args.map some⟩ ∈ w.exits t := by
    rw [h.exits]
    exact mem_singleton_self _
  exact mem_append_right _ (mem_flatMap.mpr ⟨_, hexit, mem_map_of_mem hu⟩)

theorem valueType_passed (hu : w.passed s args (some v) = some u) :
    w.valueType u = w.valueType v := by
  have htype : ∀ q u, (q, some u) ∈ (w.block s).params.zip (args.map some) →
      w.valueType (.param q) = w.valueType v → w.valueType u = w.valueType v := fun q u hx hq => by
    obtain ⟨u', hu', htype⟩ := (List.forall₂_iff_zip.mp h.accepts.flip).2 hx
    obtain rfl := Option.some.inj hu'
    exact htype.trans hq
  obtain ⟨u', hu', htype⟩ :=
    exists_passed w s args (P := fun u => w.valueType u = w.valueType v) rfl htype
  exact Option.mem_unique hu hu' ▸ htype

theorem reads_passed (hv : w.Reads v) (hu : w.passed s args (some v) = some u) : w.Reads u := by
  obtain ⟨u', hu', hr⟩ := exists_passed w s args hv fun q u hx _ => by
    obtain ⟨u', heq, hmem⟩ := mem_args hx
    exact mem_reads (h.arg_mem (Option.some.inj heq ▸ hmem))
  exact Option.mem_unique hu hu' ▸ hr

theorem reads_of_merge (hr : h.merged.Reads u) : w.Reads u := by
  have hsource : ∀ v, (∀ x, v = some x → w.Reads x) → w.passed s args v = some u → w.Reads u := by
    rintro (_ | v) hv hu
    · exact nomatch (substituteAll_none _).symm.trans hu
    · exact h.reads_passed (hv v rfl) hu
  have hline : ∀ i, some u ∈ (h.merged.line i).values → w.Reads u := fun i hu => by
    obtain ⟨-, v, hv, heq⟩ := h.folding.values_merge hu
    exact hsource v (fun x hx => mem_reads (hx ▸ hv)) heq
  rcases hr with ⟨i, hu⟩ | ⟨i, x, hx, hu⟩ | ⟨c, vs, hvs, hu⟩
  · exact hline i (mem_append_left _ hu)
  · exact hline i (mem_append_right _ (mem_flatMap.mpr ⟨x, hx, hu⟩))
  · obtain ⟨vs, hopen, rfl⟩ := mem_map.mp hvs
    obtain ⟨v, hv, heq⟩ := mem_map.mp hu
    exact hsource v (fun x hx => .inr (.inr ⟨c, vs, hopen, hx ▸ hv⟩)) heq

/-! ### The function after merging -/

theorem merges : Merges (w.graph f) (h.merged.graph f) p s (init.map w.line) (w.line t) args
    (w.passed s args) where
  entry := by
    show (h.merged.func f).blocks.head?.getD default = _
    rw [h.blocks_merge]
    rfl
  params := funext h.params_merge
  lines b := by
    show (h.merged.block b).insts.map _ = _
    rw [h.folding.block_merge]
    split
    · rfl
    · next hbs =>
      split
      · next hbp =>
        show (init ++ (w.block s).insts).map _ =
          (init.map w.line ++ (w.block s).insts.map w.line).map _
        rw [← map_append, map_map]
        refine map_congr_left fun i hi => h.folding.line_merge ?_
        exact (mem_append.mp hi).elim h.folding.ne_of_mem_init (h.folding.ne_of_mem h.ne.symm)
      · next hbp =>
        show _ = ((w.block b).insts.map w.line).map _
        rw [map_map]
        exact map_congr_left fun i hi => h.folding.line_merge (h.folding.ne_of_mem hbp hi)
  ne := h.ne
  notEntry := h.not_entry
  before := h.closed.ending f
  plain l hl := by
    obtain ⟨i, hi, rfl⟩ := mem_map.mp hl
    refine eq_nil_iff_forall_not_mem.mpr fun x hx => ?_
    have hop := h.run.branch_of_exit (h.closed.eq ▸ mem_append_left _ hi) hx
    exact absurd hop (by simp [h.closed.init i hi])
  br := h.op
  exits := h.exits
  sole b hb hlead := by
    obtain ⟨l, hl, x, hx, htarget⟩ := hlead
    obtain ⟨i, hi, rfl⟩ := mem_map.mp hl
    obtain rfl := h.sole i
      ((instFunc_of_mem h.run.shape.insts hi).trans (h.run.func_of_reachable hb)) x hx htarget
    exact Option.mem_unique (h.run.shape.insts.placed _ b hi) h.folding.placed
  count := h.count
  nodup := h.run.shape.params.nodup s
  none := substituteAll_none _
  other v hv := passed_of_not_param hv
  param hargs x hx := by
    have hfst : ((w.block s).params.zip (args.map some)).map Prod.fst = (w.block s).params :=
      map_fst_zip (Nat.le_of_eq (by rw [length_map, h.count]))
    have hmem : (x.1, some x.2) ∈ (w.block s).params.zip (args.map some) := by
      rw [zip_map_right]
      exact mem_map.mpr ⟨x, hx, rfl⟩
    refine substituteAll_param (hfst.symm ▸ h.run.shape.params.nodup s) hmem fun y hy => ?_
    exact hargs x.2 (of_mem_zip hx).2 y.1 (of_mem_zip hy).1

theorem live (hr : w.Reads u)
    (hu : ∀ j, u = .inst j → (w.inst j).erased = false ∧ w.instFunc j = some f)
    (j : InstId) (hj : u = .inst j) : (h.merged.inst j).erased = false ∧
      h.merged.instFunc j = some f := by
  obtain ⟨herased, hfunc⟩ := hu j hj
  have hne : j ≠ t := by
    rintro rfl
    exact h.run.unread j h.closed.last (hj ▸ hr)
  refine ⟨?_, (h.instFunc_eq hne).trans hfunc⟩
  rw [h.folding.inst_merge, if_neg hne]
  split
  · exact herased
  · exact herased

theorem closed_merge (hb : (w.block b).func = some f) (hbs : b ≠ s) :
    ∃ init t', h.merged.Closed b init t' := by
  by_cases hbp : b = p
  · obtain ⟨init', t', hc⟩ := h.run.verified.closed s h.succ
    refine ⟨init ++ init', t', ?_, fun i hi => ?_, (congrArg _ (h.op_merge t')).trans hc.last⟩
    · rw [h.folding.block_merge, if_neg hbs, if_pos hbp, hc.eq, append_assoc]
    · refine (congrArg _ (h.op_merge i)).trans ?_
      exact (mem_append.mp hi).elim (h.closed.init i) (hc.init i)
  · obtain ⟨init', t', hc⟩ := h.run.verified.closed b hb
    refine ⟨init', t', ?_, fun i hi => (congrArg _ (h.op_merge i)).trans (hc.init i hi),
      (congrArg _ (h.op_merge t')).trans hc.last⟩
    rw [h.folding.block_merge, if_neg hbs, if_neg hbp, hc.eq]

theorem accepts_merge {vs : Args} (hvs : w.Accepts b vs) :
    h.merged.Accepts b (vs.map (w.passed s args)) := by
  rw [Accepts, h.params_merge, List.forall₂_map_left_iff]
  refine hvs.imp ?_
  rintro _ q ⟨v, rfl, hv⟩
  obtain ⟨u, hu, -⟩ := exists_passed w s args trivial fun _ _ _ _ => trivial
  exact ⟨u, hu, (h.valueType_merge u).trans ((h.valueType_passed hu).trans hv)⟩

theorem verified : h.merged.Verified f where
  nonempty := by
    rw [h.blocks_merge]
    exact cons_ne_nil _ _
  closed b hb := by
    have hbs : b ≠ s := by
      rintro rfl
      rw [h.folding.block_merge, if_pos rfl] at hb
      cases hb
    exact h.closed_merge ((h.func_merge hbs).symm.trans hb) hbs
  values i hi v hv := by
    obtain ⟨hne, hfunc⟩ := h.instFunc_of_merge hi
    obtain ⟨-, x, hx, rfl⟩ := h.folding.values_merge hv
    obtain ⟨y, rfl, hy⟩ := h.run.verified.values i hfunc x hx
    -- What is read was there, and so was what the branch passed.
    obtain ⟨u, hu, hread, hlive⟩ := exists_passed w s args
      (P := fun u => w.Reads u ∧ ∀ j, u = .inst j → (w.inst j).erased = false ∧
        w.instFunc j = some f)
      ⟨mem_reads hx, hy⟩ fun q u hq _ => by
        obtain ⟨a, ha, hmem⟩ := mem_args hq
        obtain rfl := Option.some.inj ha
        obtain ⟨a, ha, hlive⟩ := h.run.verified.values t h.instFunc _ (h.arg_mem hmem)
        obtain rfl := Option.some.inj ha
        exact ⟨mem_reads (h.arg_mem hmem), hlive⟩
    exact ⟨u, hu, h.live hread hlive⟩
  exits i hi x hx := by
    obtain ⟨hne, hfunc⟩ := h.instFunc_of_merge hi
    obtain ⟨-, y, hy, rfl⟩ := exits_of_merge hx
    obtain ⟨u, hu, hufunc, haccepts⟩ := h.run.verified.exits i hfunc y hy
    have hus : u ≠ s := by
      rintro rfl
      exact hne (h.sole i hfunc y hy hu)
    exact ⟨u, hu, (h.func_merge hus).trans hufunc, h.accepts_merge haccepts⟩
  entered i hi := by
    obtain ⟨hne, hfunc⟩ := h.instFunc_of_merge hi
    show Function.update w.entered t True i
    rw [Function.update_of_ne hne]
    exact h.run.verified.entered i hfunc
  opens b hb := by
    show (w.opens b).map _ = []
    rw [h.run.verified.opens b (h.tail_subset hb).1, map_nil]

theorem runnable : h.merged.Runnable f := by
  obtain ⟨av, ha⟩ := h.run.certified
  have hended : h.merged.Ended := h.run.ended.merge h.run.shape _ (by simp [h.pred])
    (by simp [h.closed.eq])
  refine ⟨⟨h.run.shape.merge p s t _, hended, fun i hi hr => ?_, h.verified⟩,
    h.merges.certified h.run.unique ha⟩
  exact h.run.unread i (h.op_merge i ▸ hi) (h.reads_of_merge hr)

theorem defines_of_merge (hb : b ∈ (h.merged.func f).blocks.tail)
    (hv : h.merged.Defines b v) : ∃ c ∈ (w.func f).blocks.tail, w.Defines c v := by
  obtain ⟨htail, hbs⟩ := h.tail_subset hb
  rcases hv with ⟨q, hq, rfl⟩ | ⟨i, hi, rfl⟩
  · exact ⟨b, htail, .inl ⟨q, h.params_merge b ▸ hq, rfl⟩⟩
  · rw [h.folding.block_merge, if_neg hbs] at hi
    split at hi
    · next hbp =>
      subst hbp
      rcases mem_append.mp hi with hi | hi
      · exact ⟨b, htail, .inr ⟨i, h.closed.eq ▸ mem_append_left _ hi, rfl⟩⟩
      · exact ⟨s, h.inner, .inr ⟨i, hi, rfl⟩⟩
    · exact ⟨b, htail, .inr ⟨i, hi, rfl⟩⟩

/-- A value that is read in place of another: of one that an inner block defines, if it is
itself. -/
theorem exists_source {v : Option Value} (hu : w.passed s args v = some u)
    (hdef : ∃ c ∈ (w.func f).blocks.tail, w.Defines c u) :
    ∃ x, v = some x ∧ ∃ c ∈ (w.func f).blocks.tail, w.Defines c x := by
  rcases v with _ | x
  · exact nomatch (substituteAll_none _).symm.trans hu
  · refine ⟨x, rfl, ?_⟩
    by_cases hx : ∀ q ∈ (w.block s).params, x ≠ .param q
    · obtain rfl := Option.mem_unique (passed_of_not_param hx) hu
      exact hdef
    · simp only [not_forall, not_not] at hx
      obtain ⟨q, hq, rfl⟩ := hx
      exact ⟨s, h.inner, .inl ⟨q, hq, rfl⟩⟩

theorem enclosed (he : w.Enclosed f) : h.merged.Enclosed f where
  cond i hi hop v hv := by
    obtain ⟨hne, hfunc⟩ := h.instFunc_of_merge hi
    rw [reads_merge, if_neg hne] at hv
    obtain ⟨x, hx, heq⟩ := mem_map.mp hv
    rcases x with _ | x
    · exact nomatch (substituteAll_none _).symm.trans heq
    · rw [h.valueType_merge, h.valueType_passed heq]
      exact he.cond i hfunc (h.op_merge i ▸ hop) x hx
  branches i x hx b hb htarget := by
    obtain ⟨hne, y, hy, rfl⟩ := exits_of_merge hx
    exact (h.instFunc_eq hne).trans (he.branches i y hy b (h.tail_subset hb).1 htarget)
  values i b hb v hv hread := by
    obtain ⟨hne, x, hx, heq⟩ := h.folding.values_merge hread
    obtain ⟨x, rfl, c, hc, hdef⟩ := h.exists_source heq (h.defines_of_merge hb hv)
    exact (h.instFunc_eq hne).trans (he.values i c hc x hdef hx)
  opens c vs hvs b hb v hv hmem := by
    obtain ⟨vs, hopen, rfl⟩ := mem_map.mp hvs
    obtain ⟨x, hx, heq⟩ := mem_map.mp hmem
    obtain ⟨x, rfl, d, hd, hdef⟩ := h.exists_source heq (h.defines_of_merge hb hv)
    exact he.opens c vs hopen d hd x hdef hx

theorem refines : Refines f w h.merged := by
  obtain ⟨av, ha⟩ := h.run.certified
  refine .of_same h.enclosed (fun i hi => h.op_merge i ▸ hi) (fun i hi => ?_)
    (h.merges.same h.run.unique ha h.run.ends)
  rw [h.folding.inst_merge]
  split
  · rfl
  · split
    · exact hi
    · exact hi

end Joining

end View

end Midlevel.Ir

namespace Midlevel.Pass

open Midlevel.Flow List
open Ir

variable {f : FuncId} {w₀ : View} {s : Workspace} {m : Module} {b succ : BlockId}
variable {E : Fault → Workspace → Prop} {t : InstId}
variable {e : EdgeId}

theorem soleSuccessor?_eq_some (h : soleSuccessor? m b = .ok (some succ)) :
    b ≠ succ ∧ ∃ t e, Build.SoleBranch m b succ t e := by
  rw [soleSuccessor?] at h
  split at h
  · cases h
  · next t ht =>
    split at h
    · cases h
    · next hop =>
      split at h
      · cases h
      · next e rest htargets =>
        split at h
        · cases h
        · next u hu =>
          have hsome := Except.ok.inj h
          split at hsome
          · cases hsome
          · next hgood =>
            obtain rfl := Option.some.inj hsome
            rw [not_or, not_or, not_not, Bool.not_eq_true] at hgood
            exact ⟨Ne.symm hgood.1, t, e, ht, not_not.mp hop, by rw [htargets]; rfl, hu,
              hgood.2.2, hgood.2.1⟩

theorem soleSuccessor?_eq_error {c : Crash} (h : soleSuccessor? m b = .error c) :
    ∃ t, m.terminator b = some t ∧ (m.insts.get t).op = .br ∧
      ((m.insts.get t).targets = [] ∨
      ∃ e ∈ (m.insts.get t).targets, (m.edges.get e).target = none) := by
  rw [soleSuccessor?] at h
  split at h
  · cases h
  · next t ht =>
    split at h
    · cases h
    · next hop =>
      refine ⟨t, ht, not_not.mp hop, ?_⟩
      split at h
      · next htargets => exact .inl htargets
      · next e rest htargets =>
        split at h
        · next hu => exact .inr ⟨e, by rw [htargets]; exact mem_cons_self, hu⟩
        · cases h

theorem eq_of_soleBranch (h : m.Linked) (hrun : m.view.Accepted f)
    (hsole : Build.SoleBranch m b succ t e)
    (ht : m.view.instFunc t = some f) {i : InstId} (hi : m.view.instFunc i = some f) {x : Exit}
    (hx : x ∈ m.view.exits i) (htarget : x.target = some succ) : i = t := by
  obtain ⟨d, hd, rfl⟩ := mem_map.mp hx
  have he : e ∈ (m.insts.get t).targets := mem_of_mem_head? (Option.mem_def.mpr hsole.edge)
  obtain ⟨only, honly⟩ := length_eq_one_iff.mp hsole.only
  have hde : d = e := by
    have hd' := hrun.mem_edges h hi hd htarget
    have he' := hrun.mem_edges h ht he hsole.target
    rw [honly, mem_singleton] at hd' he'
    exact hd'.trans he'.symm
  exact Option.some.inj ((h.target i d hd).1.symm.trans (hde ▸ (h.target t e he).1))

section

variable (h : Kept f w₀ s)
include h

theorem Kept.branch (hb : (s.view.block b).func = some f)
    (ht : s.module.terminator b = some t) (hop : (s.module.insts.get t).op = .br) :
    ∃ init e u, s.view.Closed b init t ∧ s.view.instFunc t = some f ∧
      (s.module.insts.get t).targets = [e] ∧ (s.module.edges.get e).target = some u ∧
      (s.view.block u).func = some f := by
  obtain ⟨init, hc⟩ := h.closed hb ht
  have hmem : t ∈ (s.view.block b).insts := by simp [hc.eq]
  have hfunc := (View.instFunc_of_mem h.run.shape.insts hmem).trans hb
  have hlength := h.run.exits_length hmem
  rw [show (s.view.inst t).op = .br from hop, Module.view_exits, exitsOf, length_map] at hlength
  obtain ⟨e, htargets⟩ := length_eq_one_iff.mp hlength
  obtain ⟨u, hu, hsucc, -⟩ := h.run.verified.exits t hfunc
    ⟨(s.module.edges.get e).target, s.module.operandValues (s.module.edges.get e).args⟩
    (by rw [Module.view_exits, exitsOf, htargets]; exact mem_singleton_self _)
  exact ⟨init, e, u, hc, hfunc, htargets, hu, hsucc⟩

theorem Kept.joining (hb : (s.view.block b).func = some f) (hne : b ≠ succ)
    (hsole : Build.SoleBranch s.module b succ t e) :
    ∃ (init : List InstId) (args : List Value), s.view.Joining f b succ init t args ∧
      s.module.operandValues (s.module.edges.get e).args = args.map some := by
  obtain ⟨args, hexits, hargs⟩ := hsole.passes h.run.shape h.run.verified hb
  obtain ⟨init, hc⟩ := h.closed hb hsole.terminator
  have hfunc := hsole.instFunc h.run.shape hb
  obtain ⟨_, ⟨⟩, hsucc, -⟩ := h.run.verified.exits t hfunc _ (hexits ▸ mem_singleton_self _)
  exact ⟨init, args, ⟨h.run, hb, inner_of_not_entry h.run.toAccepted hsucc hsole.entry, hne, hc,
    hsole.op, hexits,
    fun i hi x hx htarget => eq_of_soleBranch h.linked h.run.toAccepted hsole hfunc hi hx htarget⟩,
      hargs⟩

theorem wp_merge (hb : (s.module.view.block b).func = some f) (hne : b ≠ succ)
    (hsole : Build.SoleBranch s.module b succ t e) :
    wp (Transform.build (Build.mergeBlocks (some b) (some succ)))
      (fun _ s' => Kept f w₀ s' ∧ (s'.module.view.block b).func = some f) E s := by
  rw [Transform.wp_build]
  refine Build.wp_mergeBlocks h.linked (fun c i hi => h.run.shape.insts.placed i c hi)
    (fun _ hbad => ?_)
    (fun _ _ _ hbad => ?_) fun _ t e m' _ _ hsole hl hview => ?_
  · obtain ⟨init, args, hj, -⟩ := h.joining hb hne hsole
    exact absurd hsole (hbad f t e hb hj.succ)
  · rcases hbad with ⟨t', ht', -, hnil⟩ | ⟨t', e', hsole', hread | hlength⟩
    · obtain rfl := Option.mem_unique hsole.terminator ht'
      have hhead := hsole.edge
      rw [hnil] at hhead
      cases hhead
    · obtain ⟨init, args, hj, -⟩ := h.joining hb hne hsole'
      exact absurd hread (h.run.unread t' hj.closed.last)
    · obtain ⟨init, args, hj, hargs⟩ := h.joining hb hne hsole'
      have hcount := congrArg List.length hargs
      rw [length_map, hj.count, Module.operandValues, length_map] at hcount
      exact absurd hlength (by rw [hcount]; exact Nat.lt_irrefl _)
  · obtain ⟨init, args, hj, hargs⟩ := h.joining hb hne hsole
    rw [hargs] at hview
    refine ⟨⟨hl, hview ▸ hj.runnable, hview ▸ h.refines.trans hj.refines⟩, ?_⟩
    rw [hview, hj.func_merge hne, hb]

theorem wp_mergeInto (hb : (s.view.block b).func = some f) (steps : Nat) :
    wp (mergeInto b steps) (fun _ s' => Kept f w₀ s') E s := by
  induction steps generalizing s with
  | zero => exact h
  | succ steps ih =>
    rw [mergeInto, wp_bind, Transform.wp_module]
    split
    · next c hbad =>
      obtain ⟨t, ht, hop, hbad⟩ := soleSuccessor?_eq_error hbad
      obtain ⟨-, e, u, -, -, htargets, hu, -⟩ := h.branch hb ht hop
      rw [htargets] at hbad
      simp [hu] at hbad
    · exact h
    · next succ hsucc =>
      obtain ⟨hne, t, e, hsole⟩ := soleSuccessor?_eq_some hsucc
      rw [wp_bind]
      refine wp_mono (wp_merge h hb hne hsole) (fun _ s' ⟨hkept, hfunc⟩ => ?_) fun _ _ => id
      exact ih (hkept.congr rfl) hfunc

theorem wp_mergeFrom (position steps : Nat) :
    wp (mergeFrom f position steps) (fun _ s' => Kept f w₀ s') E s := by
  induction steps generalizing s position with
  | zero => exact h
  | succ steps ih =>
    rw [mergeFrom, wp_bind, Transform.wp_module]
    dsimp only
    split
    · exact h
    · next b hb =>
      rw [wp_bind]
      have hfunc := (h.run.shape.blocks.mem_iff f b).mp (mem_of_getElem? hb)
      exact wp_mono (wp_mergeInto h hfunc _) (fun _ s' hkept => ih hkept _) fun _ _ => id

theorem wp_mergeStraightLines : wp (mergeStraightLines f) (fun _ s' => Kept f w₀ s') E s := by
  exact wp_mergeFrom h _ _

end

end Midlevel.Pass
