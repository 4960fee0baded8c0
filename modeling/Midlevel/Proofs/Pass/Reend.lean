import Midlevel.Proofs.Pass.Runnable

/-!
Another end for a block. A branch is erased and one that is built anew takes its place, with exits
that branches of the function had before. This is the step that folding and bypassing are made of.
-/

namespace Midlevel.Ir.View

open Midlevel.Flow List
open Function (update update_apply)
open Pass (Exit)

/-- Instruction `t` at the end of block `b` gives way to a new one. -/
def reend (w : View) (b : BlockId) (t : InstId) (x : Inst) (vs : Args) (exits : List Exit) :
    View :=
  (w.discard t).emit x vs exits b none

theorem emittable_br (y : Exit) : Emittable { op := .br, type := .void } [] [y] :=
  ⟨rfl, rfl, rfl, trivial⟩

section Reend

variable {w : View} {b : BlockId} {t : InstId} {x : Inst}
  {vs : Args} {exits : List Exit}

theorem reads_reend (j : InstId) : (w.reend b t x vs exits).reads j =
      if j = w.nextInst then vs else if j = t then [] else w.reads j := by
  show update (update w.reads t []) w.nextInst vs j = _
  rw [update_apply, update_apply]

theorem exits_reend (j : InstId) : (w.reend b t x vs exits).exits j =
      if j = w.nextInst then exits else if j = t then [] else w.exits j := by
  show update (update w.exits t []) w.nextInst exits j = _
  rw [update_apply, update_apply]

theorem entered_reend (j : InstId) : (w.reend b t x vs exits).entered j ↔ j = t ∨ w.entered j := by
  show update w.entered t True j ↔ _
  rw [update_apply]
  split <;> simp_all

theorem inst_reend (j : InstId) : (w.reend b t x vs exits).inst j =
      if j = w.nextInst then { x with block := some b, erased := false }
      else if j = t then { w.inst j with block := none, erased := true } else w.inst j := by
  rw [reend, emit, inst_place]
  show (if j = w.nextInst then { (update (w.discard t).inst w.nextInst x) j with block := some b,
                                                                                 erased := false }
    else update (w.discard t).inst w.nextInst x j : Inst) = _
  rw [update_apply, inst_discard]
  split <;> rfl

theorem block_reend (hp : w.InstsPlaced) (ht : t ∈ (w.block b).insts) (c : BlockId) :
    (w.reend b t x vs exits).block c =
      if c = b then { w.block c with insts := (w.block c).insts.filter (· ≠ t) ++ [w.nextInst] }
      else w.block c := by
  rw [reend, emit, block_place]
  show (if c = b then { (w.discard t).block c with
    insts := Build.insertBefore w.nextInst none ((w.discard t).block c).insts }
    else (w.discard t).block c : Block) = _
  rw [block_discard (hp.placed t)]
  split
  · rfl
  · next hcb =>
    have hself : (w.block c).insts.filter (· ≠ t) = (w.block c).insts := by
      refine filter_eq_self.mpr fun i hi => decide_eq_true ?_
      rintro rfl
      exact hcb (Option.mem_unique (hp.placed i c hi) (hp.placed i b ht))
    rw [hself]

theorem line_reend {i : InstId} (hn : i ≠ w.nextInst) (ht : i ≠ t) :
    (w.reend b t x vs exits).line i = w.line i := by
  rw [line, line, inst_reend, reads_reend, exits_reend]
  simp only [if_neg hn, if_neg ht]

theorem valueType_reend {v : Value} (hv : v ≠ .inst w.nextInst) :
    (w.reend b t x vs exits).valueType v = w.valueType v := by
  cases v with
  | inst j =>
    show ((w.reend b t x vs exits).inst j).type = (w.inst j).type
    rw [inst_reend, if_neg fun hj => hv (congrArg Value.inst hj)]
    split <;> rfl
  | param p => rfl
  | func g => rfl
  | global g => rfl

end Reend

/-- A branch `t` of block `b` gives way to a new one, which reads nothing that was not read
before. -/
structure Replacing (w : View) (f : FuncId) (b : BlockId) (t : InstId) (x : Inst)
    (vs : Args) (exits : List Exit) : Prop where
  run : w.Accepted f
  mem : t ∈ (w.block b).insts
  branch : (w.inst t).op.isTerminator = true
  free : w.NextFree
  emittable : Emittable x vs exits
  last : x.op.isTerminator = true
  values : ∀ v, some v ∈ vs ++ exits.flatMap Exit.args → w.Reads v

namespace Replacing

variable {w : View} {f : FuncId} {b : BlockId} {t : InstId} {x : Inst} {vs : Args}
  {exits : List Exit} (h : Replacing w f b t x vs exits)
variable {c : BlockId} {i : InstId}
variable {v : Value}

abbrev result (_ : Replacing w f b t x vs exits) : View := w.reend b t x vs exits

include h

theorem placed : (w.inst t).block = some b := h.run.shape.insts.placed t b h.mem

theorem ne_next (hi : i ∈ (w.block c).insts) : i ≠ w.nextInst := by
  rintro rfl
  exact nomatch h.free.block.symm.trans (h.run.shape.insts.placed _ c hi)

theorem ne_branch (hc : c ≠ b) (hi : i ∈ (w.block c).insts) : i ≠ t := by
  rintro rfl
  exact hc (Option.mem_unique (h.run.shape.insts.placed i c hi) h.placed)

theorem block (c : BlockId) : h.result.block c =
    if c = b then { w.block c with insts := (w.block c).insts.filter (· ≠ t) ++ [w.nextInst] }
    else w.block c :=
  block_reend h.run.shape.insts h.mem c

theorem blockFunc (c : BlockId) : (h.result.block c).func = (w.block c).func := by
  rw [h.block]
  split <;> rfl

theorem blockParams (c : BlockId) : (h.result.block c).params = (w.block c).params := by
  rw [h.block]
  split <;> rfl

theorem lines_of_ne (hc : c ≠ b) : (h.result.graph f).lines c = (w.graph f).lines c := by
  show (h.result.block c).insts.map _ = (w.block c).insts.map _
  rw [h.block, if_neg hc]
  exact map_congr_left fun i hi => line_reend (h.ne_next hi) (h.ne_branch hc hi)

theorem closed_of_ne {init : List InstId} {t' : InstId} (hcb : c ≠ b) (hc : w.Closed c init t') :
    h.result.Closed c init t' := by
  have hinst : ∀ i ∈ (w.block c).insts, h.result.inst i = w.inst i := fun i hi => by
    rw [inst_reend, if_neg (h.ne_next hi), if_neg (h.ne_branch hcb hi)]
  refine ⟨by rw [h.block, if_neg hcb, hc.eq], fun i hi => ?_, ?_⟩
  · rw [hinst i (by simp [hc.eq, hi])]
    exact hc.init i hi
  · rw [hinst t' (by simp [hc.eq])]
    exact hc.last

/-! ### Instructions -/

theorem instFunc_eq (hn : i ≠ w.nextInst) (ht : i ≠ t) : h.result.instFunc i = w.instFunc i := by
  rw [instFunc, inst_reend, if_neg hn, if_neg ht]
  exact Option.bind_congr fun c _ => h.blockFunc c

theorem instFunc_next : h.result.instFunc w.nextInst = (w.block b).func := by
  rw [instFunc, inst_reend, if_pos rfl]
  exact h.blockFunc b

theorem instFunc_gone : h.result.instFunc t = none := by
  rw [instFunc, inst_reend, if_neg (h.ne_next h.mem), if_pos rfl]
  rfl

theorem eq_next_or_old {g : FuncId} (hi : h.result.instFunc i = some g) :
    i = w.nextInst ∧ (w.block b).func = some g ∨
    (i ≠ w.nextInst ∧ i ≠ t ∧ w.instFunc i = some g) := by
  by_cases hn : i = w.nextInst
  · exact .inl ⟨hn, h.instFunc_next.symm.trans (hn ▸ hi)⟩
  · have ht : i ≠ t := by
      rintro rfl
      exact nomatch h.instFunc_gone.symm.trans hi
    exact .inr ⟨hn, ht, (h.instFunc_eq hn ht).symm.trans hi⟩

theorem values_old {v : Option Value} (hn : i ≠ w.nextInst)
    (hv : v ∈ (h.result.line i).values) : i ≠ t ∧ v ∈ (w.line i).values := by
  have ht : i ≠ t := by
    rintro rfl
    rw [Flow.Line.values, line, reads_reend, exits_reend] at hv
    simp [hn] at hv
  exact ⟨ht, line_reend hn ht ▸ hv⟩

theorem reads_of_line (hv : some v ∈ (h.result.line i).values) : w.Reads v := by
  by_cases hn : i = w.nextInst
  · rw [line, reads_reend, exits_reend, if_pos hn, if_pos hn] at hv
    exact h.values v hv
  · exact mem_reads (h.values_old hn hv).2

theorem reads_of_reads (hv : h.result.Reads v) : w.Reads v := by
  rcases hv with ⟨i, hv⟩ | ⟨i, y, hy, hv⟩ | hopen
  · exact h.reads_of_line (mem_append_left _ hv)
  · exact h.reads_of_line (mem_append_right _ (mem_flatMap.mpr ⟨y, hy, hv⟩))
  · exact .inr (.inr hopen)

theorem ne_of_reads (hv : w.Reads v) : v ≠ .inst w.nextInst := by
  rintro rfl
  exact h.free.unread hv

theorem live {u : Value} (hr : w.Reads u)
    (hu : ∀ j, u = .inst j → (w.inst j).erased = false ∧ w.instFunc j = some f) (j : InstId)
    (hj : u = .inst j) : (h.result.inst j).erased = false ∧ h.result.instFunc j = some f := by
  subst hj
  have hn : j ≠ w.nextInst := fun he => h.ne_of_reads hr (congrArg Value.inst he)
  have ht : j ≠ t := by
    rintro rfl
    exact h.run.unread j h.branch hr
  rw [h.instFunc_eq hn ht, inst_reend, if_neg hn, if_neg ht]
  exact hu j rfl

/-! ### What is kept -/

theorem loose_next : ((w.discard t).inst w.nextInst).block = none := by
  rw [inst_discard, if_neg (h.ne_next h.mem).symm]
  exact h.free.block

theorem shape : h.result.Shape := (h.run.shape.discard t).emit h.loose_next h.emittable b none

theorem ended : h.result.Ended := by
  have hadmits := h.run.ended.admits_discard h.run.shape h.placed h.branch x.op
  exact (h.run.ended.discard h.run.shape t).emit (h.run.shape.discard t) h.loose_next
    h.emittable hadmits

theorem unread (i : InstId) (hi : (h.result.inst i).op.isTerminator = true) :
    ¬ h.result.Reads (.inst i) := by
  intro hr
  have hold := h.reads_of_reads hr
  rw [inst_reend] at hi
  split at hi
  · next hn => exact h.free.unread (hn ▸ hold)
  · refine h.run.unread i ?_ hold
    split at hi <;> exact hi

theorem refines (henclosed : w.Enclosed f → h.result.Enclosed f)
    (hsame : Same nothing (w.graph f) (h.result.graph f)) : Refines f w h.result := by
  refine .of_same henclosed (fun i hi => ?_) (fun i hi => ?_) hsame
  · rw [inst_reend] at hi
    split at hi
    · exact nomatch (congrArg Opcode.isTerminator hi).symm.trans h.last
    · split at hi <;> exact hi
  · rw [inst_reend]
    split
    · next hn =>
      rw [hn, h.free.erased] at hi
      cases hi
    · split
      · rfl
      · exact hi

theorem verified_of (hclosed : (w.block b).func = some f → ∃ init t', h.result.Closed b init t')
    (hvalues : (w.block b).func = some f → ∀ v ∈ (h.result.line w.nextInst).values,
      ∃ i, w.instFunc i = some f ∧ v ∈ (w.line i).values)
    (hexits : (w.block b).func = some f → ∀ y ∈ exits, ∃ i, w.instFunc i = some f ∧ y ∈ w.exits i) :
    h.result.Verified f where
  nonempty := h.run.verified.nonempty
  closed c hc := by
    have hfunc := (h.blockFunc c).symm.trans hc
    by_cases hcb : c = b
    · subst hcb
      exact hclosed hfunc
    · obtain ⟨init, t', hc'⟩ := h.run.verified.closed c hfunc
      exact ⟨init, t', h.closed_of_ne hcb hc'⟩
  values i hi v hv := by
    obtain ⟨j, hj, hvj⟩ : ∃ j, w.instFunc j = some f ∧ v ∈ (w.line j).values := by
      rcases h.eq_next_or_old hi with ⟨rfl, hfunc⟩ | ⟨hn, -, hi⟩
      · exact hvalues hfunc v hv
      · exact ⟨i, hi, (h.values_old hn hv).2⟩
    obtain ⟨u, rfl, hu⟩ := h.run.verified.values j hj v hvj
    exact ⟨u, rfl, h.live (mem_reads hvj) hu⟩
  exits i hi y hy := by
    obtain ⟨j, hj, hyj⟩ : ∃ j, w.instFunc j = some f ∧ y ∈ w.exits j := by
      rw [exits_reend] at hy
      rcases h.eq_next_or_old hi with ⟨hn, hfunc⟩ | ⟨hn, ht, hi⟩
      · rw [if_pos hn] at hy
        exact hexits hfunc y hy
      · rw [if_neg hn, if_neg ht] at hy
        exact ⟨i, hi, hy⟩
    obtain ⟨c, htarget, hfunc, haccepts⟩ := h.run.verified.exits j hj y hyj
    refine ⟨c, htarget, (h.blockFunc c).trans hfunc,
      haccepts.congr (h.blockParams c) rfl fun v hv => ?_⟩
    exact valueType_reend (h.ne_of_reads (.inr (.inl ⟨j, y, hyj, hv⟩)))
  entered i hi := by
    rw [entered_reend]
    rcases h.eq_next_or_old hi with ⟨rfl, -⟩ | ⟨-, -, hi⟩
    · exact .inr h.free.entered
    · exact .inr (h.run.verified.entered i hi)
  opens := h.run.verified.opens

/-! ### Branches of other functions -/

theorem agreeOnReachable (hb : (w.block b).func ≠ some f) :
    AgreeOnReachable (w.graph f) (h.result.graph f) := by
  refine ⟨rfl, fun c _ => h.blockParams c, fun c hc => h.lines_of_ne ?_⟩
  rintro rfl
  exact hb (h.run.func_of_reachable hc)

theorem runnable_of_outside (hrun : w.Runnable f) (hb : (w.block b).func ≠ some f) :
    h.result.Runnable f := by
  obtain ⟨av, ha⟩ := hrun.certified
  exact ⟨⟨h.shape, h.ended, h.unread, h.verified_of (absurd · hb) (absurd · hb) (absurd · hb)⟩, _,
    (h.agreeOnReachable hb).available ha⟩

end Replacing

/-- What the new end of a block may be: it reads what the old one did, and leads where branches of
the function lead. -/
structure Reending (w : View) (f : FuncId) (b : BlockId) (init : List InstId)
    (t : InstId) (x : Inst)
    (vs : Args) (exits : List Exit) : Prop where
  run : w.Accepted f
  func : (w.block b).func = some f
  closed : w.Closed b init t
  free : w.NextFree
  emittable : Emittable x vs exits
  last : x.op.isTerminator = true
  reads : ∀ v ∈ vs, v ∈ w.reads t
  exits : ∀ y ∈ exits, ∃ i, w.instFunc i = some f ∧ y ∈ w.exits i
  cond : x.op = .condBr → (w.inst t).op = .condBr

namespace Reending

variable {w : View} {f : FuncId} {b : BlockId} {init : List InstId} {t : InstId} {x : Inst}
  {vs : Args} {exits : List Exit} (h : Reending w f b init t x vs exits)

include h

theorem replacing : Replacing w f b t x vs exits where
  run := h.run
  mem := by simp [h.closed.eq]
  branch := h.closed.last
  free := h.free
  emittable := h.emittable
  last := h.last
  values v hv := by
    rcases mem_append.mp hv with hv | hv
    · exact .inl ⟨t, h.reads _ hv⟩
    · obtain ⟨y, hy, hv⟩ := mem_flatMap.mp hv
      obtain ⟨i, -, hyi⟩ := h.exits y hy
      exact .inr (.inl ⟨i, y, hyi, hv⟩)

theorem instFunc_last : w.instFunc t = some f :=
  (instFunc_of_mem h.run.shape.insts h.replacing.mem).trans h.func

theorem insts : (w.block b).insts.filter (· ≠ t) = init := by
  have hnodup := h.run.shape.insts.nodup b
  rw [h.closed.eq] at hnodup ⊢
  rw [filter_append, filter_eq_self.mpr, filter_cons_of_neg (by simp), filter_nil, append_nil]
  intro i hi
  simpa using (nodup_append.mp hnodup).2.2 i hi t mem_cons_self

theorem of_mem_init {i : InstId} (hi : i ∈ init) : i ≠ w.nextInst ∧ i ≠ t := by
  rw [← h.insts, mem_filter, decide_eq_true_eq] at hi
  exact ⟨h.replacing.ne_next hi.1, hi.2⟩

theorem closed_reend : (w.reend b t x vs exits).Closed b init w.nextInst where
  eq := by
    rw [h.replacing.block, if_pos rfl]
    exact congrArg (· ++ _) h.insts
  init i hi := by
    obtain ⟨hn, ht⟩ := h.of_mem_init hi
    rw [inst_reend, if_neg hn, if_neg ht]
    exact h.closed.init i hi
  last := by
    rw [inst_reend, if_pos rfl]
    exact h.last

theorem reends : Reends (w.graph f) ((w.reend b t x vs exits).graph f) b
    (init.map w.line) (w.line t)
    ((w.reend b t x vs exits).line w.nextInst) where
  entry := rfl
  params := funext h.replacing.blockParams
  others _ := h.replacing.lines_of_ne
  before := h.closed.ending f
  after := by
    have hinit : init.map (w.reend b t x vs exits).line = init.map w.line :=
      map_congr_left fun i hi => line_reend (h.of_mem_init hi).1 (h.of_mem_init hi).2
    exact hinit ▸ h.closed_reend.ending f

theorem values_next {v : Option Value}
    (hv : v ∈ ((w.reend b t x vs exits).line w.nextInst).values) :
    ∃ i, w.instFunc i = some f ∧ v ∈ (w.line i).values := by
  rcases mem_append.mp hv with hv | hv
  · rw [line, reads_reend, if_pos rfl] at hv
    exact ⟨t, h.instFunc_last, mem_append_left _ (h.reads v hv)⟩
  · rw [line, exits_reend, if_pos rfl] at hv
    obtain ⟨y, hy, hv⟩ := mem_flatMap.mp hv
    obtain ⟨i, hi, hyi⟩ := h.exits y hy
    exact ⟨i, hi, mem_append_right _ (mem_flatMap.mpr ⟨y, hyi, hv⟩)⟩

theorem verified : (w.reend b t x vs exits).Verified f :=
  h.replacing.verified_of (fun _ => ⟨_, _, h.closed_reend⟩) (fun _ _ => h.values_next) fun _ =>
    h.exits

theorem accepted : (w.reend b t x vs exits).Accepted f :=
  ⟨h.replacing.shape, h.replacing.ended, h.replacing.unread, h.verified⟩

theorem defines_of_reads {c : BlockId} {v : Value} (hv : (w.reend b t x vs exits).Defines c v)
    (hr : w.Reads v) : w.Defines c v := by
  rcases hv with ⟨p, hp, rfl⟩ | ⟨i, hi, rfl⟩
  · exact .inl ⟨p, h.replacing.blockParams c ▸ hp, rfl⟩
  · refine .inr ⟨i, ?_, rfl⟩
    rw [h.replacing.block] at hi
    split at hi
    · rcases mem_append.mp hi with hi | hi
      · exact (mem_filter.mp hi).1
      · obtain rfl := mem_singleton.mp hi
        exact absurd hr h.free.unread
    · exact hi

theorem guarded (hg : w.Guarded f) : (w.reend b t x vs exits).Guarded f where
  cond i hi hop v hv := by
    have hr : (w.reend b t x vs exits).Reads v := .inl ⟨i, hv⟩
    rw [valueType_reend (h.replacing.ne_of_reads (h.replacing.reads_of_reads hr))]
    rw [inst_reend] at hop
    rw [reads_reend] at hv
    rcases h.replacing.eq_next_or_old hi with ⟨hn, -⟩ | ⟨hn, ht, hi⟩
    · rw [if_pos hn] at hop hv
      exact hg.cond t h.instFunc_last (h.cond hop) v (h.reads _ hv)
    · rw [if_neg hn, if_neg ht] at hop hv
      exact hg.cond i hi hop v hv
  branches i y hy c hc htarget := by
    rw [exits_reend] at hy
    split at hy
    · next hn => exact hn ▸ h.replacing.instFunc_next.trans h.func
    · next hn =>
      split at hy
      · cases hy
      · next ht => exact (h.replacing.instFunc_eq hn ht).trans (hg.branches i y hy c hc htarget)

theorem enclosed (he : w.Enclosed f) : (w.reend b t x vs exits).Enclosed f where
  cond := (h.guarded he.guarded).cond
  branches := (h.guarded he.guarded).branches
  values i c hc v hdef hv := by
    by_cases hn : i = w.nextInst
    · exact hn ▸ h.replacing.instFunc_next.trans h.func
    obtain ⟨ht, hold⟩ := h.replacing.values_old hn hv
    have hi := he.values i c hc v (h.defines_of_reads hdef (mem_reads hold)) hold
    exact (h.replacing.instFunc_eq hn ht).trans hi
  opens d args hargs c hc v hdef hv :=
    he.opens d args hargs c hc v (h.defines_of_reads hdef (.inr (.inr ⟨d, args, hargs, hv⟩))) hv

end Reending

end Midlevel.Ir.View
