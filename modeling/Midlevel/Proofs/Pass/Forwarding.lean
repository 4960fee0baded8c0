import Midlevel.Proofs.Pass.Branches

/-!
Blocks that only branch on. Every branch into such a block is rebuilt with the exit of the block in
place of the one that led there. A branch of another function may lead there too; then the builder
refuses sooner or later, but what it has done until then does no harm.
-/

namespace Midlevel.Ir.View

open Midlevel.Flow List
open Pass (Exit)

/-- Block `q`, an inner block of `f`, does nothing but go on, by `y`. -/
structure Forwards (w : View) (f : FuncId) (q : BlockId) (i : InstId) (y : Exit) : Prop where
  inner : q ∈ (w.func f).blocks.tail
  params : (w.block q).params = []
  insts : (w.block q).insts = [i]
  op : (w.inst i).op = .br
  exits : w.exits i = [y]

/-- An exit that leads to `q` gives way to `y`. -/
def redirect (q : BlockId) (y : Exit) (z : Exit) : Exit := if z.target = some q then y else z

variable {w : View} {f : FuncId} {q b : BlockId} {i t : InstId} {y : Exit} {x : Inst}
  {vs : Args} {exits : List Exit}

theorem eq_or_mem_of_redirect {z : Exit} (hz : z ∈ (w.exits t).map (redirect q y)) : z = y ∨
    z ∈ w.exits t := by
  obtain ⟨z', hz', rfl⟩ := mem_map.mp hz
  rw [redirect]
  split
  · exact .inl rfl
  · exact .inr hz'

theorem Forwards.func (h : w.Forwards f q i y) (hrun : w.Accepted f) : (w.block q).func = some f :=
  (hrun.shape.blocks.mem_iff f q).mp (mem_of_mem_tail h.inner)

theorem Forwards.instFunc (h : w.Forwards f q i y) (hrun : w.Accepted f) : w.instFunc i = some f :=
  (instFunc_of_mem hrun.shape.insts (by simp [h.insts])).trans (h.func hrun)

theorem Forwards.reend (h : w.Forwards f q i y) (hr : Replacing w f b t x vs exits) (hb : b ≠ q) :
    (w.reend b t x vs exits).Forwards f q i y := by
  have hmem : i ∈ (w.block q).insts := by simp [h.insts]
  have hblock : (w.reend b t x vs exits).block q = w.block q := by rw [hr.block, if_neg hb.symm]
  have hn := hr.ne_next hmem
  have ht := hr.ne_branch hb.symm hmem
  refine ⟨h.inner, hblock ▸ h.params, hblock ▸ h.insts, ?_, ?_⟩
  · rw [inst_reend, if_neg hn, if_neg ht]
    exact h.op
  · rw [exits_reend, if_neg hn, if_neg ht]
    exact h.exits

/-- The branch `t`, which leads to `q`, is rebuilt without going there. -/
structure Redirecting (w : View) (f : FuncId) (q : BlockId) (i : InstId) (y : Exit) (b : BlockId)
    (t : InstId) : Prop where
  run : w.Accepted f
  free : w.NextFree
  forwards : w.Forwards f q i y
  mem : t ∈ (w.block b).insts
  ne : b ≠ q
  leads : ∃ z ∈ w.exits t, z.target = some q

/-- What is built in place of `t`. A branch of another function may lack a condition, and then one
of its exits goes. -/
structure Redirects (w : View) (f : FuncId) (q : BlockId) (y : Exit) (b : BlockId) (t : InstId)
    (x : Inst) (vs : Args)
    (ys : List Exit) : Prop where
  emittable : Emittable x vs ys
  last : x.op.isTerminator = true
  reads : ∀ v ∈ vs, v ∈ w.reads t
  exits : ∀ z ∈ ys, z ∈ (w.exits t).map (redirect q y)
  inside : (w.block b).func = some f → x.op = (w.inst t).op ∧
    ((w.inst t).op = .condBr ∧ vs = w.reads t ∨ (w.inst t).op = .br ∧ vs = []) ∧
      ys = (w.exits t).map (redirect q y)

theorem op_of_exits {op : Opcode} (h : op.exits ≠ 0) : op = .br ∨ op = .condBr := by
  cases op <;> first | exact .inl rfl | exact .inr rfl | exact absurd rfl h

namespace Redirecting

variable (h : Redirecting w f q i y b t)

include h

theorem op : (w.inst t).op = .br ∨ (w.inst t).op = .condBr := by
  obtain ⟨z, hz, -⟩ := h.leads
  exact op_of_exits (Nat.ne_of_gt (h.run.exits_length h.mem ▸ length_pos_of_mem hz))

theorem branch : (w.inst t).op.isTerminator = true := by
  rcases h.op with hop | hop <;> rw [hop] <;> rfl

theorem exists_newEnd : ∃ x vs ys,
    NewEnd (if (w.inst t).op = .condBr then (w.reads t).head?.join else none)
    ((w.exits t).map (redirect q y)) x vs ys ∧
      Redirects w f q y b t x vs ys := by
  have hlength := h.run.exits_length h.mem
  rcases h.op with hop | hop
  · rw [hop] at hlength
    obtain ⟨z, hz⟩ := length_eq_one_iff.mp hlength
    rw [if_neg (by simp [hop]), hz]
    refine ⟨_, _, _, .br _ [], emittable_br _, rfl, by simp, by simp [hz],
      fun _ => ⟨hop.symm, .inr ⟨hop, rfl⟩, ?_⟩⟩
    rw [hz]
    rfl
  · have hcond := h.run.shape.formed.takes t (h.run.not_erased h.mem)
    rw [hop] at hcond
    obtain ⟨r, hreads⟩ := length_eq_one_iff.mp hcond
    rw [hop] at hlength
    obtain ⟨z, z', hz⟩ := length_eq_two.mp hlength
    rw [if_pos hop, hz, hreads]
    cases r with
    | some v =>
      refine ⟨_, _, _, .condBr v _ _ [], ⟨rfl, rfl, rfl, rfl⟩, rfl, by simp [hreads], by simp [hz],
        fun _ => ⟨hop.symm, .inl ⟨hop, hreads.symm⟩, ?_⟩⟩
      rw [hz]
      rfl
    | none =>
      refine ⟨_, _, _, .br _ _, emittable_br _, rfl, by simp, by simp [hz], fun hb => ?_⟩
      -- A branch of the function itself has a condition.
      have hmem : none ∈ (w.line t).values :=
        mem_append_left _ (by rw [line, hreads]; exact mem_cons_self)
      obtain ⟨u, hu, -⟩ :=
        h.run.verified.values t ((instFunc_of_mem h.run.shape.insts h.mem).trans hb) none hmem
      cases hu

/-- A branch from outside into the function shows that it is not guarded. -/
theorem not_guarded (hb : (w.block b).func ≠ some f) : ¬ w.Guarded f := by
  obtain ⟨z, hz, htarget⟩ := h.leads
  exact fun hg => hb ((instFunc_of_mem h.run.shape.insts h.mem).symm.trans
    (hg.branches t z hz q h.forwards.inner htarget))

variable (hx : Redirects w f q y b t x vs exits)

include hx

theorem replacing : Replacing w f b t x vs exits where
  run := h.run
  mem := h.mem
  branch := h.branch
  free := h.free
  emittable := hx.emittable
  last := hx.last
  values v hv := by
    rcases mem_append.mp hv with hv | hv
    · exact .inl ⟨t, hx.reads _ hv⟩
    · obtain ⟨z, hz, hv⟩ := mem_flatMap.mp hv
      rcases eq_or_mem_of_redirect (hx.exits z hz) with rfl | hz
      · exact .inr (.inl ⟨i, z, by simp [h.forwards.exits], hv⟩)
      · exact .inr (.inl ⟨t, z, hz, hv⟩)

variable (hb : (w.block b).func = some f)

include hb

theorem exits_here {z : Exit} (hz : z ∈ exits) : ∃ j, w.instFunc j = some f ∧ z ∈ w.exits j := by
  rcases eq_or_mem_of_redirect (hx.exits z hz) with rfl | hz
  · exact ⟨i, h.forwards.instFunc h.run, by simp [h.forwards.exits]⟩
  · exact ⟨t, (instFunc_of_mem h.run.shape.insts h.mem).trans hb, hz⟩

theorem rebuildable (hg : w.Guarded f) : w.Rebuildable b vs exits where
  bool v hv := by
    have ht := (instFunc_of_mem h.run.shape.insts h.mem).trans hb
    rcases (hx.inside hb).2.1 with ⟨hop, rfl⟩ | ⟨-, rfl⟩
    · exact hg.cond t ht hop v hv
    · cases hv
  takes z hz := by
    obtain ⟨j, hj, hzj⟩ := h.exits_here hx hb hz
    exact h.run.takes hb hj hzj

theorem reending : ∃ init, Reending w f b init t x vs exits := by
  obtain ⟨init, t', hc⟩ := h.run.verified.closed b hb
  obtain rfl : t = t' := by
    have hmem := h.mem
    rw [hc.eq, mem_append, mem_singleton] at hmem
    exact hmem.resolve_left fun hmem => nomatch (hc.init t hmem).symm.trans h.branch
  exact ⟨init, h.run, hb, hc, h.free, hx.emittable, hx.last, hx.reads,
    fun z hz => h.exits_here hx hb hz,
    fun hcond => (hx.inside hb).1 ▸ hcond⟩

theorem inside (hrun : w.Runnable f) : (w.reend b t x vs exits).Runnable f ∧
    Refines f w (w.reend b t x vs exits) := by
  obtain ⟨init, hr⟩ := h.reending hx hb
  obtain ⟨hop, hvs, hexits⟩ := hx.inside hb
  have hbypass : Bypasses (w.graph f) _ b _ (w.line t) _ q (w.line i) y :=
    { hr.reends with
      op := by
        rw [line, inst_reend, if_pos rfl]
        exact hop
      reads := by
        rw [line, reads_reend, if_pos rfl]
        exact hvs.imp_left And.right
      exits := by
        rw [line, exits_reend, if_pos rfl]
        exact hexits
      noParams := h.forwards.params
      line := by
        show (w.block q).insts.map w.line = _
        rw [h.forwards.insts]
        rfl
      br := h.forwards.op
      exit := by
        show (w.exits i).head? = _
        rw [h.forwards.exits]
        rfl }
  obtain ⟨av, ha⟩ := hrun.certified
  exact ⟨⟨hr.accepted, _, hbypass.available ha⟩, hr.replacing.refines hr.enclosed hbypass.same⟩

end Redirecting

end Midlevel.Ir.View

namespace Midlevel.Pass

open Ir List
open View (redirect)

variable {f : FuncId} {w₀ : View} {s : Workspace} {q b : BlockId} {i t : InstId} {y : Exit}
variable {Q : Unit → Workspace → Prop} {E : Fault → Workspace → Prop}
variable {x : Inst} {vs : Args} {s' : Builder} {m : Module}

theorem operandAt_zero (m : Module) (t : InstId) :
    m.operandAt t 0 = (m.view.reads t).head?.join := by
  show _ = (((m.insts.get t).operands.map m.operandValue).head?).join
  rw [List.head?_map, List.head?_eq_getElem?, Module.operandAt]
  cases (m.insts.get t).operands[0]? <;> rfl

/-- The source of an edge into `q`, unless it is the branch of `q` itself, is rebuilt. -/
theorem wp_redirect (h : s.module.Linked) (hrun : s.module.view.Accepted f)
    (hq : s.module.view.Forwards f q i y)
    {e : EdgeId} (he : e ∈ (s.module.blocks.get q).edges)
    (hsource : (s.module.edges.get e).source = some t)
    (hne : (s.module.insts.get t).block ≠ some q) (hE : ∀ e s', ¬ s.module.view.Guarded f → E e s')
    (k : ∀ s' b x vs exits, s.module.view.Redirecting f q i y b t →
      s.module.view.Redirects f q y b t x vs exits →
      s'.module.Linked → s'.module.view = s.module.view.reend b t x vs exits →
      Q () { s with builder := s' }) :
    wp (Transform.build (rebuildBranch t
        (if (s.module.insts.get t).op = .condBr then s.module.operandAt t 0 else none)
        ((exitsOf s.module t).map (redirect q y)))) Q E s := by
  obtain ⟨htarget, hedge⟩ := h.incoming q e he
  have hleads : ∃ z ∈ s.module.view.exits t, z.target = some q :=
    ⟨_, mem_map_of_mem (hedge t hsource), htarget⟩
  rw [Transform.wp_build]
  by_cases hmem : ∃ b, t ∈ (s.module.view.block b).insts
  · obtain ⟨b, hmem⟩ := hmem
    have hb : b ≠ q := by
      rintro rfl
      exact hne (hrun.shape.insts.placed t b hmem)
    have hr : s.module.view.Redirecting f q i y b t := ⟨hrun, View.nextFree h, hq, hmem, hb, hleads⟩
    obtain ⟨x, vs, exits, hnew, hx⟩ := hr.exists_newEnd
    rw [← Module.view_exits, operandAt_zero]
    refine wp_rebuild h (hr.replacing hx) hnew (fun _ _ hbad => hE _ _ fun hg => hbad ?_) fun s' =>
      k s' b x vs exits hr hx
    exact hr.rebuildable hx (by_contra fun hout => hr.not_guarded hout hg) hg
  · have hbad : ¬ s.module.view.Guarded f := fun hg => by
      obtain ⟨z, hz, htarget⟩ := hleads
      obtain ⟨b, hb, -⟩ := hrun.exists_mem (hg.branches t z hz q hq.inner htarget)
      exact hmem ⟨b, hb⟩
    rw [rebuildBranch, wp_bind, Build.wp_inst, wp_bind]
    cases hc : (s.module.insts.get t).block with
    | none => exact hE _ _ hbad
    | some c =>
      exact Build.wp_eraseFrom h (fun _ _ => hE _ _ hbad) (fun _ _ _ => hE _ _ hbad) fun _ hb =>
        absurd ⟨c, hb⟩ hmem

/-- What is true of every step is true at the end. The loop stops early if no edge is left, or where
the first one is not of a branch elsewhere. -/
theorem wp_redirectInto {I : Nat → Workspace → Prop}
    (hstep : ∀ n s e t, I (n + 1) s → e ∈ (s.module.blocks.get q).edges →
      (s.module.edges.get e).source = some t →
      (s.module.insts.get t).block ≠ some q → wp (Transform.build (rebuildBranch t
        (if (s.module.insts.get t).op = .condBr then s.module.operandAt t 0 else none)
        ((exitsOf s.module t).map (redirect q y)))) (fun _ => I n) E s)
    (hstop : ∀ n s, I n s → (n ≠ 0 → ∀ e ∈ (s.module.blocks.get q).edges,
      ∃ e ∈ (s.module.blocks.get q).edges, ∀ t, (s.module.edges.get e).source = some t →
        (s.module.insts.get t).block = some q) → Q () s)
    (steps : Nat) (hs : I steps s) : wp (redirectInto q y steps) Q E s := by
  induction steps generalizing s with
  | zero => exact hstop 0 s hs (absurd rfl)
  | succ steps ih =>
    rw [redirectInto, wp_bind, Transform.wp_module]
    split
    · next hedges => exact hstop _ s hs fun _ e he => absurd he (by simp [hedges])
    next e es hedges =>
    have he : e ∈ (s.module.blocks.get q).edges := by simp [hedges]
    split
    · next hsource =>
        exact hstop _ s hs fun _ _ _ => ⟨e, he, fun t ht => nomatch hsource.symm.trans ht⟩
    next t hsource =>
    rw [wp_ite]
    refine ⟨fun hne => ?_, fun heq => hstop _ s hs fun _ _ _ => ⟨e, he, fun t' ht' => ?_⟩⟩
    · exact wp_seq (hstep steps s e t hs he hsource hne) fun _ _ hs' => ih hs'
    · obtain rfl := Option.mem_unique hsource ht'
      exact not_not.mp heq

theorem Kept.redirected (h : Kept f w₀ s) {exits : List Exit}
    (hr : s.module.view.Redirecting f q i y b t)
    (hx : s.module.view.Redirects f q y b t x vs exits) (hl : s'.module.Linked)
    (hview : s'.module.view = s.module.view.reend b t x vs exits) :
    Kept f w₀ { s with builder := s' } := by
  have hreplace := hr.replacing hx
  obtain ⟨hrun, hrefines⟩ : (s.module.view.reend b t x vs exits).Runnable f ∧
      View.Refines f s.module.view (s.module.view.reend b t x vs exits) := by
    by_cases hb : (s.module.view.block b).func = some f
    · exact hr.inside hx hb h.run
    · exact ⟨hreplace.runnable_of_outside h.run hb,
        hreplace.refines (fun he => absurd he.guarded (hr.not_guarded hb))
          (hreplace.agreeOnReachable hb).same⟩
  exact ⟨hl, hview ▸ hrun, hview ▸ h.refines.trans hrefines⟩

theorem forwarding?_eq_some (h : forwarding? m b = .ok (some i)) :
    m.isEntry b = false ∧ (m.blocks.get b).params = [] ∧ (m.blocks.get b).insts = [i] ∧
    (m.insts.get i).op = .br ∧
      ((exitsOf m i).head?.bind Exit.target) ≠ some b := by
  rw [forwarding?] at h
  split at h
  · next j hentry hparams hinsts =>
    split at h
    · cases h
    · next hop =>
      split at h
      · cases h
      · next e es htargets =>
        split at h
        · cases h
        · next htarget =>
          obtain rfl := Option.some.inj (Except.ok.inj h)
          refine ⟨hentry, hparams, hinsts, not_not.mp hop, ?_⟩
          rw [exitsOf, htargets]
          exact htarget
  · cases h

theorem forwarding?_eq_error {c : Crash} (h : forwarding? m b = .error c) :
    ∃ i, (m.blocks.get b).insts = [i] ∧ (m.insts.get i).op = .br ∧
    (m.insts.get i).targets = [] := by
  rw [forwarding?] at h
  split at h
  · next j _ _ hinsts =>
    split at h
    · cases h
    · next hop =>
      split at h
      · next htargets => exact ⟨j, hinsts, not_not.mp hop, htargets⟩
      · cases h
  · cases h

theorem inner_of_not_entry (h : m.view.Accepted f) (hb : (m.view.block b).func = some f)
    (hentry : m.isEntry b = false) : b ∈ (m.view.func f).blocks.tail := by
  refine h.inner hb fun heq => ?_
  have hhead : (m.funcs.get f).blocks.head? = some b :=
    (congrArg List.head? h.blocks_eq).trans (congrArg some heq.symm)
  rw [Module.isEntry, show (m.blocks.get b).func = some f from hb] at hentry
  simp [hhead] at hentry

theorem wp_bypass (h : s.view.Accepted f) (hb : (s.view.block b).func = some f)
    (hnone : forwarding? s.module b = .ok none → Q () s)
    (k : ∀ i y, s.view.Forwards f b i y → y.target ≠ some b →
      wp (redirectInto b y ((s.module.blocks.get b).edges.length + 1)) Q E s) :
      wp (bypass b) Q E s := by
  have hlength {i : InstId} (hinsts : (s.module.blocks.get b).insts = [i])
      (hop : (s.view.inst i).op = .br) : (s.view.exits i).length = 1 := by
    have hmem : i ∈ (s.module.blocks.get b).insts := hinsts ▸ mem_singleton_self i
    have hlength := h.exits_length hmem
    rwa [hop] at hlength
  rw [bypass, wp_bind, Transform.wp_module]
  split
  · next c hforward =>
    obtain ⟨i, hinsts, hop, htargets⟩ := forwarding?_eq_error hforward
    have hone := hlength hinsts hop
    rw [Module.view_exits, exitsOf, htargets] at hone
    cases hone
  · next hforward => exact hnone hforward
  · next i hforward =>
    obtain ⟨hentry, hparams, hinsts, hop, htarget⟩ := forwarding?_eq_some hforward
    obtain ⟨y, hy⟩ := length_eq_one_iff.mp (hlength hinsts hop)
    rw [← Module.view_exits, hy] at htarget ⊢
    exact k i y ⟨inner_of_not_entry h hb hentry, hparams, hinsts, hop, hy⟩ htarget

theorem wp_bypassForwardingBlocks (h : Kept f w₀ s) :
    wp (bypassForwardingBlocks f) (fun _ s' => Kept f w₀ s') (fun _ _ => ¬ w₀.Enclosed f) s := by
  refine wp_forM_of_each (fun t => Kept f w₀ t ∧ t.module.view.func = s.module.view.func)
    (fun b hb t ht => ?_) ⟨h, rfl⟩ fun t ht => ht.1
  have hfunc : (t.module.view.block b).func = some f := by
    rw [← ht.1.run.shape.blocks.mem_iff, ht.2]
    exact hb
  refine wp_bypass ht.1.run.toAccepted hfunc (fun _ => ht) fun i y hq _ => ?_
  refine wp_redirectInto (I := fun _ u => Kept f w₀ u ∧ u.module.view.Forwards f b i y ∧
    u.module.view.func = s.module.view.func) (fun _ u e j hu he hsource hne => ?_) (fun _ _ hu _ =>
      ⟨hu.1, hu.2.2⟩) _
    ⟨ht.1, hq, ht.2⟩
  refine wp_redirect hu.1.linked hu.1.run.toAccepted hu.2.1 he hsource hne
    (fun _ _ hbad h₀ => hbad (hu.1.refines.enclosed h₀).guarded)
      fun s' c x vs exits hr hx hl hview => ?_
  refine ⟨hu.1.redirected hr hx hl hview, ?_, ?_⟩
  · exact hview ▸ hu.2.1.reend (hr.replacing hx) hr.ne
  · exact (congrArg View.func hview).trans hu.2.2

end Midlevel.Pass
