import Midlevel.Proofs.Pass.ControlFlow

/-!
Bypassing gets through, and leaves no way into a block that only branches on. What bounds its steps
is the number of branches that lead there: each step rebuilds one of them, with exits that do not
lead there. A branch from outside of the function, or a condition that is no boolean, would stop it.
-/

namespace Midlevel.Pass

open Ir
open List hiding after

variable {f : FuncId} {w₀ : View} {q b : BlockId} {i t : InstId} {y : Exit} {n : Nat}
  {s : Workspace}

/-- Nothing stands in the way of the bypass of `f`, and its blocks are those it started with. -/
structure Passable (f : FuncId) (w₀ : View) (s : Workspace) : Prop where
  linked : s.builder.module.Linked
  run : s.builder.module.view.Accepted f
  guarded : s.builder.module.view.Guarded f
  func : s.builder.module.view.func = w₀.func

/-- Branches are led past `q`, and fewer than `n` are left that go there. -/
structure Draining (f : FuncId) (w₀ : View) (q : BlockId) (i : InstId) (y : Exit) (n : Nat)
    (s : Workspace) : Prop
    extends Passable f w₀ s where
  forwards : s.builder.module.view.Forwards f q i y
  left : ∃ ts : List InstId, ts.length < n ∧
    ∀ t, ∀ z ∈ s.builder.module.view.exits t, z.target = some q → t ∈ ts

theorem Passable.draining (h : Passable f w₀ s) (hq : s.view.Forwards f q i y) :
    Draining f w₀ q i y ((s.module.blocks.get q).edges.length + 1) s := by
  refine ⟨h, hq, (s.module.blocks.get q).edges.filterMap fun e => (s.module.edges.get e).source,
    Nat.lt_succ_of_le (length_filterMap_le ..), fun t z hz htarget => ?_⟩
  have ht := h.guarded.branches t z hz q hq.inner htarget
  obtain ⟨e, he, rfl⟩ := mem_map.mp hz
  exact mem_filterMap.mpr ⟨e, h.run.mem_edges h.linked ht he htarget, (h.linked.target t e he).1⟩

theorem Draining.redirected (h : Draining f w₀ q i y (n + 1) s) (hy : y.target ≠ some q)
    {x : Inst} {vs : Args}
    {exits : List Exit} (hr : s.module.view.Redirecting f q i y b t)
    (hx : s.module.view.Redirects f q y b t x vs exits) {s' : Builder} (hl : s'.module.Linked)
    (hview : s'.module.view = s.module.view.reend b t x vs exits) :
    Draining f w₀ q i y n { s with builder := s' } := by
  have hb : (s.module.view.block b).func = some f := by_contra fun hb => hr.not_guarded hb h.guarded
  obtain ⟨init, hreend⟩ := hr.reending hx hb
  obtain ⟨ts, hlength, hts⟩ := h.left
  obtain ⟨z, hz, htarget⟩ := hr.leads
  have ht : t ∈ ts := hts t z hz htarget
  refine ⟨⟨hl, hview ▸ hreend.accepted, hview ▸ hreend.guarded h.guarded, ?_⟩, ?_, ts.erase t, ?_,
    fun u z hz htarget => ?_⟩
  · exact (congrArg View.func hview).trans h.func
  · exact hview ▸ hr.forwards.reend hreend.replacing hr.ne
  · rw [length_erase_of_mem ht]
    have := length_pos_of_mem ht
    omega
  · rw [hview, View.exits_reend] at hz
    split at hz
    · -- The new branch leads where the old one did, but for `q`.
      obtain ⟨z', -, rfl⟩ := mem_map.mp (hx.exits z hz)
      rw [View.redirect] at htarget
      split at htarget
      · exact absurd htarget hy
      · next hne => exact absurd htarget hne
    · split at hz
      · cases hz
      · next hut => exact (mem_erase_of_ne hut).mpr (hts u z hz htarget)

/-- The loop does not stop early: an edge that it could not treat would be one without a source, or
the one by which `q` itself goes on. -/
theorem Draining.edges_eq_nil (h : Draining f w₀ q i y n s) (hy : y.target ≠ some q)
    (hstop : n ≠ 0 → ∀ e ∈ (s.module.blocks.get q).edges, ∃ e ∈ (s.module.blocks.get q).edges,
      ∀ t, (s.module.edges.get e).source = some t → (s.module.insts.get t).block = some q) :
    (s.module.blocks.get q).edges = [] := by
  refine eq_nil_iff_forall_not_mem.mpr fun e he => ?_
  have hn : n ≠ 0 := by
    obtain ⟨ts, hlength, -⟩ := h.left
    exact Nat.ne_zero_of_lt hlength
  obtain ⟨e, he, hsource⟩ := hstop hn e he
  obtain ⟨htarget, hmem⟩ := h.linked.incoming q e he
  cases ht : (s.module.edges.get e).source with
  | none =>
    have hopen : e ∈ s.module.openEdges q := mem_filter.mpr ⟨he, by simp [ht]⟩
    have hnil := map_eq_nil_iff.mp (h.run.verified.opens q h.forwards.inner)
    rw [hnil] at hopen
    cases hopen
  | some t =>
    have hlisted := h.run.ended.listed t q (hsource t ht) (by simp [h.forwards.func h.run])
    rw [h.forwards.insts, mem_singleton] at hlisted
    subst hlisted
    have hexit : ⟨some q, s.module.operandValues (s.module.edges.get e).args⟩ ∈ s.view.exits t :=
      mem_map.mpr ⟨e, hmem t ht, by rw [htarget]; rfl⟩
    rw [h.forwards.exits, mem_singleton] at hexit
    exact hy (hexit ▸ rfl)

theorem Passable.wp_bypass (h : Passable f w₀ s) (hb : (s.view.block b).func = some f) :
    wp (bypass b) (fun _ t => Passable f w₀ t ∧
      ∀ i, forwarding? s.module b = .ok (some i) → (t.module.blocks.get b).edges = [])
      (fun _ _ => False) s := by
  refine Pass.wp_bypass h.run hb (fun hnone => ⟨h, fun i hi => nomatch hnone.symm.trans hi⟩)
    fun i y hq hy => ?_
  refine wp_redirectInto (I := Draining f w₀ b i y) (fun n u e t hu he hsource hne => ?_)
    (fun n u hu hstop => ⟨hu.toPassable, fun _ _ => hu.edges_eq_nil hy hstop⟩) _ (h.draining hq)
  exact wp_redirect hu.linked hu.run hu.forwards he hsource hne (fun _ _ hbad => hbad hu.guarded)
    fun s' c x vs exits hr hx hl hview => hu.redirected hy hr hx hl hview

/-- In a function that the verifier accepts, whose branches are not read, whose conditions are
boolean and into which no other function branches, the bypass gets through, and every block that is
found to only branch on has no way in when it has been dealt with. -/
theorem bypass_drains_forwarding_blocks {s : Workspace} {f : FuncId} (h : Built s.builder)
    (hunread : ∀ i, (s.builder.module.insts.get i).op.isTerminator = true →
      (s.builder.module.insts.get i).uses = [])
    (hverified : s.builder.module.verifyFunc f = .ok [])
    (hguarded : s.builder.module.view.Guarded f) :
    ∃ t, (bypassForwardingBlocks f).run.run s = (.ok (), t) ∧
      ∀ before b after, (s.builder.module.funcs.get f).blocks = before ++ b :: after →
        ∃ u v, (before.forM bypass).run.run s = (.ok (), u) ∧ (bypass b).run.run u = (.ok (), v) ∧
          ∀ i, forwarding? u.builder.module b = .ok (some i) →
          (v.builder.module.blocks.get b).edges = [] := by
  have hsound := h.sound
  cases hdefined : (s.builder.module.funcs.get f).defined with
  | false =>
    have hnil : (s.builder.module.funcs.get f).blocks = [] :=
      hsound.shape.blocks.undefined f hdefined
    refine ⟨s, ?_, fun before b after heq => ?_⟩
    · show ((s.builder.module.funcs.get f).blocks.forM bypass).run.run s = _
      rw [hnil]
      rfl
    · rw [hnil] at heq
      exact absurd heq (by simp)
  | true =>
    have hpassable : Passable f s.builder.module.view s :=
      ⟨hsound.linked, accepted h hdefined hunread hverified, hguarded, rfl⟩
    refine exists_run_forM (fun b hb t ht => ht.wp_bypass ?_) hpassable
    rw [← ht.run.shape.blocks.mem_iff, ht.func]
    exact hb

theorem guarded_choosing : choosing.module.view.Guarded ⟨0⟩ := by
  have h (i : InstId) :
      ((choosing.module.insts.get i).op = .condBr →
        choosing.module.view.reads i = [some (.inst ⟨0⟩)]) ∧
        (exitsOf choosing.module i ≠ [] → choosing.module.view.instFunc i = some ⟨0⟩) := by
    by_cases hi : choosing.module.insts.Has i
    · have h : ∀ n < choosing.module.insts.entries.size,
        ((choosing.module.insts.get ⟨n⟩).op = .condBr →
          choosing.module.view.reads ⟨n⟩ = [some (.inst ⟨0⟩)]) ∧
          (exitsOf choosing.module ⟨n⟩ ≠ [] → choosing.module.view.instFunc ⟨n⟩ = some ⟨0⟩) :=
            by decide +kernel
      exact h i.index hi
    · rw [exitsOf, Pool.get_of_not_has hi]
      exact ⟨(absurd · (by decide)), absurd rfl⟩
  refine ⟨fun i _ hop v hv => ?_, fun i x hx _ _ _ => (h i).2 (ne_nil_of_mem hx)⟩
  rw [(h i).1 hop, mem_singleton] at hv
  rw [Option.some.inj hv]
  decide +kernel

/-- The first of two blocks that only branch on is bypassed, and nothing leads there any more. -/
theorem choosing_bypassed : choosing.module.view.Guarded ⟨0⟩ ∧ ∃ t u v : Workspace,
    (bypassForwardingBlocks ⟨0⟩).run.run { builder := choosing } = (.ok (), t) ∧
    ([⟨0⟩].forM bypass).run.run { builder := choosing } = (.ok (), u) ∧
    (bypass ⟨1⟩).run.run u = (.ok (), v) ∧
    forwarding? u.builder.module ⟨1⟩ = .ok (some ⟨3⟩) ∧
    (v.builder.module.blocks.get ⟨1⟩).edges = [] := by
  obtain ⟨t, ht, hall⟩ :=
    bypass_drains_forwarding_blocks (s := { builder := choosing }) built_choosing
    ready_choosing.unread ready_choosing.verified guarded_choosing
  obtain ⟨u, v, hu, hv, hdrained⟩ := hall [⟨0⟩] ⟨1⟩ [⟨2⟩, ⟨3⟩] (by decide +kernel)
  have h : checked (forwarding?
    (([⟨0⟩].forM bypass).run.run { builder := choosing }).2.builder.module ⟨1⟩)
    (· = some ⟨3⟩) = true := by decide +kernel
  rw [hu] at h
  obtain ⟨_, hi, rfl⟩ := exists_of_decided h
  exact ⟨guarded_choosing, t, u, v, ht, hu, hv, hi, hdrained _ hi⟩

theorem not_bypassed_of_checked {s : Workspace}
    (h : checked ((bypassForwardingBlocks f).run.run s).1 (fun _ => true) = false) :
    ¬ ∃ t, (bypassForwardingBlocks f).run.run s = (.ok (), t) := by
  rintro ⟨t, ht⟩
  rw [ht] at h
  cases h

/-- The condition of the branch is replaced by a number, which the verifier lets pass. -/
def miscast : Builder :=
  after (Build.replaceAllUses (some (.inst ⟨0⟩)) (some (.inst ⟨6⟩))) <|
  after (Build.intLiteral 1 .int64) <|
  after (Build.positionBefore ⟨2⟩) choosing

theorem miscast_not_bypassed : Built miscast ∧
    (∀ i, (miscast.module.insts.get i).op.isTerminator = true →
      (miscast.module.insts.get i).uses = []) ∧
    miscast.module.verifyFunc ⟨0⟩ = .ok [] ∧
    ¬ ∃ t, (bypassForwardingBlocks ⟨0⟩).run.run { builder := miscast } = (.ok (), t) := by
  refine ⟨?_, unread_of_each (by decide +kernel), eq_nil_of_checked (by decide +kernel),
    not_bypassed_of_checked (by decide +kernel)⟩
  exact built_after (built_after (built_after built_choosing))

/-- A branch to a block of the function is moved into another function, which the verifier does not
look at. -/
def intruding : Builder :=
  after (Build.insert (some ⟨6⟩)) <|
  after (Build.buildFunction "g" thunkType.1 []) <|
  after (Build.insert (some ⟨2⟩)) <|
  after (Build.detach (some ⟨6⟩)) <|
  after (Build.br (some ⟨1⟩) []) <|
  after (Build.positionAtEnd ⟨0⟩) <|
  after (Build.detach (some ⟨2⟩)) choosing

theorem intruding_not_bypassed : Built intruding ∧
    (∀ i, (intruding.module.insts.get i).op.isTerminator = true →
      (intruding.module.insts.get i).uses = []) ∧
    intruding.module.verifyFunc ⟨0⟩ = .ok [] ∧
    intruding.module.view.instFunc ⟨6⟩ = some ⟨1⟩ ∧
    ¬ ∃ t, (bypassForwardingBlocks ⟨0⟩).run.run { builder := intruding } = (.ok (), t) := by
  refine ⟨?_, unread_of_each (by decide +kernel), eq_nil_of_checked (by decide +kernel),
    by decide +kernel, not_bypassed_of_checked (by decide +kernel)⟩
  iterate 7 refine built_after ?_
  exact built_choosing

end Midlevel.Pass
