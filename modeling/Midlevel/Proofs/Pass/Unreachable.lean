import Midlevel.Proofs.Pass.Forwarding

/-!
Blocks that cannot be reached. The search for the others visits every block once and pushes its
successors, so what is on the stack and what unseen blocks may still push bounds the steps it takes.
What it finds is what the graph of the function can reach, and the rest may go unless something
outside of the function depends on it.
-/

namespace Midlevel.Pass

open Midlevel.Flow List
open Ir

/-! ### The search -/

variable {m : Module} {stack : List (Option BlockId)} {seen : List BlockId} {b : BlockId}

/-- What the search has still to do: the stack, and the successors of blocks it has not seen. -/
def work (m : Module) (stack : List (Option BlockId)) (seen : List BlockId) : Nat :=
  stack.length + ((m.blocks.ids.filter (· ∉ seen)).flatMap m.successors).length

theorem length_flatMap_unseen {α : Type} (g : BlockId → List α) {bs : List BlockId}
    (hbs : bs.Nodup) (hb : b ∉ seen) :
    ((bs.filter (· ∉ seen)).flatMap g).length =
      ((bs.filter (· ∉ b :: seen)).flatMap g).length + if b ∈ bs then (g b).length else 0 := by
  induction bs with
  | nil => rfl
  | cons c bs ih =>
    obtain ⟨hc, hbs⟩ := nodup_cons.mp hbs
    have ih := ih hbs
    by_cases hcb : c = b
    · subst hcb
      rw [if_neg hc] at ih
      simp only [filter_cons, decide_eq_true hb, if_true, flatMap_cons, length_append, ih]
      simp [Nat.add_comm]
    · have hbc : (b ∈ c :: bs) = (b ∈ bs) := by simp [Ne.symm hcb]
      have hmem : (c ∈ b :: seen) = (c ∈ seen) := by simp [hcb]
      simp only [filter_cons, hbc, hmem]
      split
      · rw [flatMap_cons, flatMap_cons, length_append, length_append, ih, Nat.add_assoc]
      · exact ih

theorem nodup_ids (m : Module) : m.blocks.ids.Nodup := nodup_range.map fun _ _ h => Id.mk.inj h

theorem successors_of_not_mem (hb : b ∉ m.blocks.ids) : m.successors b = [] := by
  have hnot : ¬ m.blocks.Has b := fun h => hb (mem_map.mpr ⟨b.index, mem_range.mpr h, rfl⟩)
  rw [Module.successors, Module.terminator, Pool.get_of_not_has hnot]
  rfl

theorem work_visit (stack : List (Option BlockId)) (hb : b ∉ seen) :
    work m (m.successors b ++ stack) (b :: seen) + 1 = work m (some b :: stack) seen := by
  rw [work, work, length_flatMap_unseen m.successors (nodup_ids m) hb, length_append, length_cons]
  split
  · omega
  · next hnot =>
    rw [successors_of_not_mem hnot, length_nil]
    omega

/-- Everything seen or on the stack satisfies `R`, and the successors of what was seen are
not lost. -/
structure Searching (m : Module) (R : BlockId → Prop) (stack : List (Option BlockId))
    (seen : List BlockId) : Prop where
  found : ∀ b ∈ seen, R b
  pending : ∀ x ∈ stack, ∃ b, x = some b ∧ R b
  closed : ∀ b ∈ seen, ∀ x ∈ m.successors b, x ∈ stack ∨ ∃ c ∈ seen, x = some c

variable {R : BlockId → Prop}

theorem reach_spec (hR : ∀ b, R b → ∀ x ∈ m.successors b, ∃ c, x = some c ∧ R c) {steps : Nat}
    (h : Searching m R stack seen) (hwork : work m stack seen ≤ steps) :
    ∃ live, reach m steps stack seen = .ok live ∧ Searching m R [] live ∧ (∀ b ∈ seen, b ∈ live) ∧
      ∀ b, some b ∈ stack → b ∈ live := by
  induction steps generalizing stack seen with
  | zero =>
    have hnil : stack = [] := eq_nil_of_length_eq_zero (by rw [work] at hwork; omega)
    subst hnil
    exact ⟨seen, rfl, h, fun _ => id, by simp⟩
  | succ steps ih =>
    cases stack with
    | nil => exact ⟨seen, rfl, h, fun _ => id, by simp⟩
    | cons x stack =>
      obtain ⟨b, rfl, hb⟩ := h.pending x mem_cons_self
      have hstack : ∀ x ∈ stack, ∃ b, x = some b ∧ R b := (forall_mem_cons.mp h.pending).2
      rw [reach]
      split
      · next hseen =>
        have hclosed : ∀ c ∈ seen, ∀ x ∈ m.successors c, x ∈ stack ∨ ∃ c ∈ seen, x = some c := by
          intro c hc x hx
          rcases h.closed c hc x hx with hx | hx
          · rcases mem_cons.mp hx with rfl | hx
            · exact .inr ⟨b, hseen, rfl⟩
            · exact .inl hx
          · exact .inr hx
        obtain ⟨live, hlive, hs, hold, hnew⟩ := ih ⟨h.found, hstack, hclosed⟩
          (by rw [work, length_cons] at hwork; rw [work]; omega)
        refine ⟨live, hlive, hs, hold, fun c hc => ?_⟩
        rcases mem_cons.mp hc with hc | hc
        · exact Option.some.inj hc ▸ hold b hseen
        · exact hnew c hc
      · next hseen =>
        have hnext : Searching m R (m.successors b ++ stack) (b :: seen) := by
          refine ⟨fun c hc => ?_, fun x hx => ?_, fun c hc x hx => ?_⟩
          · rcases mem_cons.mp hc with rfl | hc
            · exact hb
            · exact h.found c hc
          · rcases mem_append.mp hx with hx | hx
            · exact hR b hb x hx
            · exact hstack x hx
          · rcases mem_cons.mp hc with rfl | hc
            · exact .inl (mem_append_left _ hx)
            · rcases h.closed c hc x hx with hx | ⟨d, hd, rfl⟩
              · rcases mem_cons.mp hx with rfl | hx
                · exact .inr ⟨b, mem_cons_self, rfl⟩
                · exact .inl (mem_append_right _ hx)
              · exact .inr ⟨d, mem_cons_of_mem _ hd, rfl⟩
        have hless := work_visit (m := m) stack hseen
        obtain ⟨live, hlive, hs, hold, hnew⟩ := ih hnext (by omega)
        refine ⟨live, hlive, hs, (forall_mem_cons.mp hold).2, fun c hc => ?_⟩
        rcases mem_cons.mp hc with hc | hc
        · exact Option.some.inj hc ▸ hold b mem_cons_self
        · exact hnew c (mem_append_right _ hc)

end Midlevel.Pass

namespace Midlevel.Ir.View

open Midlevel.Flow List
open Pass (Exit)

variable {x : Exit} {b : BlockId} {g : FuncId}

/-! ### What erasing blocks leaves of the view -/

section EraseBlocks

variable (w : View) (bs : List BlockId)
variable {i : InstId}

theorem inst_eraseBlocks (i : InstId) : (w.eraseBlocks bs).inst i =
    if i ∈ w.instsOf bs then { w.inst i with block := none, erased := true } else w.inst i := rfl

theorem reads_eraseBlocks (i : InstId) : (w.eraseBlocks bs).reads i = if i ∈ w.instsOf bs then []
    else w.reads i := rfl

theorem exits_eraseBlocks (i : InstId) : (w.eraseBlocks bs).exits i = if i ∈ w.instsOf bs then []
    else w.exits i := rfl

theorem block_eraseBlocks (b : BlockId) : (w.eraseBlocks bs).block b =
    if b ∈ bs then { w.block b with insts := [], func := none } else w.block b := rfl

theorem op_eraseBlocks (i : InstId) : ((w.eraseBlocks bs).inst i).op = (w.inst i).op := by
  rw [inst_eraseBlocks]
  split <;> rfl

variable {w bs}

theorem line_eraseBlocks (hi : i ∉ w.instsOf bs) : (w.eraseBlocks bs).line i = w.line i := by
  rw [line, line, inst_eraseBlocks, reads_eraseBlocks, exits_eraseBlocks]
  simp only [if_neg hi]

theorem params_eraseBlocks (b : BlockId) : ((w.eraseBlocks bs).block b).params =
    (w.block b).params := by
  rw [block_eraseBlocks]
  split <;> rfl

theorem valueType_eraseBlocks (v : Value) : (w.eraseBlocks bs).valueType v = w.valueType v := by
  cases v with
  | inst i =>
    show ((w.eraseBlocks bs).inst i).type = (w.inst i).type
    rw [inst_eraseBlocks]
    split <;> rfl
  | param p => rfl
  | func g => rfl
  | global g => rfl

theorem values_eraseBlocks {v : Option Value} (hv : v ∈ ((w.eraseBlocks bs).line i).values) :
    i ∉ w.instsOf bs ∧ v ∈ (w.line i).values := by
  by_cases hi : i ∈ w.instsOf bs
  · rw [Flow.Line.values, line, reads_eraseBlocks, exits_eraseBlocks] at hv
    simp [hi] at hv
  · exact ⟨hi, line_eraseBlocks hi ▸ hv⟩

theorem exits_of_eraseBlocks (hx : x ∈ (w.eraseBlocks bs).exits i) : i ∉ w.instsOf bs ∧
    x ∈ w.exits i := by
  rw [exits_eraseBlocks] at hx
  split at hx
  · cases hx
  · next hi => exact ⟨hi, hx⟩

theorem reads_of_eraseBlocks {v : Value} (hv : (w.eraseBlocks bs).Reads v) : w.Reads v := by
  rcases hv with ⟨i, hv⟩ | ⟨i, x, hx, hv⟩ | hopen
  · exact mem_reads (values_eraseBlocks (mem_append_left _ hv)).2
  · exact .inr (.inl ⟨i, x, (exits_of_eraseBlocks hx).2, hv⟩)
  · exact .inr (.inr hopen)

theorem func_of_eraseBlocks (hb : ((w.eraseBlocks bs).block b).func = some g) : b ∉ bs ∧
    (w.block b).func = some g := by
  rw [block_eraseBlocks] at hb
  split at hb
  · cases hb
  · next hmem => exact ⟨hmem, hb⟩

theorem Closed.eraseBlocks {init : List InstId} {t : InstId} (hc : w.Closed b init t)
    (hb : b ∉ bs) : (w.eraseBlocks bs).Closed b init t where
  eq := by rw [block_eraseBlocks, if_neg hb, hc.eq]
  init i hi := (congrArg _ (op_eraseBlocks w bs i)).trans (hc.init i hi)
  last := (congrArg _ (op_eraseBlocks w bs t)).trans hc.last

end EraseBlocks

/-! ### Values of code that can be reached -/

variable {w : View} {f : FuncId} {c : BlockId} {i : InstId} {v : Value}

theorem Runnable.branch_of_exit (h : w.Runnable f) (hi : i ∈ (w.block b).insts)
    (hx : x ∈ w.exits i) : (w.inst i).op.isTerminator = true := by
  have hlength := h.exits_length hi
  cases hop : (w.inst i).op.isTerminator with
  | true => rfl
  | false =>
    have hnone : (w.inst i).op.exits = 0 := by
      revert hop
      cases (w.inst i).op <;> simp [Opcode.isTerminator, Opcode.exits]
    rw [hnone] at hlength
    exact absurd hx (eq_nil_of_length_eq_zero hlength ▸ not_mem_nil)

/-- A value that is read is no branch, so its block also defines it in the graph. -/
theorem Runnable.defines (h : w.Runnable f) (hv : w.Defines b v) (hr : w.Reads v) :
    (w.graph f).Defines b v := by
  rcases hv with ⟨p, hp, rfl⟩ | ⟨i, hi, rfl⟩
  · exact .inl ⟨p, hp, rfl⟩
  · refine .inr ⟨w.line i, mem_map_of_mem hi, ?_, rfl⟩
    exact Bool.not_eq_true _ ▸ fun hop => h.unread i hop hr

theorem Runnable.reachable_of_read (h : w.Runnable f) (hc : (w.graph f).Reachable c)
    (hi : i ∈ (w.block c).insts) (hread : some v ∈ (w.line i).values) (hv : w.Defines b v) :
    (w.graph f).Reachable b := by
  obtain ⟨av, ha⟩ := h.certified
  have hdef := h.defines hv (mem_reads hread)
  have hhere : (w.graph f).Defines c v → (w.graph f).Reachable b := fun hcv =>
    h.unique.defines hcv hdef ▸ hc
  obtain ⟨before, after, hsplit⟩ := append_of_mem hi
  have hlines : (w.graph f).lines c = before.map w.line ++ w.line i :: after.map w.line := by
    show (w.block c).insts.map w.line = _
    rw [hsplit, map_append, map_cons]
  rcases ha.reads c hc _ _ _ hlines v hread with hconst | havail | hparam | ⟨k, hk, hop, rfl⟩
  · exact absurd hconst hdef.not_constant
  · obtain ⟨d, hd, hdv⟩ := ha.exists_defines hc havail
    exact h.unique.defines hdv hdef ▸ hd
  · exact hhere (.inl hparam)
  · exact hhere (.inr ⟨k, hlines ▸ mem_append_left _ hk, hop, rfl⟩)

/-! ### Blocks that cannot be reached -/

/-- `bs` are the blocks of `f` that cannot be reached. -/
structure Cutting (w : View) (f : FuncId) (bs : List BlockId) : Prop where
  run : w.Runnable f
  func : ∀ b ∈ bs, (w.block b).func = some f
  dead : ∀ b ∈ bs, ¬ (w.graph f).Reachable b
  live : ∀ b, (w.block b).func = some f → b ∉ bs → (w.graph f).Reachable b

namespace Cutting

variable {bs : List BlockId} (h : w.Cutting f bs)

include h

theorem inner (hb : b ∈ bs) : b ∈ (w.func f).blocks.tail :=
  h.run.inner (h.func b hb) fun he => h.dead b hb (he ▸ .entry _)

theorem not_mem (hc : (w.graph f).Reachable c) : c ∉ bs := fun hmem => h.dead c hmem hc

theorem reachable_of_instFunc (hi : w.instFunc i = some f) (hmem : i ∉ w.instsOf bs) :
    ∃ c, i ∈ (w.block c).insts ∧ (w.graph f).Reachable c := by
  obtain ⟨c, hic, hfunc⟩ := h.run.exists_mem hi
  exact ⟨c, hic, h.live c hfunc fun hcs => hmem (mem_instsOf.mpr ⟨c, hcs, hic⟩)⟩

theorem not_read (hi : w.instFunc i = some f) (hmem : i ∉ w.instsOf bs)
    (hread : some v ∈ (w.line i).values)
    (hb : b ∈ bs) : ¬ w.Defines b v := by
  intro hv
  obtain ⟨c, hic, hc⟩ := h.reachable_of_instFunc hi hmem
  exact h.dead b hb (h.run.reachable_of_read hc hic hread hv)

theorem not_enclosed (hnodup : bs.Nodup) (hneeded : w.Needed bs) : ¬ w.Enclosed f := by
  intro he
  rcases hneeded with hbad | ⟨b, hb, (hopen | ⟨i, x, hx, htarget, hout⟩) | ⟨v, hv, hread⟩⟩
  · exact hbad hnodup
  · exact hopen (h.run.verified.opens b (h.inner hb))
  · -- The branch is in `f`, so its block stays, and `b` is reached through it.
    obtain ⟨c, hic, hfunc⟩ := h.run.exists_mem (he.branches i x hx b (h.inner hb) htarget)
    have hreach := h.live c hfunc fun hcs => hout c hcs (h.run.shape.insts.placed i c hic)
    exact h.dead b hb (hreach.step ⟨w.line i, mem_map_of_mem hic, x, hx, htarget⟩)
  · -- Whatever still reads the value is in `f`, which reads only what is defined on the way.
    have hline : ∀ i, some v ∈ ((w.silenceAll (w.instsOf bs)).line i).values →
        False := fun i hmem => by
      obtain ⟨hi, hmem⟩ : i ∉ w.instsOf bs ∧ some v ∈ (w.line i).values := values_eraseBlocks hmem
      exact h.not_read (he.values i b (h.inner hb) v hv hmem) hi hmem hb hv
    rcases hread with ⟨i, hr⟩ | ⟨i, x, hx, hr⟩ | ⟨c, args, hargs, hr⟩
    · exact hline i (mem_append_left _ hr)
    · exact hline i (mem_append_right _ (mem_flatMap.mpr ⟨x, hx, hr⟩))
    · exact he.opens c args hargs b (h.inner hb) v hv hr

theorem instFunc_eq (hi : i ∉ w.instsOf bs) : (w.eraseBlocks bs).instFunc i = w.instFunc i := by
  rw [instFunc, inst_eraseBlocks, if_neg hi]
  refine Option.bind_congr fun c hc => ?_
  rw [block_eraseBlocks, if_neg fun hcs =>
    hi (mem_instsOf.mpr ⟨c, hcs, h.run.ended.listed i c hc ?_⟩)]
  simp [h.func c hcs]

theorem instFunc_of_eraseBlocks (hi : (w.eraseBlocks bs).instFunc i = some g) :
    i ∉ w.instsOf bs ∧ w.instFunc i = some g := by
  have hmem : i ∉ w.instsOf bs := by
    intro hmem
    rw [instFunc, inst_eraseBlocks, if_pos hmem] at hi
    cases hi
  exact ⟨hmem, (h.instFunc_eq hmem).symm.trans hi⟩

theorem blocks_eq : ((w.eraseBlocks bs).func f).blocks =
    (w.graph f).entry ::
    ((w.func f).blocks.tail.filter fun b => ¬ (b ∈ bs ∧ (w.block b).func = some f)) := by
  show (w.func f).blocks.filter _ = _
  rw [h.run.blocks_eq, filter_cons_of_pos]
  · rfl
  · rw [decide_eq_true_iff]
    exact fun hmem => h.not_mem (.entry _) hmem.1

theorem tail_subset (hb : b ∈ ((w.eraseBlocks bs).func f).blocks.tail) :
    b ∈ (w.func f).blocks.tail := by
  rw [h.blocks_eq] at hb
  exact (mem_filter.mp hb).1

theorem agreeOnReachable : AgreeOnReachable (w.graph f) ((w.eraseBlocks bs).graph f) where
  entry := by
    show ((w.eraseBlocks bs).func f).blocks.head?.getD default = _
    rw [h.blocks_eq]
    rfl
  params b _ := params_eraseBlocks b
  lines b hb := by
    show ((w.eraseBlocks bs).block b).insts.map _ = (w.block b).insts.map _
    rw [block_eraseBlocks, if_neg (h.not_mem hb)]
    exact map_congr_left fun i hi => line_eraseBlocks fun hmem =>
      h.not_mem hb ((h.run.shape.insts.mem_instsOf hi).mp hmem)

theorem verified : (w.eraseBlocks bs).Verified f where
  nonempty := by
    rw [h.blocks_eq]
    exact cons_ne_nil _ _
  closed b hb := by
    obtain ⟨hmem, hfunc⟩ := func_of_eraseBlocks hb
    obtain ⟨init, t, hc⟩ := h.run.verified.closed b hfunc
    exact ⟨init, t, hc.eraseBlocks hmem⟩
  values i hi v hv := by
    obtain ⟨hmem, hfunc⟩ := h.instFunc_of_eraseBlocks hi
    have hold := (values_eraseBlocks hv).2
    obtain ⟨u, rfl, hu⟩ := h.run.verified.values i hfunc v hold
    refine ⟨u, rfl, fun j hj => ?_⟩
    obtain ⟨hlive, hjf⟩ := hu j hj
    -- What is read stays, as it is not defined in a block that goes.
    have hjmem : j ∉ w.instsOf bs := fun hgone => by
      obtain ⟨b, hb, hjb⟩ := mem_instsOf.mp hgone
      exact h.not_read hfunc hmem hold hb (.inr ⟨j, hjb, hj⟩)
    rw [inst_eraseBlocks, if_neg hjmem, h.instFunc_eq hjmem]
    exact ⟨hlive, hjf⟩
  exits i hi x hx := by
    obtain ⟨hmem, hfunc⟩ := h.instFunc_of_eraseBlocks hi
    have hold := (exits_of_eraseBlocks hx).2
    obtain ⟨u, hu, hufunc, haccepts⟩ := h.run.verified.exits i hfunc x hold
    obtain ⟨c, hic, hc⟩ := h.reachable_of_instFunc hfunc hmem
    have hreach := hc.step ⟨w.line i, mem_map_of_mem hic, x, hold, hu⟩
    refine ⟨u, hu, ?_, haccepts.congr (params_eraseBlocks u) rfl fun v _ => valueType_eraseBlocks v⟩
    rw [block_eraseBlocks, if_neg (h.not_mem hreach)]
    exact hufunc
  entered i hi := .inr (h.run.verified.entered i (h.instFunc_of_eraseBlocks hi).2)
  opens b hb := h.run.verified.opens b (h.tail_subset hb)

theorem runnable : (w.eraseBlocks bs).Runnable f := by
  obtain ⟨av, ha⟩ := h.run.certified
  refine ⟨⟨h.run.shape.eraseBlocks bs, h.run.ended.eraseBlocks bs, fun i hi hr => ?_,
    h.verified⟩, av,
    h.agreeOnReachable.available ha⟩
  exact h.run.unread i (op_eraseBlocks w bs i ▸ hi) (reads_of_eraseBlocks hr)

theorem defines (hb : b ∈ ((w.eraseBlocks bs).func f).blocks.tail)
    (hv : (w.eraseBlocks bs).Defines b v) :
    w.Defines b v := by
  have hmem : b ∉ bs := by
    have hfunc := ((h.run.shape.eraseBlocks bs).blocks.mem_iff f b).mp (mem_of_mem_tail hb)
    exact (func_of_eraseBlocks hfunc).1
  rw [Defines, block_eraseBlocks, if_neg hmem] at hv
  exact hv

theorem enclosed (he : w.Enclosed f) : (w.eraseBlocks bs).Enclosed f where
  cond i hi hop v hv := by
    obtain ⟨hmem, hfunc⟩ := h.instFunc_of_eraseBlocks hi
    rw [reads_eraseBlocks, if_neg hmem] at hv
    rw [valueType_eraseBlocks]
    exact he.cond i hfunc (op_eraseBlocks w bs i ▸ hop) v hv
  branches i x hx b hb htarget := by
    obtain ⟨hmem, hold⟩ := exits_of_eraseBlocks hx
    exact (h.instFunc_eq hmem).trans (he.branches i x hold b (h.tail_subset hb) htarget)
  values i b hb v hv hread := by
    obtain ⟨hmem, hold⟩ := values_eraseBlocks hread
    exact (h.instFunc_eq hmem).trans (he.values i b (h.tail_subset hb) v (h.defines hb hv) hold)
  opens c args hargs b hb v hv := he.opens c args hargs b (h.tail_subset hb) v (h.defines hb hv)

theorem refines : Refines f w (w.eraseBlocks bs) := by
  refine .of_same h.enclosed (fun i hi => op_eraseBlocks w bs i ▸ hi)
    (fun i hi => ?_) h.agreeOnReachable.same
  rw [inst_eraseBlocks]
  split
  · rfl
  · exact hi

end Cutting

end Midlevel.Ir.View

namespace Midlevel.Pass

open Midlevel.Flow List
open Ir

variable {m : Module} {f : FuncId} {w₀ : View} {s : Workspace} {b : BlockId}

theorem successors_of_closed {init : List InstId} {t : InstId} (hc : m.view.Closed b init t) :
    m.successors b = (m.view.exits t).map Exit.target := by
  have hterm : m.terminator b = some t := Module.terminator_eq_some.mpr
    ⟨by rw [show (m.blocks.get b).insts = init ++ [t] from hc.eq, List.getLast?_concat], hc.last⟩
  rw [Module.successors, hterm, Module.view_exits, exitsOf, map_map]
  rfl

theorem mem_successors (h : m.view.Runnable f) (hb : (m.view.graph f).Reachable b)
    {x : Option BlockId} :
    x ∈ m.successors b ↔ ∃ c, x = some c ∧ (m.view.graph f).Leads b c := by
  have hfunc := h.func_of_reachable hb
  obtain ⟨init, t, hc⟩ := h.verified.closed b hfunc
  have ht : t ∈ (m.view.block b).insts := by simp [hc.eq]
  rw [successors_of_closed hc, mem_map]
  constructor
  · rintro ⟨y, hy, rfl⟩
    obtain ⟨u, hu, -⟩ :=
      h.verified.exits t ((View.instFunc_of_mem h.shape.insts ht).trans hfunc) y hy
    exact ⟨u, hu, m.view.line t, mem_map_of_mem ht, y, hy, hu⟩
  · rintro ⟨c, rfl, l, hl, y, hy, hu⟩
    obtain ⟨i, hi, rfl⟩ := mem_map.mp hl
    have hop := h.branch_of_exit hi hy
    rw [show (m.view.block b).insts = init ++ [t] from hc.eq, mem_append, mem_singleton] at hi
    rcases hi with hi | rfl
    · exact absurd hop (by simp [hc.init i hi])
    · exact ⟨y, hy, hu⟩

theorem reachable_spec (h : m.view.Runnable f) :
    ∃ live, reachable m (m.view.graph f).entry = .ok live ∧ ∀ b, b ∈ live ↔
    (m.view.graph f).Reachable b := by
  have hnext : ∀ b, (m.view.graph f).Reachable b → ∀ x ∈ m.successors b,
      ∃ c, x = some c ∧ (m.view.graph f).Reachable c := fun b hb x hx => by
    obtain ⟨c, rfl, hlead⟩ := (mem_successors h hb).mp hx
    exact ⟨c, rfl, hb.step hlead⟩
  have hsearch : Searching m (m.view.graph f).Reachable [some (m.view.graph f).entry] [] :=
    ⟨by simp, fun _ hx => ⟨_, mem_singleton.mp hx, .entry _⟩, by simp⟩
  have hwork : work m [some (m.view.graph f).entry] [] ≤
      1 + (m.blocks.ids.flatMap m.successors).length := by
    rw [work, filter_eq_self.mpr (by simp)]
    exact Nat.le_refl _
  obtain ⟨live, hlive, hs, -, hstart⟩ := reach_spec hnext hsearch hwork
  have hfound : ∀ bs b, (m.view.graph f).Walk bs b → b ∈ live := fun bs b hw => by
    induction hw with
    | start => exact hstart _ (mem_singleton_self _)
    | step hw hlead ih =>
      have hmem := (mem_successors h (hs.found _ ih)).mpr ⟨_, rfl, hlead⟩
      rcases hs.closed _ ih _ hmem with hnil | ⟨c, hc, heq⟩
      · cases hnil
      · exact Option.some.inj heq ▸ hc
  exact ⟨live, hlive, fun b => ⟨hs.found b, fun ⟨bs, hw⟩ => hfound bs b hw⟩⟩

theorem cutting (h : m.view.Runnable f) {live : List BlockId}
    (hlive : ∀ b, b ∈ live ↔ (m.view.graph f).Reachable b) :
    m.view.Cutting f ((m.view.func f).blocks.filter (!live.contains ·)) := by
  have hmem (b) : b ∈ (m.view.func f).blocks.filter (!live.contains ·) ↔
      (m.view.block b).func = some f ∧ ¬ (m.view.graph f).Reachable b := by
    rw [mem_filter, ← hlive, h.shape.blocks.mem_iff]
    simp
  refine ⟨h, fun b hb => ((hmem b).mp hb).1, fun b hb => ((hmem b).mp hb).2, fun b hb hnot => ?_⟩
  by_contra hreach
  exact hnot ((hmem b).mpr ⟨hb, hreach⟩)

theorem wp_entry {t : Builder} (h : t.module.view.Runnable f) {Q : Post BlockId}
    {E : Post Fault} (k : Q (t.module.view.graph f).entry t) : wp (Build.entry f) Q E t := by
  have hdefined : (t.module.funcs.get f).defined = true := by
    by_contra hnot
    exact h.verified.nonempty (h.shape.blocks.undefined f (Bool.not_eq_true _ ▸ hnot))
  have hhead : (t.module.funcs.get f).blocks.head? = some (t.module.view.graph f).entry :=
    congrArg List.head? h.blocks_eq
  rw [Build.entry, wp_bind, Build.wp_func, hdefined, hhead]
  exact k

theorem erasable (h : m.view.Runnable f) (hb : (m.view.block b).func = some f)
    (hne : b ≠ (m.view.graph f).entry) : Build.Erasable m b := by
  have hblock : (m.blocks.get b).func = some f := hb
  refine ⟨⟨f, hblock, (h.shape.blocks.mem_iff f b).mpr hb⟩, ?_⟩
  have hhead : (m.funcs.get f).blocks.head? = some (m.view.graph f).entry :=
    congrArg List.head? h.blocks_eq
  simp [Module.isEntry, hblock, hhead, Ne.symm hne]

theorem wp_removeUnreachable (h : Kept f w₀ s) :
    wp (removeUnreachable f) (fun _ s' => Kept f w₀ s') (fun _ _ => ¬ w₀.Enclosed f) s := by
  obtain ⟨live, hreachable, hlive⟩ := reachable_spec h.run
  rw [removeUnreachable, wp_bind, Transform.wp_build]
  refine wp_entry h.run ?_
  rw [wp_bind, Transform.wp_module, hreachable]
  rw [wp_ite]
  refine ⟨fun _ => ?_, fun _ => h⟩
  generalize hdead : (s.module.funcs.get f).blocks.filter (!live.contains ·) = dead
  have hcut : s.view.Cutting f dead := hdead ▸ cutting h.run hlive
  have hnodup : dead.Nodup := hdead ▸ (h.run.shape.blocks.nodup f).filter _
  rw [wp_bind, Transform.wp_count, wp_bind, Transform.wp_build]
  refine Build.wp_eraseBlocks h.linked
    (fun b i hi => Module.has_of_instBlock (h.run.shape.insts.placed i b hi))
    (fun _ hbad => absurd (fun x hx => ?_) hbad) (fun _ _ bs _ hbs hneeded => ?_)
    fun bs m' _ hbs _ _ hl hview _ => ?_
  · obtain ⟨b, hb, rfl⟩ := mem_map.mp hx
    exact ⟨b, rfl, erasable h.run (hcut.func b hb) fun he => hcut.dead b hb (he ▸ .entry _)⟩
  · obtain rfl := map_injective_iff.mpr (fun _ _ => Option.some.inj) hbs
    exact fun h₀ => hcut.not_enclosed hnodup hneeded (h.refines.enclosed h₀)
  · obtain rfl := map_injective_iff.mpr (fun _ _ => Option.some.inj) hbs
    exact ⟨hl, hview ▸ hcut.runnable, hview ▸ h.refines.trans hcut.refines⟩

end Midlevel.Pass
