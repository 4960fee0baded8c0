import Midlevel.Pass.DeadCode
import Midlevel.Proofs.Ir.Applications
import Midlevel.Proofs.Ir.Verified

/-!
Dead code is erased one instruction at a time. Each of them is read by nobody and has no effect when
it goes, so whatever stays has all that it reads: `Swept` says what a run erased and what it left.
Which instructions of a function go does not depend on the order. They are the `Doomed` ones, the
least set of instructions without effect that only its own members use.
-/

namespace Midlevel.Ir.View

open List

structure Dead (w : View) (i : InstId) : Prop where
  live : (w.inst i).erased = false
  placed : ∃ b, (w.inst i).block = some b
  unread : ¬ w.Reads (.inst i)
  idle : w.hasEffects i = false

/-- The instructions in `gone` were erased, one after the other. -/
structure Swept (w w' : View) (gone : List InstId) : Prop where
  inst : ∀ j, j ∉ gone → w'.inst j = w.inst j
  reads : ∀ j, j ∉ gone → w'.reads j = w.reads j
  exits : ∀ j, j ∉ gone → w'.exits j = w.exits j
  block : ∀ b, w'.block b = { w.block b with insts := (w.block b).insts.filter (· ∉ gone) }
  erased : ∀ i ∈ gone, (w'.inst i).erased = true ∧ (w'.inst i).block = none ∧ w'.reads i = [] ∧
    w'.exits i = []
  live : ∀ i ∈ gone, (w.inst i).erased = false
  idle : ∀ i ∈ gone, w.hasEffects i = false
  /-- Nothing that was erased is missed. -/
  unread : ∀ i ∈ gone, ¬ w'.Reads (.inst i)
  nodup : gone.Nodup
  /-- Each is used by those only that were erased before it. -/
  induct : ∀ P : InstId → Prop, (∀ i ∈ gone, (∀ j, w.UsedBy (.inst i) j → P j) → P i) →
    ∀ i ∈ gone, P i
  rest : { w' with inst := w.inst, reads := w.reads, exits := w.exits, entered := w.entered,
                   block := w.block } = w

variable {w w' : View} {gone : List InstId} {i j : InstId} {v : Value} {f : FuncId}
  {P : InstId → Prop}

theorem usedBy_discard : (w.discard i).UsedBy v j ↔ j ≠ i ∧ w.UsedBy v j := by
  rw [usedBy_iff, usedBy_iff, reads_discard, exits_discard]
  split <;> simp_all

theorem Reads.of_discard (h : (w.discard i).Reads v) : w.Reads v :=
  reads_iff.mpr ((reads_iff.mp h).imp_left fun ⟨j, hj⟩ => ⟨j, (usedBy_discard.mp hj).2⟩)

theorem Swept.refl (w : View) : w.Swept w [] := by
  refine ⟨fun _ _ => rfl, fun _ _ => rfl, fun _ _ => rfl, fun b => ?_, ?_, ?_, ?_, ?_,
    nodup_nil, ?_, rfl⟩
  · simp
  all_goals simp

namespace Swept

variable (h : w.Swept w' gone)
include h

theorem func : w'.func = w.func := by
  have hfunc := congrArg View.func h.rest
  exact hfunc

theorem opens : w'.opens = w.opens := by
  have hopens := congrArg View.opens h.rest
  exact hopens

theorem usedBy (hj : j ∉ gone) : w'.UsedBy v j ↔ w.UsedBy v j := by
  rw [usedBy_iff, usedBy_iff, h.reads j hj, h.exits j hj]

theorem hasEffects (hj : j ∉ gone) : w'.hasEffects j = w.hasEffects j :=
  hasEffects_congr (h.inst j hj) (callee_congr (h.inst j hj) (h.reads j hj)) h.func

theorem not_mem (hi : (w'.inst i).erased = false) : i ∉ gone := fun hgone =>
  Bool.false_ne_true (hi.symm.trans (h.erased i hgone).1)

theorem erase (hplaced : w'.Placed i) (hi : w'.Dead i) : w.Swept (w'.discard i) (gone ++ [i]) := by
  have hnew := h.not_mem hi.live
  have hsplit {j : InstId} (hj : j ∉ gone ++ [i]) : j ∉ gone ∧ j ≠ i := by simpa using hj
  have hold {P : InstId → Prop} (hgone : ∀ j ∈ gone, P j) (hP : P i) : ∀ j ∈ gone ++ [i], P j :=
    forall_mem_append.mpr ⟨hgone, forall_mem_singleton.mpr hP⟩
  refine ⟨fun j hj => ?_, fun j hj => ?_, fun j hj => ?_, fun b => ?_, fun j hj => ?_,
    hold h.live ?_, hold h.idle ?_,
    hold (fun j hj hread => h.unread j hj hread.of_discard) fun hread =>
      hi.unread hread.of_discard, ?_,
    fun P hP => ?_, h.rest⟩
  · rw [inst_discard, if_neg (hsplit hj).2, h.inst j (hsplit hj).1]
  · rw [reads_discard, if_neg (hsplit hj).2, h.reads j (hsplit hj).1]
  · rw [exits_discard, if_neg (hsplit hj).2, h.exits j (hsplit hj).1]
  · rw [block_discard hplaced, h.block]
    simp [and_comm]
  · rw [inst_discard, reads_discard, exits_discard]
    split
    · exact ⟨rfl, rfl, rfl, rfl⟩
    · next hne => exact h.erased j (by simpa [hne] using hj)
  · rw [← h.inst i hnew]
    exact hi.live
  · rw [← h.hasEffects hnew]
    exact hi.idle
  · refine nodup_append.mpr ⟨h.nodup, nodup_singleton i, fun j hj k hk hjk => hnew ?_⟩
    rwa [← mem_singleton.mp hk, ← hjk]
  · have hgone := h.induct P fun j hj => hP j (mem_append_left _ hj)
    refine hold hgone (hP i (by simp) fun j hj => hgone j ?_)
    by_contra hkept
    exact hi.unread (reads_iff.mpr (.inl ⟨j, (h.usedBy hkept).mpr hj⟩))

end Swept

/-! ### The order does not matter -/

/-- The least set of instructions of `f` that have no effect and that only its members use. -/
inductive Doomed (w : View) (f : FuncId) : InstId → Prop
  | intro {i : InstId} (live : (w.inst i).erased = false) (func : w.instFunc i = some f)
    (idle : w.hasEffects i = false)
    (used : ∀ j, w.UsedBy (.inst i) j → Doomed w f j) (closed : ∀ b, ∀ args ∈ w.opens b,
      some (.inst i) ∉ args) :
    Doomed w f i

/-- Dead instructions among those that `P` holds of are erased, in some order. -/
inductive Erases (w : View) (P : InstId → Prop) : View → List InstId → Prop
  | refl : Erases w P w []
  | erase {w' : View} {gone : List InstId} {i : InstId} (h : Erases w P w' gone)
    (hi : w'.Dead i) (hP : P i) :
    Erases w P (w'.discard i) (gone ++ [i])

theorem Erases.swept (h : w.Erases P w' gone) (hs : w.Shape) : w'.Shape ∧ w.Swept w' gone ∧
    ∀ i ∈ gone, P i := by
  induction h with
  | refl => exact ⟨hs, .refl w, nofun⟩
  | erase _ hi hP ih =>
    obtain ⟨hs', hswept, hgone⟩ := ih
    exact ⟨hs'.discard _, hswept.erase (hs'.insts.placed _) hi,
      forall_mem_append.mpr ⟨hgone, forall_mem_singleton.mpr hP⟩⟩

/-- Whatever the order, once no instruction of the function is dead the doomed ones are gone, and no
others. -/
theorem Erases.mem_iff (h : w.Erases (w.instFunc · = some f) w' gone) (hs : w.Shape)
    (hdone : ∀ i, w.instFunc i = some f → ¬ w'.Dead i) : i ∈ gone ↔ w.Doomed f i := by
  obtain ⟨-, hswept, hfunc⟩ := h.swept hs
  constructor
  · refine hswept.induct (w.Doomed f) (fun j hj hused =>
      .intro (hswept.live j hj) (hfunc j hj) (hswept.idle j hj) hused
      fun b args hargs hread => ?_) i
    exact hswept.unread j hj (reads_iff.mpr (.inr ⟨b, args, hswept.opens ▸ hargs, hread⟩))
  · intro hi
    induction hi with
    | @intro i live func idle used closed ih =>
      by_contra hkept
      obtain ⟨b, hb, -⟩ := Option.bind_eq_some_iff.mp func
      refine hdone i func ⟨?_, ⟨b, ?_⟩, fun hread => ?_, (hswept.hasEffects hkept).trans idle⟩
      · rw [hswept.inst i hkept]
        exact live
      · rw [hswept.inst i hkept]
        exact hb
      · rcases reads_iff.mp hread with ⟨j, hj⟩ | ⟨b, args, hargs, hread⟩
        · by_cases hgone : j ∈ gone
          · obtain ⟨-, -, hreads, hexits⟩ := hswept.erased j hgone
            simp [usedBy_iff, hreads, hexits] at hj
          · exact hgone (ih j ((hswept.usedBy hgone).mp hj))
        · exact closed b args (hswept.opens ▸ hargs) hread

theorem Dead.of_discard (h : (w.discard i).Dead j) : j ≠ i ∧ (w.Dead j ∨ w.UsedBy (.inst j) i) := by
  obtain ⟨live, placed, unread, idle⟩ := h
  have hji : j ≠ i := by
    rintro rfl
    rw [inst_discard, if_pos rfl] at live
    cases live
  have hinst : (w.discard i).inst j = w.inst j := by rw [inst_discard, if_neg hji]
  have hreads : (w.discard i).reads j = w.reads j := by rw [reads_discard, if_neg hji]
  refine ⟨hji, or_iff_not_imp_right.mpr fun hnot =>
    ⟨hinst ▸ live, hinst ▸ placed, fun hread => unread ?_, ?_⟩⟩
  · refine reads_iff.mpr ((reads_iff.mp hread).imp_left fun ⟨k, hk⟩ =>
      ⟨k, usedBy_discard.mpr ⟨?_, hk⟩⟩)
    rintro rfl
    exact hnot hk
  · rw [← hasEffects_congr hinst (callee_congr hinst hreads) rfl]
    exact idle

theorem Dead.exits (h : w.Dead i) (hs : w.Shape) : w.exits i = [] := by
  refine eq_nil_of_length_eq_zero ((hs.formed.exits i h.live).trans ?_)
  have hidle := h.idle
  unfold hasEffects at hidle
  revert hidle
  cases (w.inst i).op <;> simp [Opcode.exits]

end Midlevel.Ir.View

namespace Midlevel.Pass

open Ir
open List hiding after

variable {w₀ : View} {P : InstId → Prop} {f : FuncId}
variable {m : Module} {i : InstId} {s : Builder}

theorem isTriviallyDead_iff (hm : m.Linked) : isTriviallyDead m i = true ↔ m.view.Dead i := by
  unfold isTriviallyDead Module.isDead
  simp only [Bool.and_eq_true, Bool.not_eq_true', Option.isSome_iff_exists, List.isEmpty_iff]
  rw [← Module.hasEffects_view]
  have hunread : (m.insts.get i).uses = [] ↔ ¬ m.view.Reads (.inst i) :=
    hm.uses_eq_nil (v := .inst i)
  rw [hunread]
  exact ⟨fun ⟨⟨hlive, hplaced⟩, hunread, hidle⟩ => ⟨hlive, hplaced, hunread, hidle⟩, fun h =>
    ⟨⟨h.live, h.placed⟩, h.unread, h.idle⟩⟩

theorem mem_producers {j : InstId} : j ∈ producers m i ↔ some (.inst j) ∈ m.view.reads i := by
  unfold producers
  rw [mem_filterMap]
  constructor
  · rintro ⟨v, hv, hj⟩
    split at hj
    · exact Option.some.inj hj ▸ hv
    · cases hj
  · exact fun h => ⟨_, h, rfl⟩

/-! ### Enough steps -/

theorem length_flatMap_add_le {α β : Type} {xs : List α} {x : α} {g g' : α → List β} (hx : x ∈ xs)
    (hle : ∀ y, (g' y).length ≤ (g y).length) :
    (xs.flatMap g').length + (g x).length ≤ (xs.flatMap g).length + (g' x).length := by
  have hmono (ys : List α) : (ys.flatMap g').length ≤ (ys.flatMap g).length := by
    induction ys with
    | nil => exact Nat.le_refl _
    | cons y ys ih =>
      rw [flatMap_cons, flatMap_cons, length_append, length_append]
      exact Nat.add_le_add (hle y) ih
  obtain ⟨ys, zs, rfl⟩ := append_of_mem hx
  have hys := hmono ys
  have hzs := hmono zs
  simp only [flatMap_append, flatMap_cons, length_append]
  omega

/-- Erasing an instruction pays for the producers that it puts on the stack. -/
theorem deadCodeSteps_discard {m' : Module} (hi : m.insts.Has i) (h : m'.view = m.view.discard i)
    {freed work : List InstId} (hfreed : freed.length ≤ (producers m i).length) :
    deadCodeSteps m' (freed ++ work) < deadCodeSteps m (i :: work) := by
  have hsteps (m : Module) : (m.insts.ids.flatMap fun i => (m.insts.get i).operands).length =
      ((range m.view.insts).flatMap fun n => m.view.reads ⟨n⟩).length := by
    rw [Pool.ids, flatMap_map]
    exact ((congrArg length map_flatMap).symm.trans (length_map _)).symm
  have hproducers : (producers m i).length ≤ (m.view.reads i).length := length_filterMap_le ..
  have htotal : ((range m.view.insts).flatMap fun n => (m.view.discard i).reads ⟨n⟩).length +
      (m.view.reads i).length ≤ ((range m.view.insts).flatMap fun n => m.view.reads ⟨n⟩).length +
      ((m.view.discard i).reads i).length := by
    have hmem : i.index ∈ range m.view.insts := mem_range.mpr hi
    refine length_flatMap_add_le (g := fun n => m.view.reads ⟨n⟩) hmem fun n => ?_
    rw [View.reads_discard]
    split
    · exact Nat.zero_le _
    · exact Nat.le_refl _
  have hgone : (m.view.discard i).reads i = [] := (View.reads_discard ..).trans (if_pos rfl)
  have hinsts : (m.view.discard i).insts = m.view.insts := rfl
  rw [hgone] at htotal
  simp only [deadCodeSteps, hsteps, h, hinsts, length_append, length_cons, length_nil] at htotal ⊢
  omega

/-! ### The stack -/

/-- A dead instruction is erased, unless it stands in a block that does not list it. -/
theorem wp_eraseOne (hs : s.Sound) (hi : s.module.view.Dead i) :
    wp (Build.erase (some i)) (fun _ u => u.Sound ∧ u.module.view = s.module.view.discard i)
      (fun fault _ => (∃ e, fault = .error e) ∧ ∃ b, (s.module.view.inst i).block = some b ∧
      i ∉ (s.module.view.block b).insts) s := by
  obtain ⟨b, hb⟩ := hi.placed
  have hb' : (s.module.insts.get i).block = some b := hb
  refine wp_mono (wp_and ((tries_erase hs (some i)).keeps hs)
    (?_ : wp _ (fun _ u => u.module.view = _) _ s))
    (fun _ u h => ⟨h.1.sound, h.2⟩) fun _ _ h => h.2
  rw [Build.erase, wp_bind, Build.wp_inst, hb']
  refine Build.wp_eraseFrom hs.linked (fun e hbad => ?_) (fun c _ hread => absurd hread hi.unread)
    fun m' _ _ hview => hview
  exact ⟨⟨e, rfl⟩, b, hb, fun hmem => hbad ⟨hb', hmem⟩⟩

/-- The instructions in `gone` were erased and counted. -/
structure Sweeping (w₀ : View) (P : InstId → Prop) (stats : Stats) (s : Workspace)
    (gone : List InstId) : Prop where
  sound : s.builder.Sound
  erases : w₀.Erases P s.builder.module.view gone
  counted : s.stats = { stats with insts := stats.insts + gone.length }

theorem wp_eraseDead {stats : Stats} (hw : w₀.Shape)
    (hP : ∀ i, P i → ∀ j, w₀.UsedBy (.inst j) i → P j) (steps : Nat)
    {work : List InstId} (hwork : ∀ i ∈ work, P i) {s : Workspace} {gone : List InstId}
    (h : Sweeping w₀ P stats s gone) :
    wp (eraseDead steps work) (fun _ t => ∃ gone, Sweeping w₀ P stats t gone ∧
        (deadCodeSteps s.module work ≤ steps → (∀ i, P i → s.module.view.Dead i → i ∈ work) →
          ∀ i, P i → ¬ t.module.view.Dead i))
      (fun fault _ => (∃ e, fault = .error e) ∧ ∃ i b, P i ∧ (w₀.inst i).block = some b ∧
      i ∉ (w₀.block b).insts) s := by
  -- All dead instructions are on the stack, and each step is paid for by an entry of it or an
  -- operand.
  induction steps generalizing work s gone with
  | zero =>
    refine ⟨gone, h, fun hsteps hall i hi hdead => ?_⟩
    have hempty : work = [] := eq_nil_of_length_eq_zero (by unfold deadCodeSteps at hsteps; omega)
    exact absurd (hall i hi hdead) (by simp [hempty])
  | succ steps ih =>
    cases work with
    | nil => exact ⟨gone, h, fun _ hall i hi hdead => absurd (hall i hi hdead) not_mem_nil⟩
    | cons i work =>
      obtain ⟨hi, hwork⟩ := forall_mem_cons.mp hwork
      rw [eraseDead, wp_bind, Transform.wp_module, wp_ite]
      refine ⟨fun hdead => ?_, fun hdead => ?_⟩
      · rw [isTriviallyDead_iff h.sound.linked] at hdead
        obtain ⟨-, hswept, -⟩ := h.erases.swept hw
        rw [wp_bind, Transform.wp_build]
        refine wp_mono (wp_eraseOne h.sound hdead) ?_ ?_
        · rintro _ u ⟨hu, hview⟩
          have hnext : Sweeping w₀ P stats
            { s with builder := u, stats := { s.stats with insts := s.stats.insts + 1 } }
              (gone ++ [i]) := ⟨hu, hview ▸ h.erases.erase hdead hi,
                by simp [h.counted, Int.add_assoc]⟩
          have hfreed : ∀ j ∈ ((producers s.module i).filter (isTriviallyDead u.module)).reverse,
              P j := by
            intro j hj
            have hread := mem_producers.mp (mem_filter.mp (mem_reverse.mp hj)).1
            rw [hswept.reads i (hswept.not_mem hdead.live)] at hread
            exact hP i hi j (View.usedBy_iff.mpr (.inl hread))
          refine wp_mono (ih (forall_mem_append.mpr ⟨hfreed, hwork⟩) hnext) ?_ fun _ _ hE => hE
          rintro _ t ⟨gone', ht, hdone⟩
          refine ⟨gone', ht, fun hsteps hall => hdone ?_ fun j hj hdead' => ?_⟩
          · obtain ⟨b, hb⟩ := hdead.placed
            refine Nat.le_of_lt_succ (Nat.lt_of_lt_of_le
              (deadCodeSteps_discard (Module.has_of_instBlock hb) hview ?_) hsteps)
            rw [length_reverse]
            exact length_filter_le ..
          · have hdead'' := hdead'
            rw [show u.module.view = _ from hview] at hdead''
            obtain ⟨hji, hold | hused⟩ := hdead''.of_discard
            · exact mem_append_right _ ((mem_cons.mp (hall j hj hold)).resolve_left hji)
            · refine mem_append_left _ (mem_reverse.mpr (mem_filter.mpr ⟨mem_producers.mpr ?_, ?_⟩))
              · simpa [View.usedBy_iff, hdead.exits h.sound.shape] using hused
              · exact (isTriviallyDead_iff hu.linked).mpr hdead'
        · rintro fault u ⟨herror, b, hb, hnot⟩
          have hkept := hswept.not_mem hdead.live
          rw [hswept.inst i hkept] at hb
          rw [hswept.block] at hnot
          exact ⟨herror, i, b, hi, hb,
            fun hmem => hnot (mem_filter.mpr ⟨hmem, decide_eq_true hkept⟩)⟩
      · refine wp_mono (ih hwork h) ?_ fun _ _ hE => hE
        rintro _ t ⟨gone', ht, hdone⟩
        refine ⟨gone', ht, fun hsteps hall => hdone ?_ fun j hj hdead' => ?_⟩
        · exact Nat.le_of_lt_succ (Nat.lt_of_lt_of_le (by simp [deadCodeSteps]) hsteps)
        · refine (mem_cons.mp (hall j hj hdead')).resolve_left ?_
          rintro rfl
          exact hdead ((isTriviallyDead_iff h.sound.linked).mpr hdead')

theorem Sweeping.start {s : Workspace} (hs : s.builder.Sound) : Sweeping s.view P s.stats s [] :=
  ⟨hs, .refl, by simp⟩

/-- Dead code is erased. Only a module with a loose instruction can make the pass fail. -/
theorem wp_eliminateDeadCode {s : Workspace} (hs : s.builder.Sound) (f : FuncId) :
    wp (eliminateDeadCode f)
      (fun _ t => t.builder.Sound ∧ ∃ gone, s.view.Swept t.view gone)
      (fun fault _ => (∃ e, fault = .error e) ∧ ¬ s.view.Attached) s := by
  refine wp_mono (wp_eraseDead hs.shape (fun _ _ _ _ => trivial) _ (fun _ _ => trivial)
    (.start hs)) ?_ ?_
  · rintro _ t ⟨gone, ht, -⟩
    exact ⟨ht.sound, gone, (ht.erases.swept hs.shape).2.1⟩
  · rintro fault _ ⟨herror, i, b, -, hb, hnot⟩
    exact ⟨herror, fun hattached => hnot (hattached.mem hs.shape.insts hb)⟩

/-! ### Verified functions -/

theorem mem_funcInsts (hs : s.Sound) : i ∈ s.module.funcInsts f ↔ s.view.instFunc i = some f := by
  constructor
  · intro hi
    obtain ⟨b, hb, hi⟩ := mem_flatMap.mp hi
    exact Option.bind_eq_some_iff.mpr ⟨b, hs.insts b i hi, (hs.shape.blocks.mem_iff f b).mp hb⟩
  · intro hi
    obtain ⟨b, hb, hfunc⟩ := Option.bind_eq_some_iff.mp hi
    refine mem_flatMap.mpr ⟨b, (hs.shape.blocks.mem_iff f b).mpr hfunc, hs.ended.listed i b hb ?_⟩
    simp [hfunc]

theorem func_of_usedBy (hs : s.Sound) (hf : s.module.verifyFunc f = .ok []) (i : InstId)
    (hi : s.view.instFunc i = some f) (j : InstId) (hj : s.view.UsedBy (.inst j) i) :
    s.view.instFunc j = some f := by
  have hdefined : (s.module.funcs.get f).defined = true := by
    obtain ⟨b, -, hfunc⟩ := Option.bind_eq_some_iff.mp hi
    by_contra hnot
    have hempty := hs.shape.blocks.undefined f (Bool.not_eq_true _ ▸ hnot)
    have hb := (hs.shape.blocks.mem_iff f b).mpr hfunc
    rw [hempty] at hb
    cases hb
  have hverified := Module.verified_of_verifyFunc hs.linked hs.shape hs.ended.listed hdefined hf
  obtain ⟨u, hu, hlive⟩ := hverified.values i hi _ hj
  exact (hlive j (Option.some.inj hu).symm).2

/-- The pass erases the doomed instructions of a verified function, whatever order it takes, and
nothing else: all others stay as they are and where they are. It counts them, and a second run finds
nothing to do. -/
theorem dead_code_erased_exactly {s : Workspace} (h : Built s.builder)
    (hf : s.builder.module.verifyFunc f = .ok []) :
    let w := s.builder.module.view
    ∃ t gone, (eliminateDeadCode f).run.run s = (.ok (), t) ∧ w.Swept t.builder.module.view gone ∧
      (∀ i, i ∈ gone ↔ w.Doomed f i) ∧
        t.stats = { s.stats with insts := s.stats.insts + gone.length } ∧
      (∀ i ∈ t.builder.module.funcInsts f, isTriviallyDead t.builder.module i = false) ∧
      (eliminateDeadCode f).run.run t = (.ok (), t) ∧
      ∀ w' gone', w.Erases (w.instFunc · = some f) w' gone' →
        (∀ i, w.instFunc i = some f → ¬ w'.Dead i) →
        ∀ i, i ∈ gone' ↔ w.Doomed f i := by
  intro w
  have hs := h.sound
  have hwp : wp (eliminateDeadCode f)
      (fun _ t => ∃ gone, Sweeping w (w.instFunc · = some f) s.stats t gone ∧
        ∀ i, w.instFunc i = some f → ¬ t.builder.module.view.Dead i) (fun _ _ => False) s := by
    rw [eliminateDeadCode, wp_bind, Transform.wp_module]
    refine wp_mono (wp_eraseDead hs.shape (func_of_usedBy hs hf) _ (fun i hi => ?_)
      (.start hs)) ?_ ?_
    · exact (mem_funcInsts hs).mp (mem_filter.mp (mem_reverse.mp hi)).1
    · rintro _ t ⟨gone, ht, hdone⟩
      refine ⟨gone, ht, hdone .refl fun i hi hdead => mem_reverse.mpr (mem_filter.mpr ⟨?_, ?_⟩)⟩
      · exact (mem_funcInsts hs).mpr hi
      · exact (isTriviallyDead_iff hs.linked).mpr hdead
    · rintro _ _ ⟨-, i, b, hi, hb, hnot⟩
      obtain ⟨b', hb', hfunc⟩ := Option.bind_eq_some_iff.mp hi
      obtain rfl := Option.mem_unique hb hb'
      exact hnot (hs.ended.listed i b hb (by simp [hfunc]))
  obtain ⟨_, t, hrun, gone, ht, hdone⟩ := exists_run_of_wp hwp
  have hswept := (ht.erases.swept hs.shape).2.1
  have hnone : ∀ i ∈ t.builder.module.funcInsts f, isTriviallyDead t.builder.module i = false := by
    intro i hi
    rw [mem_funcInsts ht.sound] at hi
    refine Bool.eq_false_iff.mpr fun hdead => ?_
    rw [isTriviallyDead_iff ht.sound.linked] at hdead
    refine hdone i ?_ hdead
    obtain ⟨b, hb, hfunc⟩ := Option.bind_eq_some_iff.mp hi
    rw [hswept.inst i (hswept.not_mem hdead.live)] at hb
    rw [hswept.block] at hfunc
    exact Option.bind_eq_some_iff.mpr ⟨b, hb, hfunc⟩
  refine ⟨t, gone, hrun, hswept, fun i => ht.erases.mem_iff hs.shape hdone, ht.counted, hnone, ?_,
      fun w gone' hw hdone' i =>
    hw.mem_iff hs.shape hdone'⟩
  have hempty : (t.builder.module.funcInsts f).filter (isTriviallyDead t.builder.module) = [] :=
    filter_eq_nil_iff.mpr fun i hi => by simp [hnone i hi]
  show (eraseDead _ ((t.builder.module.funcInsts f).filter
    (isTriviallyDead t.builder.module)).reverse).run.run t = _
  rw [hempty]
  cases deadCodeSteps t.builder.module [].reverse <;> rfl

/-- A function that returns a literal, after another one that nothing reads. -/
def idling : Builder := after (Build.boolLiteral true) (after (Build.positionBefore ⟨0⟩) settled)

/-- The literal is erased and counted. -/
theorem idle_literal_erased : Built idling ∧ idling.module.verifyFunc ⟨0⟩ = .ok [] ∧
    ∃ t, ∃ gone : List InstId, (eliminateDeadCode ⟨0⟩).run.run { builder := idling } = (.ok (), t) ∧
      (∀ i, i ∈ gone ↔ idling.module.view.Doomed ⟨0⟩ i) ∧ t.stats = { insts := 1 } ∧
      gone.length = 1 := by
  have hbuilt : Built idling := built_after (built_after built_settled)
  have hverified : idling.module.verifyFunc ⟨0⟩ = .ok [] := eq_nil_of_checked (by decide +kernel)
  obtain ⟨t, gone, hrun, -, hgone, hstats, -⟩ :=
    dead_code_erased_exactly (s := { builder := idling }) hbuilt hverified
  have hcount : ((eliminateDeadCode ⟨0⟩).run.run { builder := idling }).2.stats = { insts := 1 } :=
    by decide +kernel
  rw [hrun] at hcount
  refine ⟨hbuilt, hverified, t, gone, hrun, hgone, hcount, ?_⟩
  have hlength := congrArg Stats.insts (hstats.symm.trans hcount)
  exact Int.ofNat.inj (by simpa using hlength)

end Midlevel.Pass
