import Midlevel.Proofs.Ir.Ended
import Midlevel.Proofs.Ir.Verified

/-!
What the clean-up of control flow works on and keeps. `Runnable` is what it needs of a function: one
that the verifier accepts, and in which every value is defined before it is read. `Enclosed` is what
it takes besides for the clean-up to get through, as a function may be entangled with the rest of
its module; `Guarded` is the part of it that has to do with branches. `Refines` relates the code
before and after.
-/

namespace Midlevel.Ir.View

open Midlevel.Flow List
open Pass (Exit)

variable {b : BlockId}
variable {i : InstId}

structure Accepted (w : View) (f : FuncId) : Prop where
  shape : w.Shape
  ended : w.Ended
  /-- A branch has no result that one could read. -/
  unread : ∀ i, (w.inst i).op.isTerminator = true → ¬ w.Reads (.inst i)
  verified : w.Verified f

structure Runnable (w : View) (f : FuncId) : Prop extends Accepted w f where
  certified : ∃ av, Available (w.graph f) av

structure Guarded (w : View) (f : FuncId) : Prop where
  cond : ∀ i, w.instFunc i = some f → (w.inst i).op = .condBr → ∀ v, some v ∈ w.reads i →
    w.valueType v = .bool
  branches : ∀ i, ∀ x ∈ w.exits i, ∀ b ∈ (w.func f).blocks.tail, x.target = some b →
    w.instFunc i = some f

/-- The inner blocks of a function, all but the first, are not used from outside, and what its
branches depend on is a boolean. -/
structure Enclosed (w : View) (f : FuncId) : Prop where
  cond : ∀ i, w.instFunc i = some f → (w.inst i).op = .condBr → ∀ v, some v ∈ w.reads i →
    w.valueType v = .bool
  branches : ∀ i, ∀ x ∈ w.exits i, ∀ b ∈ (w.func f).blocks.tail, x.target = some b →
    w.instFunc i = some f
  values : ∀ i, ∀ b ∈ (w.func f).blocks.tail, ∀ v, w.Defines b v → some v ∈ (w.line i).values →
    w.instFunc i = some f
  opens : ∀ c, ∀ args ∈ w.opens c, ∀ b ∈ (w.func f).blocks.tail, ∀ v, w.Defines b v → some v ∉ args

theorem Enclosed.guarded {w : View} {f : FuncId} (h : w.Enclosed f) : w.Guarded f :=
  ⟨h.cond, h.branches⟩

/-- The code of `f` in `w'` does what that in `w` did, but for literals that were erased. -/
structure Refines (f : FuncId) (w w' : View) : Prop where
  enclosed : w.Enclosed f → w'.Enclosed f
  literal : ∀ i, (w'.inst i).op = .boolLiteral → (w.inst i).op = .boolLiteral
  erased : ∀ i, (w.inst i).erased = true → (w'.inst i).erased = true
  same : ∃ dropped : InstId → Bool,
    (∀ i, dropped i = true → (w.inst i).op = .boolLiteral ∧ (w'.inst i).erased = true) ∧
    Same dropped (w.graph f) (w'.graph f)

variable {f : FuncId} {w w' w'' : View}

theorem Refines.refl (f : FuncId) (w : View) : Refines f w w :=
  ⟨id, fun _ => id, fun _ => id, nothing, fun _ h => absurd h Bool.false_ne_true, .refl _⟩

theorem Refines.trans (h : Refines f w w') (h' : Refines f w' w'') : Refines f w w'' := by
  obtain ⟨p, hp, hsame⟩ := h.same
  obtain ⟨q, hq, hsame'⟩ := h'.same
  refine ⟨h'.enclosed ∘ h.enclosed, fun i hi => h.literal i (h'.literal i hi),
    fun i hi => h'.erased i (h.erased i hi), _, fun i hi => ?_, hsame.trans hsame'⟩
  rcases Bool.or_eq_true _ _ ▸ hi with hi | hi
  · exact ⟨(hp i hi).1, h'.erased i (hp i hi).2⟩
  · exact ⟨h.literal i (hq i hi).1, (hq i hi).2⟩

theorem Refines.of_same (henclosed : w.Enclosed f → w'.Enclosed f)
    (hliteral : ∀ i, (w'.inst i).op = .boolLiteral → (w.inst i).op = .boolLiteral)
    (herased : ∀ i, (w.inst i).erased = true → (w'.inst i).erased = true)
    (hsame : Same nothing (w.graph f) (w'.graph f)) : Refines f w w' :=
  ⟨henclosed, hliteral, herased, nothing, fun _ h => absurd h Bool.false_ne_true, hsame⟩

namespace Accepted

variable (h : w.Accepted f)
include h

theorem exists_mem (hi : w.instFunc i = some f) : ∃ b, i ∈ (w.block b).insts ∧
    (w.block b).func = some f := by
  obtain ⟨b, hb, hfunc⟩ := Option.bind_eq_some_iff.mp hi
  exact ⟨b, h.ended.listed i b hb (by simp [hfunc]), hfunc⟩

theorem func_of_reachable (hb : (w.graph f).Reachable b) : (w.block b).func = some f := by
  obtain ⟨bs, hbs⟩ := hb
  induction hbs with
  | start =>
    obtain ⟨e, rest, hblocks⟩ := exists_cons_of_ne_nil h.verified.nonempty
    have hentry : (w.graph f).entry = e := by
      show (w.func f).blocks.head?.getD default = e
      rw [hblocks]
      rfl
    rw [hentry, ← h.shape.blocks.mem_iff, hblocks]
    exact mem_cons_self
  | step _ ht ih =>
    obtain ⟨l, hl, x, hx, htarget⟩ := ht
    obtain ⟨i, hi, rfl⟩ := mem_map.mp hl
    obtain ⟨u, hu, hfunc, -⟩ :=
      h.verified.exits i ((instFunc_of_mem h.shape.insts hi).trans ih) x hx
    obtain rfl := Option.mem_unique htarget hu
    exact hfunc

theorem blocks_eq : (w.func f).blocks = (w.graph f).entry :: (w.func f).blocks.tail := by
  obtain ⟨e, rest, hblocks⟩ := exists_cons_of_ne_nil h.verified.nonempty
  show _ = (w.func f).blocks.head?.getD default :: _
  rw [hblocks]
  rfl

theorem inner (hb : (w.block b).func = some f) (hne : b ≠ (w.graph f).entry) :
    b ∈ (w.func f).blocks.tail := by
  have hmem := (h.shape.blocks.mem_iff f b).mpr hb
  rw [h.blocks_eq] at hmem
  exact (mem_cons.mp hmem).resolve_left hne

theorem ends (b : BlockId) (hb : (w.graph f).Reachable b) :
    ∃ init t, Ending ((w.graph f).lines b) init t := by
  obtain ⟨init, t, hc⟩ := h.verified.closed b (h.func_of_reachable hb)
  exact ⟨_, _, hc.ending f⟩

theorem unique : (w.graph f).Unique := h.shape.unique f

end Accepted

theorem Accepts.congr {args : Args} (h : w.Accepts b args)
    (hparams : (w'.block b).params = (w.block b).params) (hparam : w'.param = w.param)
    (htype : ∀ v, some v ∈ args → w'.valueType v = w.valueType v) : w'.Accepts b args := by
  rw [Accepts, List.forall₂_iff_zip] at h ⊢
  rw [hparams]
  refine ⟨h.1, fun {a p} hap => ?_⟩
  obtain ⟨v, rfl, hv⟩ := h.2 hap
  exact ⟨v, rfl, by rw [htype v (of_mem_zip hap).1, hparam, hv]⟩

/-! ### The next instruction -/

/-- Nothing is known of the instruction that is made next. -/
structure NextFree (w : View) : Prop where
  block : (w.inst w.nextInst).block = none
  erased : (w.inst w.nextInst).erased = false
  unread : ¬ w.Reads (.inst w.nextInst)
  entered : w.entered w.nextInst

theorem nextFree {m : Module} (h : m.Linked) : m.view.NextFree := by
  have hx : m.insts.get m.view.nextInst = default := Pool.get_of_not_has (Nat.lt_irrefl _)
  refine ⟨m.unused.inst, ?_, fun hr => Nat.lt_irrefl _ (h.hasValue_of_reads hr), fun e he => ?_⟩
  · show (m.insts.get m.view.nextInst).erased = false
    rw [hx]
    rfl
  · rw [hx] at he
    cases he

theorem Accepted.mem_edges {m : Module} (h : m.Linked) (hrun : m.view.Accepted f)
    (hi : m.view.instFunc i = some f)
    {e : EdgeId} (he : e ∈ (m.insts.get i).targets) (hb : (m.edges.get e).target = some b) :
    e ∈ (m.blocks.get b).edges := by
  obtain ⟨c, hc⟩ := hrun.verified.entered i hi e he
  obtain rfl := Option.some.inj ((h.incoming c e hc).1.symm.trans hb)
  exact hc

end Midlevel.Ir.View
