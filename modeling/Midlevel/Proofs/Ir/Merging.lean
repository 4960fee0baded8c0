import Midlevel.Proofs.Ir.Applications
import Midlevel.Proofs.Ir.Verified

/-!
Blocks that are appended to the block before them. The parameters are replaced one after the other,
each by what the branch passes for it. That is the same as replacing them all at once, unless the
branch passes parameters of the very block it leads to, as it can in a cycle that nothing enters.
-/

namespace Midlevel.Ir

open Build Midlevel.Ir.Module List Option
open Pass (Exit exitsOf)

variable {P : Value → Prop} {v : Value} {c : BlockId} (swapped : Bool)

/-! ### Substitution -/

section SubstituteAll

variable {xs : List (ParamId × Option Value)}

theorem substituteAll_none (xs : List (ParamId × Option Value)) : substituteAll xs none = none := by
  induction xs with
  | nil => rfl
  | cons x xs ih =>
    obtain ⟨p, _ | a⟩ := x
    · exact ih
    · rw [substituteAll, substitute, if_neg (some_ne_none _).symm, ih]

theorem substituteAll_of_not_mem (hv : ∀ x ∈ xs, v ≠ .param x.1) :
    substituteAll xs (some v) = some v := by
  induction xs with
  | nil => rfl
  | cons x xs ih =>
    have ih := ih (forall_mem_cons.mp hv).2
    have hne := hv x mem_cons_self
    obtain ⟨p, _ | a⟩ := x
    · exact ih
    · rw [substituteAll, substitute, if_neg fun heq => hne (some.inj heq), ih]

/-- Something stays, and what holds of a parameter only if it holds of its argument is kept. -/
theorem exists_substituteAll (hP : ∀ p a, (p, a) ∈ xs → ∃ u, a = some u ∧ (P (.param p) → P u))
    (hv : P v) : ∃ u, substituteAll xs (some v) = some u ∧ P u := by
  induction xs generalizing v with
  | nil => exact ⟨v, rfl, hv⟩
  | cons x xs ih =>
    obtain ⟨p, o⟩ := x
    obtain ⟨a, rfl, ha⟩ := hP p o mem_cons_self
    have ih := fun {v} => @ih v fun q b hb => hP q b (mem_cons_of_mem _ hb)
    rw [substituteAll, substitute]
    split
    · next heq => exact ih (ha (some.inj heq ▸ hv))
    · exact ih hv

theorem substituteAll_param {p : ParamId} {a : Value} (hnodup : (xs.map Prod.fst).Nodup)
    (hx : (p, some a) ∈ xs) (ha : ∀ x ∈ xs, a ≠ .param x.1) :
    substituteAll xs (some (.param p)) = some a := by
  induction xs with
  | nil => cases hx
  | cons x xs ih =>
    obtain ⟨q, o⟩ := x
    rw [map_cons, nodup_cons] at hnodup
    have hrest : ∀ x ∈ xs, a ≠ .param x.1 := (forall_mem_cons.mp ha).2
    rcases mem_cons.mp hx with heq | hmem
    · obtain ⟨rfl, rfl⟩ := Prod.mk.inj heq
      rw [substituteAll, substitute, if_pos rfl]
      exact substituteAll_of_not_mem hrest
    · have ih := ih hnodup.2 hmem hrest
      have hne : p ≠ q := by
        rintro rfl
        exact hnodup.1 (mem_map.mpr ⟨_, hmem, rfl⟩)
      cases o with
      | none => exact ih
      | some b =>
        rw [substituteAll, substitute, if_neg fun heq => hne (Value.param.inj (some.inj heq))]
        exact ih

/-- Arguments in the place of parameters, all at once. -/
def atOnce : List (ParamId × Option Value) → Option Value → Option Value
  | [], x => x
  | (p, a) :: rest, x => if x = some (.param p) then a else atOnce rest x

theorem substituteAll_eq_atOnce (hxs : ∀ x ∈ xs, ∃ u, x.2 = some u ∧ ∀ y ∈ xs, u ≠ .param y.1)
    (x : Option Value) :
    substituteAll xs x = atOnce xs x := by
  induction xs with
  | nil => rfl
  | cons y ys ih =>
    obtain ⟨p, o⟩ := y
    obtain ⟨a, rfl, ha⟩ := hxs _ mem_cons_self
    rw [substituteAll, atOnce, substitute]
    split
    · exact substituteAll_of_not_mem (forall_mem_cons.mp ha).2
    · refine ih fun y hy => ?_
      obtain ⟨u, hu, hne⟩ := hxs y (mem_cons_of_mem _ hy)
      exact ⟨u, hu, (forall_mem_cons.mp hne).2⟩

theorem eq_of_atOnce {x : Option Value} (hxs : ∀ y ∈ xs, y.2 ≠ some v) (hx : atOnce xs x = some v) :
    x = some v ∧ ∀ y ∈ xs, v ≠ .param y.1 := by
  induction xs with
  | nil => exact ⟨hx, fun _ hy => (not_mem_nil hy).elim⟩
  | cons y ys ih =>
    obtain ⟨hy, hys⟩ := forall_mem_cons.mp hxs
    rw [atOnce] at hx
    split at hx
    · exact (hy hx).elim
    · next hne =>
      obtain ⟨rfl, hrest⟩ := ih hys hx
      exact ⟨rfl, forall_mem_cons.mpr ⟨fun heq => hne (congrArg some heq), hrest⟩⟩

theorem atOnce_ne_param {ps : List ParamId} {args : Args} {p : ParamId} (hp : p ∈ ps)
    (hlength : args.length = ps.length) (hargs : some (.param p) ∉ args) (x : Option Value) :
    atOnce (ps.zip args) x ≠ some (.param p) := by
  intro hx
  have hkeys := (eq_of_atOnce (fun y hy heq => hargs (heq ▸ (of_mem_zip hy).2)) hx).2
  rw [← map_fst_zip hlength.ge] at hp
  obtain ⟨y, hy, rfl⟩ := mem_map.mp hp
  exact hkeys y hy rfl

end SubstituteAll

namespace View

/-- Arguments in the place of the parameters of a block. -/
def passed (w : View) (s : BlockId) (args : List Value) : Option Value → Option Value :=
  substituteAll ((w.block s).params.zip (args.map some))

section Passed

variable (w : View) (p s : BlockId) (t : InstId) (args : List Value)

theorem reads_merge (i : InstId) : (w.merge p s t (args.map some)).reads i =
    if i = t then [] else (w.reads i).map (w.passed s args) := by
  show ((w.discard t).reads i).map (w.passed s args) = _
  rw [reads_discard]
  split <;> rfl

theorem exits_merge (i : InstId) : (w.merge p s t (args.map some)).exits i =
    if i = t then [] else (w.exits i).map fun x =>
    { x with args := x.args.map (w.passed s args) } := by
  show ((w.discard t).exits i).map (fun x => { x with args := x.args.map (w.passed s args) }) = _
  rw [exits_discard]
  split <;> rfl

variable {w p s t args}

theorem exits_of_merge {i : InstId} {x : Exit} (hx : x ∈ (w.merge p s t (args.map some)).exits i) :
    i ≠ t ∧ ∃ y ∈ w.exits i, { y with args := y.args.map (w.passed s args) } = x := by
  rw [exits_merge] at hx
  split at hx
  · cases hx
  · next hi => exact ⟨hi, mem_map.mp hx⟩

theorem mem_args {q : ParamId} {a : Option Value}
    (hx : (q, a) ∈ (w.block s).params.zip (args.map some)) :
    ∃ u, a = some u ∧ u ∈ args := by
  obtain ⟨u, hu, rfl⟩ := mem_map.mp (of_mem_zip hx).2
  exact ⟨u, rfl, hu⟩

theorem passed_of_not_param (hv : ∀ q ∈ (w.block s).params, v ≠ .param q) :
    w.passed s args (some v) = some v :=
  substituteAll_of_not_mem fun _ hx => hv _ (of_mem_zip hx).1

variable (w s args) in
/-- What reads get instead is what they got, or what the branch passed for it. -/
theorem exists_passed (hv : P v)
    (hP : ∀ q u, (q, some u) ∈ (w.block s).params.zip (args.map some) → P (.param q) → P u) :
    ∃ u, w.passed s args (some v) = some u ∧ P u :=
  exists_substituteAll (fun q a hx => by
    obtain ⟨u, rfl, -⟩ := mem_args hx
    exact ⟨u, rfl, hP q u hx⟩) hv

end Passed

theorem passed_eq_atOnce {w : View} {s : BlockId} {args : List Value}
    (hargs : ∀ q ∈ (w.block s).params, some (.param q) ∉ args.map some) :
    w.passed s args = atOnce ((w.block s).params.zip (args.map some)) := by
  refine funext (substituteAll_eq_atOnce fun x hx => ?_)
  obtain ⟨u, hu, hmem⟩ := mem_args hx
  exact ⟨u, hu, fun y hy heq => hargs y.1 (of_mem_zip hy).1 (heq ▸ mem_map_of_mem hmem)⟩

structure Folding (w : View) (p s : BlockId) (init : List InstId) (t : InstId) : Prop where
  insts : w.InstsPlaced
  ne : p ≠ s
  eq : (w.block p).insts = init ++ [t]

namespace Folding

variable {w : View} {p s : BlockId} {init : List InstId} {t i : InstId} {args : List Value}
  (h : w.Folding p s init t)

include h

theorem mem : t ∈ (w.block p).insts := by simp [h.eq]

theorem placed : (w.inst t).block = some p := h.insts.placed t p h.mem

theorem ne_of_mem (hc : c ≠ p) (hi : i ∈ (w.block c).insts) : i ≠ t := by
  rintro rfl
  exact hc (mem_unique (h.insts.placed i c hi) h.placed)

theorem filter_insts (hc : c ≠ p) : (w.block c).insts.filter (· ≠ t) = (w.block c).insts :=
  filter_eq_self.mpr fun _ hi => decide_eq_true (h.ne_of_mem hc hi)

theorem ne_of_mem_init (hi : i ∈ init) : i ≠ t := by
  have hnodup := h.insts.nodup p
  rw [h.eq, nodup_append] at hnodup
  exact hnodup.2.2 i hi t (mem_singleton_self t)

theorem filter_pred : (w.block p).insts.filter (· ≠ t) = init := by
  rw [h.eq, filter_append, filter_cons_of_neg (by simp), filter_nil, append_nil]
  exact filter_eq_self.mpr fun i hi => decide_eq_true (h.ne_of_mem_init hi)

theorem block_discarded : ((w.discard t).mapValues (w.passed s args)).block = fun c =>
    { w.block c with insts := (w.block c).insts.filter (· ≠ t) } :=
  funext (block_discard (h.insts.placed t))

theorem inst_merge (i : InstId) : (w.merge p s t (args.map some)).inst i =
    if i = t then { w.inst i with block := none, erased := true }
    else if i ∈ (w.block s).insts then { w.inst i with block := some p } else w.inst i := by
  show (((w.discard t).mapValues (w.passed s args)).append p s).inst i = _
  rw [inst_append, h.block_discarded]
  show (if i ∈ (w.block s).insts.filter (· ≠ t) then _ else _) = _
  rw [h.filter_insts h.ne.symm]
  show (if _ then { (w.discard t).inst i with block := some p } else (w.discard t).inst i) = _
  rw [inst_discard]
  by_cases hi : i = t
  · rw [if_neg fun hmem => h.ne_of_mem h.ne.symm hmem hi, if_pos hi, if_pos hi]
  · rw [if_neg hi, if_neg hi]

theorem block_merge (c : BlockId) : (w.merge p s t (args.map some)).block c =
    if c = s then { w.block c with insts := [], func := none }
    else if c = p then { w.block c with insts := init ++ (w.block s).insts } else w.block c := by
  show (((w.discard t).mapValues (w.passed s args)).append p s).block c = _
  rw [block_append, h.block_discarded]
  show (if c = s then _ else if c = p then { w.block c with
    insts := (w.block c).insts.filter (· ≠ t) ++ (w.block s).insts.filter (· ≠ t) } else _) = _
  rw [h.filter_insts h.ne.symm]
  split
  · rfl
  · split
    · next hc => rw [hc, h.filter_pred]
    · next hc =>
      simp only
      rw [h.filter_insts hc]

theorem line_merge (hi : i ≠ t) : (w.merge p s t (args.map some)).line i =
    (w.line i).mapValues (w.passed s args) := by
  rw [line, reads_merge, exits_merge, h.inst_merge]
  simp only [if_neg hi]
  split <;> rfl

theorem values_merge {u : Option Value} (hu : u ∈ ((w.merge p s t (args.map some)).line i).values) :
    i ≠ t ∧ ∃ v ∈ (w.line i).values, w.passed s args v = u := by
  have hne : i ≠ t := by
    rintro rfl
    rw [Flow.Line.values, line, reads_merge, exits_merge] at hu
    simp at hu
  rw [h.line_merge hne] at hu
  exact ⟨hne, mem_map.mp (Flow.Line.values_mapValues .. ▸ hu)⟩

end Folding

end View

/-! ### Merging in a module that was built -/

theorem exists_map_some {vs : Args} (h : ∀ v ∈ vs, ∃ u, v = some u) :
    ∃ us : List Value, vs = us.map some := by
  induction vs with
  | nil => exact ⟨[], rfl⟩
  | cons v vs ih =>
    obtain ⟨us, rfl⟩ := ih (forall_mem_cons.mp h).2
    obtain ⟨u, rfl⟩ := h v mem_cons_self
    exact ⟨u :: us, rfl⟩

namespace Module

variable {m : Module} {i : InstId}

theorem values_line (m : Module) (i : InstId) :
    (m.view.line i).values = m.operandValues (m.allOperands i) := by
  rw [allOperands, operandValues, map_append, map_flatMap]
  show (m.insts.get i).operands.map m.operandValue ++ ((m.insts.get i).targets.map _).flatMap _ = _
  rw [flatMap_map]

/-- Whatever is listed as the use of a value, unless it is on the way into a function, belongs to an
instruction in a block. -/
def Seated (m : Module) : Prop :=
  ∀ v, ∀ o ∈ m.uses v, ∀ i, (m.operands.get o).user = some i → (m.insts.get i).block ≠ none

theorem Linked.seated_iff (h : m.Linked) :
    m.Seated ↔ ∀ i v, some v ∈ (m.view.line i).values → (m.view.inst i).block ≠ none := by
  constructor
  · intro hseated i v hv
    rw [values_line] at hv
    obtain ⟨o, ho, hread⟩ := mem_operandValues.mp hv
    exact hseated v o (h.wired.mem_uses.mpr hread) i (h.user ho).2
  · intro hlines v o ho i hi
    have hread := h.wired.mem_uses.mp ho
    refine hlines i v ?_
    rw [values_line]
    exact mem_operandValues.mpr ⟨o, (h.owned o v hread).1 i hi, hread⟩

end Module

section

variable {m : Module} {f : FuncId} {pred succ : BlockId} {t : InstId} {e : EdgeId}

namespace Build.SoleBranch

variable (h : SoleBranch m pred succ t e)
include h

theorem mem : t ∈ (m.view.block pred).insts :=
  mem_of_getLast? (terminator_eq_some.mp h.terminator).1

theorem instFunc (hs : m.view.Shape) (hpred : (m.view.block pred).func = some f) :
    m.view.instFunc t = some f :=
  (View.instFunc_of_mem hs.insts h.mem).trans hpred

/-- An unconditional branch of a verified function has one edge, and that passes values. -/
theorem passes (hs : m.view.Shape) (hv : m.view.Verified f)
    (hpred : (m.view.block pred).func = some f) : ∃ args : List Value,
    m.view.exits t = [⟨some succ, args.map some⟩] ∧ m.operandValues
    (m.edges.get e).args = args.map some := by
  have hlive : (m.view.inst t).erased = false := Bool.eq_false_iff.mpr fun herased =>
    some_ne_none _ ((hs.insts.placed t pred h.mem).symm.trans (hs.formed.erased t herased).1)
  have hlength := hs.formed.exits t hlive
  rw [show (m.view.inst t).op = .br from h.op, view_exits, exitsOf, length_map] at hlength
  obtain ⟨e', htargets⟩ := length_eq_one_iff.mp hlength
  obtain rfl : e' = e := by
    have hhead := h.edge
    rw [htargets] at hhead
    exact some.inj hhead
  have hexits : m.view.exits t = [⟨some succ, m.operandValues (m.edges.get e').args⟩] := by
    rw [view_exits, exitsOf, htargets, map_singleton, h.target]
  obtain ⟨args, hargs⟩ := exists_map_some fun v hv' => by
    obtain ⟨x, hx, -⟩ := hv.values t (h.instFunc hs hpred) v
      (mem_append_right _ (mem_flatMap.mpr ⟨_, hexits ▸ mem_singleton_self _, hv'⟩))
    exact ⟨x, hx⟩
  exact ⟨args, hargs ▸ hexits, hargs⟩

end Build.SoleBranch

end

theorem Builder.Sound.verified {s : Builder} (h : s.Sound) {f : FuncId} {b : BlockId}
    (hverify : s.module.verify = .ok none) (hf : f ∈ s.module.order)
    (hb : (s.module.blocks.get b).func = some f) :
    s.view.Verified f := by
  have hdefined : (s.module.funcs.get f).defined = true := Bool.of_not_eq_false fun hundefined =>
    ne_nil_of_mem ((h.shape.blocks.mem_iff f b).mpr hb) (h.shape.blocks.undefined f hundefined)
  exact verified_of_verifyFunc h.linked h.shape h.ended.listed hdefined
    (verify_eq_none.mp hverify f hf)

theorem Builder.Sound.merged {s u : Builder} (h : s.Sound) {pred succ : BlockId}
    (hrun : (mergeBlocks (some pred) (some succ)).run.run s = (.ok (), u)) :
    ∃ t e, SoleBranch s.module pred succ t e ∧ (s.module.blocks.get succ).func ≠ none ∧
      u.module.Linked ∧
      u.module.view = s.view.merge pred succ t
      (s.module.operandValues (s.module.edges.get e).args) := by
  have hmerge : wp (mergeBlocks (some pred) (some succ))
    (fun _ u => ∃ t e, SoleBranch s.module pred succ t e ∧
      (s.module.blocks.get succ).func ≠ none ∧ u.module.Linked ∧
      u.module.view = s.view.merge pred succ t (s.module.operandValues (s.module.edges.get e).args))
      (fun _ _ => True) s :=
    wp_mergeBlocks h.linked h.insts (fun _ _ => trivial) (fun _ _ _ _ => trivial)
      fun _ t e _ _ hsucc hsole hl hview =>
        ⟨t, e, hsole, by rw [hsucc]; exact some_ne_none _, hl, hview⟩
  exact (wp_iff_of_ok hrun).mp hmerge

/-- Merging a block into another one whose branch passes none of its parameters: the instructions
follow each other, whatever read a parameter reads what was passed for it, and nothing is read out
of place. -/
theorem merge_folds {s u : Builder} {f : FuncId} {pred succ : BlockId} (h : Built s)
    (hverify : s.module.verify = .ok none) (hf : f ∈ s.module.order)
    (hpred : (s.module.blocks.get pred).func = some f)
    (hrun : (mergeBlocks (some pred) (some succ)).run.run s = (.ok (), u)) (hne : pred ≠ succ)
    (hown : ∀ t, s.module.terminator pred = some t → ∀ x ∈ exitsOf s.module t,
      ∀ p ∈ (s.module.blocks.get succ).params, some (.param p) ∉ x.args) :
    ∃ t args, s.module.terminator pred = some t ∧ exitsOf s.module t = [⟨some succ, args⟩] ∧
      args.length = (s.module.blocks.get succ).params.length ∧
      (∀ g, (u.module.funcs.get g).blocks = (s.module.funcs.get g).blocks.filter (· ≠ succ)) ∧
      (u.module.blocks.get pred).insts = (s.module.blocks.get pred).insts.dropLast ++
      (s.module.blocks.get succ).insts ∧
      (∀ i ∈ (u.module.blocks.get pred).insts, (u.module.insts.get i).block = some pred) ∧
      (∀ i, i ≠ t → u.module.operandValues (u.module.allOperands i) =
        (s.module.operandValues (s.module.allOperands i)).map
        (atOnce ((s.module.blocks.get succ).params.zip args))) ∧
      (∀ b, u.module.view.opens b =
        (s.module.view.opens b).map (·.map (atOnce ((s.module.blocks.get succ).params.zip args)))) ∧
      (∀ o, ∀ p ∈ (s.module.blocks.get succ).params, u.module.operandValue o ≠ some (.param p)) ∧
      (s.module.Seated → u.module.Seated) := by
  have hs := h.sound
  obtain ⟨t, e, hsole, hsucc, hl, hview⟩ := hs.merged hrun
  have hverified := hs.verified hverify hf hpred
  obtain ⟨args, hexits, hargs⟩ := hsole.passes hs.shape hverified hpred
  have hlast := (terminator_eq_some.mp hsole.terminator).1
  have hfold : s.module.view.Folding pred succ (s.module.blocks.get pred).insts.dropLast t :=
    ⟨hs.shape.insts, hne, (dropLast_append_getLast? t hlast).symm⟩
  have hplaced : u.module.view.InstsPlaced := hview ▸ (hs.shape.merge pred succ t _).insts
  rw [hargs] at hview
  have hexit : ⟨some succ, args.map some⟩ ∈ s.module.view.exits t := hexits ▸ mem_singleton_self _
  have hforeign : ∀ p ∈ (s.module.view.block succ).params, some (.param p) ∉ args.map some :=
    hown t hsole.terminator _ hexit
  have hpassed := View.passed_eq_atOnce hforeign
  have hcount : (args.map some).length = (s.module.view.block succ).params.length :=
    h.applied.exits t _ hexit succ rfl hsucc
  refine ⟨t, args.map some, hsole.terminator, hexits, hcount, fun g => ?_, ?_,
    fun i hi => hplaced.placed i pred hi,
    fun i hi => ?_, fun b => ?_, ?_, fun hseated => ?_⟩
  · exact (congrArg (fun w => (w.func g).blocks) hview).trans
      (((hs.shape.discard t).mapValues _).blocks.blocks_append pred succ g)
  · refine (congrArg (fun w => (w.block pred).insts) hview).trans ?_
    rw [hfold.block_merge, if_neg hne, if_pos rfl]
    rfl
  · rw [← values_line, ← values_line, hview, hfold.line_merge hi,
      Flow.Line.values_mapValues, hpassed]
    rfl
  · rw [hview]
    exact congrArg (fun f => (s.module.view.opens b).map (·.map f)) hpassed
  · intro o p hp
    have hnever : ∀ x, s.module.view.passed succ args x ≠ some (.param p) :=
      hpassed ▸ atOnce_ne_param hp hcount (hforeign p hp)
    refine hl.wired.uses_eq_nil.mp (hl.uses_eq_nil.mpr ?_) o
    rw [hview, View.reads_iff]
    rintro (⟨i, hi⟩ | ⟨b, vs, hvs, hv⟩)
    · obtain ⟨-, x, -, hx⟩ := hfold.values_merge hi
      exact hnever x hx
    · obtain ⟨ys, -, rfl⟩ := mem_map.mp hvs
      obtain ⟨x, -, hx⟩ := mem_map.mp hv
      exact hnever x hx
  · rw [hl.seated_iff, hview]
    intro i v hv
    obtain ⟨hi, x, hx, hxv⟩ := hfold.values_merge hv
    obtain ⟨x, rfl⟩ : ∃ y, x = some y := Option.ne_none_iff_exists'.mp fun hnone =>
      Option.some_ne_none v (hxv.symm.trans (hnone ▸ substituteAll_none _))
    have hblock := hs.linked.seated_iff.mp hseated i x hx
    rw [hfold.inst_merge, if_neg hi]
    split
    · exact Option.some_ne_none _
    · exact hblock

/-- Two blocks, never entered, that branch to each other. The second one pairs its parameters, and
the first one passes them in the other order, or the parameter of the function twice. -/
def circling (swapped : Bool) : Builder :=
  after (br (some ⟨1⟩) []) <|
  after (tuple [some (.param ⟨1⟩), some (.param ⟨2⟩)]) <|
  after (positionAtEnd ⟨2⟩) <|
  after (br (some ⟨2⟩) (if swapped then [some (.param ⟨2⟩), some (.param ⟨1⟩)]
    else [some (.param ⟨0⟩), some (.param ⟨0⟩)])) <|
  after (positionAtEnd ⟨1⟩) <|
  after (appendBlock "b" [⟨"p", .bool⟩, ⟨"q", .bool⟩]) <|
  after (appendBlock "a" []) <|
  after (ret (some (.param ⟨0⟩))) <|
  after (buildFunction "f" predicateType.1 ["p"]) <|
  after (modifyModule ({ · with types := predicateType.2, providers := [], typeDecls := [] }))
    { module := { name := "m" } }

theorem built_circling : Built (circling swapped) := by
  cases swapped
  all_goals
    repeat refine built_after ?_
    exact .new _

theorem verify_circling : (circling swapped).module.verify = .ok none := by
  have h : checked (circling swapped).module.verify isNone = true := by
    cases swapped <;> decide +kernel
  obtain ⟨r, hr, hnone⟩ := exists_of_checked h
  rw [hr, isNone_iff_eq_none.mp hnone]

theorem merges_circling : (mergeBlocks (some ⟨1⟩) (some ⟨2⟩)).run.run (circling swapped) =
    (.ok (), after (mergeBlocks (some ⟨1⟩) (some ⟨2⟩)) (circling swapped)) := by
  obtain ⟨_, h⟩ := exists_run_of_checked (x := mergeBlocks (some ⟨1⟩) (some ⟨2⟩))
    (s := circling swapped)
    (by cases swapped <;> decide +kernel)
  exact h

/-- The pair and the branch behind it move up, and the pair reads the parameter of the function. -/
theorem circling_folds : ∃ u, Built (circling false) ∧ (circling false).module.verify = .ok none ∧
    (mergeBlocks (some ⟨1⟩) (some ⟨2⟩)).run.run (circling false) = (.ok (), u) ∧
    (u.module.blocks.get ⟨1⟩).insts = [⟨2⟩, ⟨3⟩] ∧
    (∀ o, u.module.operandValue o ≠ some (.param ⟨1⟩)) ∧
    u.module.operandValues (u.module.allOperands ⟨2⟩) = [some (.param ⟨0⟩), some (.param ⟨0⟩)] := by
  refine ⟨_, built_circling _, verify_circling _, merges_circling _, ?_⟩
  obtain ⟨t, args, ht, hexits, -, -, hinsts, -, hvalues, -, hparams, -⟩ := merge_folds (f := ⟨0⟩)
    (built_circling false) (verify_circling _) (by decide +kernel) (by decide +kernel)
      (merges_circling _)
    (by decide +kernel) (by decide +kernel)
  have hlast : (circling false).module.terminator ⟨1⟩ = some ⟨1⟩ := by decide +kernel
  obtain rfl := Option.mem_unique ht hlast
  have hpassed : (exitsOf (circling false).module ⟨1⟩).map Exit.args =
      [[some (.param ⟨0⟩), some (.param ⟨0⟩)]] := by
    decide +kernel
  obtain rfl : args = [some (.param ⟨0⟩), some (.param ⟨0⟩)] := by simpa [hexits] using hpassed
  refine ⟨hinsts.trans (by decide +kernel), fun o => hparams o ⟨1⟩ (by decide +kernel), ?_⟩
  exact (hvalues ⟨2⟩ (by decide)).trans (by decide +kernel)

/-- Replaced one after the other, swapped parameters become the same one. -/
theorem swapped_parameters_collapse : ∃ u, Built (circling true) ∧
    (circling true).module.verify = .ok none ∧
    (mergeBlocks (some ⟨1⟩) (some ⟨2⟩)).run.run (circling true) = (.ok (), u) ∧
    (exitsOf (circling true).module ⟨1⟩).map Exit.args = [[some (.param ⟨2⟩), some (.param ⟨1⟩)]] ∧
    (circling true).module.operandValues ((circling true).module.allOperands ⟨2⟩) =
      [some (.param ⟨1⟩), some (.param ⟨2⟩)] ∧
    u.module.operandValues (u.module.allOperands ⟨2⟩) = [some (.param ⟨1⟩), some (.param ⟨1⟩)] :=
  ⟨_, built_circling _, verify_circling _, merges_circling _, by decide +kernel, by decide +kernel,
    by decide +kernel⟩

end Midlevel.Ir
