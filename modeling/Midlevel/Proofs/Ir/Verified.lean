import Midlevel.Ir.Verifier
import Midlevel.Proofs.Flow.Merge
import Midlevel.Proofs.Ir.Shape

/-!
What the verifier establishes. A function without violations is a graph one can run: its blocks end
in their only terminator, its branches stay inside and pass what the blocks they lead to ask for,
and no instruction reads what is gone. `View.Verified` says so of the view, apart from the edges and
use lists that the verifier goes by.
-/

namespace Midlevel.Ir

open Midlevel.Flow List
open Pass (Exit)

variable {α β ε : Type}
variable {xs : List α}
variable {b : BlockId} {f : α → Except ε β} {args : Args} {n : Nat} {e : EdgeId}

namespace View

variable {w : View}

def instFunc (w : View) (i : InstId) : Option FuncId :=
  (w.inst i).block.bind fun b => (w.block b).func

def valueType (w : View) : Value → TypeId
  | .inst i => (w.inst i).type
  | .param p => (w.param p).type
  | .func f => (w.func f).type
  | .global g => (w.global g).type

def Accepts (w : View) (b : BlockId) (args : Args) : Prop :=
  List.Forall₂ (fun a p => ∃ v, a = some v ∧ w.valueType v = (w.param p).type) args
    (w.block b).params

/-! ### Functions as graphs -/

def line (w : View) (i : InstId) : Flow.Line :=
  ⟨i, (w.inst i).op, (w.inst i).type, (w.inst i).payload, w.reads i, w.exits i⟩

/-- The code of a function. It is entered at its first block. -/
def graph (w : View) (f : FuncId) : Graph where
  entry := (w.func f).blocks.head?.getD default
  params b := (w.block b).params
  lines b := (w.block b).insts.map w.line

theorem instFunc_of_mem {i : InstId} (h : w.InstsPlaced) (hi : i ∈ (w.block b).insts) :
    w.instFunc i = (w.block b).func := by
  rw [instFunc, h.placed i b hi]
  rfl

/-- The instruction reads the value or passes it on to a block. -/
def UsedBy (w : View) (v : Value) (i : InstId) : Prop := some v ∈ (w.line i).values

theorem usedBy_iff {v : Value} {i : InstId} : w.UsedBy v i ↔ some v ∈ w.reads i ∨
    ∃ x ∈ w.exits i, some v ∈ x.args := by
  rw [UsedBy, Flow.Line.values, mem_append, mem_flatMap]
  rfl

theorem reads_iff {v : Value} : w.Reads v ↔ (∃ i, w.UsedBy v i) ∨
    ∃ b, ∃ args ∈ w.opens b, some v ∈ args := by
  simp only [usedBy_iff, exists_or, Reads, or_assoc]

theorem mem_reads {i : InstId} {v : Value} (h : some v ∈ (w.line i).values) : w.Reads v :=
  reads_iff.mpr (.inl ⟨i, h⟩)

theorem Shape.unique (h : w.Shape) (f : FuncId) : (w.graph f).Unique where
  line b c l hl k hk he := by
    obtain ⟨i, hi, rfl⟩ := mem_map.mp hl
    obtain ⟨j, hj, rfl⟩ := mem_map.mp hk
    obtain rfl : i = j := he
    exact ⟨rfl, Option.mem_unique (h.insts.placed i b hi) (h.insts.placed i c hj)⟩
  param b c p hb hc := (h.params.block b p hb).symm.trans (h.params.block c p hc)

/-- Instruction `t` stands last in the block, and is the only one there that ends it. -/
structure Closed (w : View) (b : BlockId) (init : List InstId) (t : InstId) : Prop where
  eq : (w.block b).insts = init ++ [t]
  init : ∀ i ∈ init, (w.inst i).op.isTerminator = false
  last : (w.inst t).op.isTerminator = true

theorem Closed.ending {init : List InstId} {t : InstId} (h : w.Closed b init t) (f : FuncId) :
    Ending ((w.graph f).lines b) (init.map w.line) (w.line t) where
  eq := by
    show (w.block b).insts.map w.line = _
    rw [h.eq, map_append, map_cons, map_nil]
  init l hl := by
    obtain ⟨i, hi, rfl⟩ := mem_map.mp hl
    exact h.init i hi
  last := h.last

/-! ### Verified functions -/

/-- Every instruction is listed in a block, but for those that were erased. -/
def Attached (w : View) : Prop :=
  ∀ i, (∃ b, i ∈ (w.block b).insts) ∨ ((w.inst i).block = none ∧ w.reads i = [] ∧ w.exits i = [])

theorem Attached.mem (h : w.Attached) (hp : w.InstsPlaced) {i : InstId}
    (hb : (w.inst i).block = some b) : i ∈ (w.block b).insts := by
  rcases h i with ⟨c, hc⟩ | ⟨hnone, -⟩
  · obtain rfl := Option.mem_unique hb (hp.placed i c hc)
    exact hc
  · exact nomatch hb.symm.trans hnone

structure Verified (w : View) (f : FuncId) : Prop where
  nonempty : (w.func f).blocks ≠ []
  closed : ∀ b, (w.block b).func = some f → ∃ init t, w.Closed b init t
  /-- What is read is there, and results are those of instructions in the function. -/
  values : ∀ i, w.instFunc i = some f → ∀ v ∈ (w.line i).values,
    ∃ u, v = some u ∧ ∀ j, u = .inst j → (w.inst j).erased = false ∧ w.instFunc j = some f
  exits : ∀ i, w.instFunc i = some f → ∀ x ∈ w.exits i,
    ∃ t, x.target = some t ∧ (w.block t).func = some f ∧ w.Accepts t x.args
  entered : ∀ i, w.instFunc i = some f → w.entered i
  opens : ∀ b ∈ (w.func f).blocks.tail, w.opens b = []

end View

/-! ### Lists of violations -/

theorem ok_of_bind {y : β} : ∀ {x : Except ε α}, x >>= f = .ok y → ∃ r, x = .ok r ∧ f r = .ok y
  | .ok r, h => ⟨r, rfl, h⟩

theorem mapM_eq_nil {f : α → Except ε (List β)} {found : List (List β)} (h : xs.mapM f = .ok found)
    (hfound : found.flatten = []) : ∀ x ∈ xs, f x = .ok [] := by
  induction xs generalizing found with
  | nil => simp
  | cons x xs ih =>
    rw [mapM_cons] at h
    obtain ⟨ys, hys, h⟩ := ok_of_bind h
    obtain ⟨rest, hrest, h⟩ := ok_of_bind h
    obtain rfl := Except.ok.inj h
    obtain ⟨rfl, hrest'⟩ := append_eq_nil_iff.mp (flatten_cons ▸ hfound)
    intro y hy
    rcases mem_cons.mp hy with rfl | hy
    · exact hys
    · exact ih hrest hrest' y hy

theorem mapM_ok (h : ∀ x ∈ xs, ∃ y, f x = .ok y) : ∃ ys, xs.mapM f = .ok ys := by
  induction xs with
  | nil => exact ⟨[], rfl⟩
  | cons x xs ih =>
    obtain ⟨y, hy⟩ := h x mem_cons_self
    obtain ⟨ys, hys⟩ := ih (forall_mem_cons.mp h).2
    rw [mapM_cons, hy, hys]
    exact ⟨_, rfl⟩

theorem filterMapM_ok {f : α → Except ε (Option β)} (h : ∀ x ∈ xs, ∃ y, f x = .ok y) :
    ∃ ys, xs.filterMapM f = .ok ys := by
  induction xs with
  | nil => exact ⟨[], rfl⟩
  | cons x xs ih =>
    obtain ⟨y, hy⟩ := h x mem_cons_self
    obtain ⟨ys, hys⟩ := ih (forall_mem_cons.mp h).2
    rw [filterMapM_cons, hy, hys]
    cases y <;> exact ⟨_, rfl⟩

theorem filterMapM_eq_nil {f : α → Except ε (Option β)} : xs.filterMapM f = .ok [] ↔
    ∀ x ∈ xs, f x = .ok none := by
  induction xs with
  | nil => exact ⟨fun _ _ hx => absurd hx not_mem_nil, fun _ => rfl⟩
  | cons x xs ih =>
    rw [filterMapM_cons, forall_mem_cons]
    refine ⟨fun h => ?_, fun h => ?_⟩
    · obtain ⟨y, hy, h⟩ := ok_of_bind h
      cases y with
      | none => exact ⟨hy, ih.mp h⟩
      | some y =>
        obtain ⟨ys, -, h⟩ := ok_of_bind h
        cases h
    · rw [h.1]
      exact ih.mpr h.2

namespace Module

variable {m : Module}
variable {f : FuncId}
variable {i : InstId}

theorem view_valueType (m : Module) (v : Value) : m.view.valueType v = m.valueType v := by
  cases v <;> rfl

theorem checkArgs_go {mismatch : Text → Except Error Unit} {types : Option TypeTable}
    (hmismatch : ∀ t, mismatch t ≠ .ok ()) {ps : List ParamId} (hlength : args.length = ps.length) :
    Build.checkArgs.go m mismatch types n args ps = .ok () ↔
      List.Forall₂ (fun a p => ∃ v, a = some v ∧
      m.view.valueType v = (m.view.param p).type) args ps := by
  induction args generalizing ps n with
  | nil =>
    obtain rfl := length_eq_zero_iff.mp hlength.symm
    simp [Build.checkArgs.go]
  | cons a args ih =>
    obtain ⟨p, ps, rfl⟩ := exists_cons_of_length_eq_add_one hlength.symm
    have hrest : args.length = ps.length := by simpa using hlength
    rw [forall₂_cons]
    cases a with
    | none => simp [Build.checkArgs.go, hmismatch]
    | some v =>
      have htype : (∃ u, some v = some u ∧ m.view.valueType u = (m.view.param p).type) ↔
          m.valueType v = (m.params.get p).type := by
        simp only [Option.some.injEq, exists_eq_left']
        rfl
      rw [htype, Build.checkArgs.go]
      split
      · next heq => rw [ih hrest, and_iff_right heq]
      · next hne => simp [hne, hmismatch]

theorem checkArgs_eq_ok : Build.checkArgs m b args = .ok () ↔ m.view.Accepts b args := by
  rw [Build.checkArgs]
  split
  · next hlength => exact checkArgs_go (by simp) hlength
  · next hlength =>
    exact ⟨nofun, fun h => absurd h.length_eq hlength⟩

/-! ### Functions without violations -/

theorem live_of_verifyOperand {o : OperandId} (h : m.verifyOperand f b i o = []) :
    ∃ v, m.operandValue o = some v ∧ ∀ j, v = .inst j → (m.insts.get j).erased = false ∧
      m.instFunc j = some f := by
  rw [verifyOperand] at h
  split at h
  · cases h
  split at h
  · cases h
  · next v hv =>
    refine ⟨v, hv, ?_⟩
    rintro j rfl
    split at h
    · cases h
    · simp only at h
      split at h
      · cases h
      · next hj =>
        rw [not_or, Bool.not_eq_true, not_not] at hj
        exact hj

theorem target_of_verifyTarget (h : m.verifyTarget f b i e = .ok []) :
    ∃ t, (m.edges.get e).target = some t ∧ (m.blocks.get t).func = some f ∧
      e ∈ (m.blocks.get t).edges := by
  rw [verifyTarget] at h
  split at h
  · cases h
  · next hedge =>
    rw [verifyEdge] at hedge
    split at hedge
    · cases hedge
    · next t ht =>
      split at hedge
      · cases hedge
      · next hfunc =>
        split at hedge
        · cases hedge
        · next hmem => exact ⟨t, ht, not_not.mp hfunc, not_not.mp hmem⟩

theorem accepts_of_verifyIncoming (h : m.verifyIncoming b e = .ok []) :
    m.view.Accepts b (m.operandValues (m.edges.get e).args) := by
  rw [← checkArgs_eq_ok]
  rw [verifyIncoming] at h
  split at h
  · obtain ⟨_, -, h⟩ := ok_of_bind h
    cases h
  · have hargs := (append_eq_nil_iff.mp (Except.ok.inj h)).1
    split at hargs
    · next hok => exact hok
    · cases hargs

structure InstVerified (m : Module) (f : FuncId) (b : BlockId) (n : Nat) (i : InstId) : Prop where
  last : (m.insts.get i).op.isTerminator = true → n + 1 = (m.blocks.get b).insts.length
  operands : ∀ o ∈ m.allOperands i, m.verifyOperand f b i o = []
  targets : ∀ e ∈ (m.insts.get i).targets, m.verifyTarget f b i e = .ok []

theorem instVerified (h : m.verifyInst f b n i = .ok []) : m.InstVerified f b n i := by
  obtain ⟨targets, htargets, h⟩ := ok_of_bind h
  obtain ⟨h, hflat⟩ := append_eq_nil_iff.mp (Except.ok.inj h)
  obtain ⟨h, hoperands⟩ := append_eq_nil_iff.mp h
  obtain ⟨-, hlast⟩ := append_eq_nil_iff.mp h
  refine ⟨fun hterm => ?_, flatMap_eq_nil_iff.mp hoperands, mapM_eq_nil htargets hflat⟩
  by_contra hn
  rw [if_pos ⟨hterm, hn⟩] at hlast
  cases hlast

structure BlockVerified (m : Module) (f : FuncId) (b : BlockId) : Prop where
  terminator : (m.terminator b).isSome
  insts : ∀ i n, (i, n) ∈ (m.blocks.get b).insts.zipIdx → m.InstVerified f b n i
  incoming : ∀ e ∈ (m.blocks.get b).edges, m.view.Accepts b (m.operandValues (m.edges.get e).args)

theorem blockVerified (h : m.verifyBlock f b = .ok []) : m.BlockVerified f b := by
  obtain ⟨insts, hinsts, h⟩ := ok_of_bind h
  obtain ⟨incoming, hincoming, h⟩ := ok_of_bind h
  obtain ⟨h, hflat⟩ := append_eq_nil_iff.mp (Except.ok.inj h)
  obtain ⟨h, hflat'⟩ := append_eq_nil_iff.mp h
  obtain ⟨-, hterm⟩ := append_eq_nil_iff.mp h
  refine ⟨?_, fun i n hi => instVerified (mapM_eq_nil hinsts hflat' (i, n) hi),
    fun e he => accepts_of_verifyIncoming (mapM_eq_nil hincoming hflat e he)⟩
  by_contra hnone
  rw [if_neg hnone] at hterm
  cases hterm

theorem blocks_of_verifyFunc (hdefined : (m.funcs.get f).defined = true)
    (h : m.verifyFunc f = .ok []) :
    ∃ entry rest, (m.funcs.get f).blocks = entry :: rest ∧
      m.verifyEntry entry rest = [] ∧ ∀ b ∈ (m.funcs.get f).blocks, m.BlockVerified f b := by
  rw [verifyFunc] at h
  simp only [hdefined, Bool.not_true, Bool.false_eq_true, if_false] at h
  split at h
  · cases h
  · next entry rest hblocks =>
    obtain ⟨found, hfound, h⟩ := ok_of_bind h
    obtain ⟨hentry, hflat⟩ := append_eq_nil_iff.mp (Except.ok.inj h)
    exact ⟨entry, rest, hblocks, hentry, fun b hb => blockVerified (mapM_eq_nil hfound hflat b hb)⟩

theorem closed_of_blockVerified (h : m.BlockVerified f b) : ∃ init t, m.view.Closed b init t := by
  obtain ⟨t, ht⟩ := Option.isSome_iff_exists.mp h.terminator
  obtain ⟨hlast, hterm⟩ := terminator_eq_some.mp ht
  obtain ⟨init, hinit⟩ := getLast?_eq_some_iff.mp hlast
  refine ⟨init, t, hinit, fun i hi => ?_, hterm⟩
  obtain ⟨n, hn, rfl⟩ := mem_iff_getElem.mp hi
  have hmem : (init[n], n) ∈ (m.blocks.get b).insts.zipIdx := by
    rw [mk_mem_zipIdx_iff_getElem?, hinit, getElem?_append_left hn, getElem?_eq_getElem hn]
  by_contra hop
  have hend := (h.insts _ _ hmem).last (Bool.not_eq_false _ ▸ hop)
  rw [hinit, length_append, length_singleton] at hend
  omega

theorem opens_of_verifyEntry (h : m.Linked) {entry : BlockId} {rest : List BlockId}
    (hentry : m.verifyEntry entry rest = []) : ∀ b ∈ rest, m.view.opens b = [] := by
  intro b hb
  rw [verifyEntry] at hentry
  split at hentry
  · cases hentry
  split at hentry
  · cases hentry
  · next hnone =>
    have hcount := find?_eq_none.mp hnone b hb
    rw [decide_eq_true_eq, not_not, countP_eq_zero] at hcount
    refine map_eq_nil_iff.mpr (filter_eq_nil_iff.mpr fun e he hsource => ?_)
    refine hcount e he ?_
    rw [h.predIsNone e (Option.isNone_iff_eq_none.mp hsource)]
    rfl

theorem verified_of_verifyFunc (h : m.Linked) (hs : m.view.Shape)
    (hlisted : ∀ i b, (m.view.inst i).block = some b → (m.view.block b).func ≠ none →
      i ∈ (m.view.block b).insts)
    (hdefined : (m.funcs.get f).defined = true) (hf : m.verifyFunc f = .ok []) :
    m.view.Verified f := by
  obtain ⟨entry, rest, hblocks, hentry, hverified⟩ := blocks_of_verifyFunc hdefined hf
  have hblock : ∀ b, (m.view.block b).func = some f → m.BlockVerified f b := fun b hb =>
    hverified b ((hs.blocks.mem_iff f b).mpr hb)
  have hinst : ∀ i, m.view.instFunc i = some f → ∃ b n, m.InstVerified f b n i := fun i hi => by
    obtain ⟨b, hb, hfunc⟩ := Option.bind_eq_some_iff.mp hi
    obtain ⟨n, hn⟩ := mem_iff_getElem?.mp (hlisted i b hb (by simp [hfunc]))
    exact ⟨b, n, (hblock b hfunc).insts i n (mk_mem_zipIdx_iff_getElem?.mpr hn)⟩
  have hnonempty : (m.funcs.get f).blocks ≠ [] := by simp [hblocks]
  refine ⟨hnonempty, fun b hb => closed_of_blockVerified (hblock b hb),
    fun i hi v hv => ?_, fun i hi x hx => ?_, fun i hi e he => ?_, ?_⟩
  · obtain ⟨b, n, hverified⟩ := hinst i hi
    obtain ⟨o, ho, rfl⟩ : ∃ o ∈ m.allOperands i, m.operandValue o = v := by
      rcases mem_append.mp hv with hv | hv
      · obtain ⟨o, ho, rfl⟩ := mem_map.mp hv
        exact ⟨o, mem_append_left _ ho, rfl⟩
      · obtain ⟨x, hx, hv⟩ := mem_flatMap.mp hv
        obtain ⟨e, he, rfl⟩ := mem_map.mp hx
        obtain ⟨o, ho, rfl⟩ := mem_map.mp hv
        exact ⟨o, mem_append_right _ (mem_flatMap.mpr ⟨e, he, ho⟩), rfl⟩
    exact live_of_verifyOperand (hverified.operands o ho)
  · obtain ⟨b, n, hverified⟩ := hinst i hi
    obtain ⟨e, he, rfl⟩ := mem_map.mp hx
    obtain ⟨t, ht, hfunc, hmem⟩ := target_of_verifyTarget (hverified.targets e he)
    exact ⟨t, ht, hfunc, (hblock t hfunc).incoming e hmem⟩
  · obtain ⟨b, n, hverified⟩ := hinst i hi
    obtain ⟨t, -, -, hmem⟩ := target_of_verifyTarget (hverified.targets e he)
    exact ⟨t, hmem⟩
  · show ∀ b ∈ (m.funcs.get f).blocks.tail, _
    rw [hblocks]
    exact opens_of_verifyEntry h hentry

/-! ### Modules -/

theorem Linked.verifyFunc_ok (h : m.Linked) (f : FuncId) : ∃ es, m.verifyFunc f = .ok es := by
  have htarget (b : BlockId) (i : InstId) : ∀ e ∈ (m.insts.get i).targets, ∃ es,
      m.verifyTarget f b i e = .ok es := by
    intro e he
    obtain ⟨pred, hpred⟩ := Option.isSome_iff_exists.mp (h.predIsSome i e he)
    rw [verifyTarget]
    split
    · exact ⟨_, rfl⟩
    · split
      · exact ⟨_, rfl⟩
      · rw [hpred]
        exact ⟨_, rfl⟩
  have hinst (b : BlockId) (n : Nat) (i : InstId) : ∃ es, m.verifyInst f b n i = .ok es := by
    obtain ⟨targets, htargets⟩ := mapM_ok (htarget b i)
    rw [verifyInst, htargets]
    exact ⟨_, rfl⟩
  have hincoming (b : BlockId) : ∀ e ∈ (m.blocks.get b).edges, ∃ es,
      m.verifyIncoming b e = .ok es := by
    intro e he
    rw [verifyIncoming, if_neg (not_not.mpr (h.incoming b e he).1)]
    exact ⟨_, rfl⟩
  have hblock (b : BlockId) : ∃ es, m.verifyBlock f b = .ok es := by
    obtain ⟨insts, hinsts⟩ :=
      mapM_ok fun (p : InstId × Nat) (_ : p ∈ (m.blocks.get b).insts.zipIdx) => hinst b p.2 p.1
    obtain ⟨incoming, hincoming⟩ := mapM_ok (hincoming b)
    rw [verifyBlock, hinsts, hincoming]
    exact ⟨_, rfl⟩
  rw [verifyFunc]
  split
  · exact ⟨_, rfl⟩
  · split
    · exact ⟨_, rfl⟩
    · obtain ⟨blocks, hblocks⟩ := mapM_ok fun b (_ : b ∈ (m.funcs.get f).blocks) => hblock b
      rw [hblocks]
      exact ⟨_, rfl⟩

def report (m : Module) (f : FuncId) : Except Crash (Option Error) := do
  match ← m.verifyFunc f with
  | [] => return none
  | es => return some (Error.within ("function @" ++ (m.funcs.get f).name) (.joined es))

theorem verify_eq (m : Module) : m.verify = (do
    match ← m.order.filterMapM m.report with
    | [] => return none
    | es => return some (.tagged .verifyFailed (.joined es))) := rfl

theorem Linked.verify_ok (h : m.Linked) : ∃ r, m.verify = .ok r := by
  have hreport (f : FuncId) : ∃ r, m.report f = .ok r := by
    obtain ⟨es, hes⟩ := h.verifyFunc_ok f
    rw [report, hes]
    cases es <;> exact ⟨_, rfl⟩
  obtain ⟨found, hfound⟩ := filterMapM_ok fun f (_ : f ∈ m.order) => hreport f
  rw [verify_eq, hfound]
  cases found <;> exact ⟨_, rfl⟩

theorem report_eq_none : m.report f = .ok none ↔ m.verifyFunc f = .ok [] := by
  rw [report]
  rcases m.verifyFunc f with c | _ | ⟨e, es⟩
  · exact ⟨nofun, nofun⟩
  · exact ⟨fun _ => rfl, fun _ => rfl⟩
  · exact ⟨nofun, nofun⟩

theorem verify_eq_none : m.verify = .ok none ↔ ∀ f ∈ m.order, m.verifyFunc f = .ok [] := by
  rw [verify_eq]
  simp only [← report_eq_none, ← filterMapM_eq_nil]
  rcases m.order.filterMapM m.report with c | _ | ⟨e, es⟩
  · exact ⟨nofun, nofun⟩
  · exact ⟨fun _ => rfl, fun _ => rfl⟩
  · exact ⟨nofun, nofun⟩

end Module

end Midlevel.Ir
