import Midlevel.Proofs.Lowering.Dominance
import Midlevel.Proofs.Pass.ControlFlow
import Midlevel.Proofs.Pass.DeadCode
import Midlevel.Proofs.Pass.DeadFunctions
import Midlevel.Proofs.Pass.Inline

/-!
What is left of the calls of library operators once they are expanded and dead code is erased. The
call of an operator that may trap is never dead. Of the code that takes its place, the overflow
check of a checked operator is never dead either and keeps the primitive alive; but division and
remainder become primitives that count as free of effects, so they stay only as long as their
result is read.
-/

namespace Midlevel.Pass

open Ir Ir.Build
open List hiding after

structure Stays (w : View) (l : Flow.Line) : Prop where
  line : w.line l.id = l
  live : (w.inst l.id).erased = false
  listed : ∃ b, l.id ∈ (w.block b).insts

/-- What became of the function `f`: the calls of library operators gave way to `code`, and then the
instructions in `gone` were erased. -/
structure Traced (w w' : View) (f : FuncId) (code : InstId → Option OperatorCode)
    (gone : List InstId) : Prop where
  /-- Blocks have the code where they had the call, less what was erased. -/
  block : ∀ b, (w'.block b).insts = ((w.block b).insts.flatMap (standIns code)).filter (· ∉ gone)
  others : ∀ i ∈ w.funcInsts f, w.calledOperator i = none → w.hasEffects i = true →
    i ∉ gone ∧ w'.inst i = w.inst i ∧ w'.reads i = (w.reads i).map (rename code)
  computes : ∀ i ∈ w.funcInsts f, ∀ op, w.calledOperator i = some op → ∃ c, code i = some c ∧
    c.Computes op (w.inst i).type ((w.reads i).tail.map (rename code))
  /-- A checked operator leaves its primitive and the trap on overflow. -/
  checked : ∀ i ∈ w.funcInsts f, ∀ op, w.calledOperator i = some op → op.checked = true →
    ∀ c, code i = some c →
    ∃ overflow fail value, c.checks = [overflow, fail, value] ∧ overflow.Picks c.prim 1 ∧
      fail.Applies .condFail [some (.inst overflow.id)] ∧ Stays w' c.prim ∧
        Stays w' overflow ∧ Stays w' fail
  /-- Any operator whose result is read leaves its primitive. -/
  read : ∀ i ∈ w.funcInsts f, ∀ c, code i = some c → w'.Reads (.inst c.wrap.id) → Stays w' c.prim

section Traces

variable {w w₁ w' : View} {f : FuncId} {code : InstId → Option OperatorCode} {gone : List InstId}
variable {l : Flow.Line}

theorem Stays.of_swept (h : w.Swept w' gone) (hl : Stays w l) (hkept : l.id ∉ gone) :
    Stays w' l where
  line := by
    rw [← hl.line]
    exact View.line_congr (h.inst _ hkept) (h.reads _ hkept) (h.exits _ hkept)
  live := by
    rw [h.inst _ hkept]
    exact hl.live
  listed := by
    obtain ⟨b, hb⟩ := hl.listed
    refine ⟨b, ?_⟩
    rw [h.block]
    exact mem_filter.mpr ⟨hb, decide_eq_true hkept⟩

theorem Stays.of_read (h : w.Swept w' gone) {l' : Flow.Line} (hl : Stays w' l) (hl' : Stays w l')
    (hread : some (.inst l'.id) ∈ l.reads) : Stays w' l' := by
  refine hl'.of_swept h fun hgone => h.unread _ hgone (.inl ⟨l.id, ?_⟩)
  rw [← hl.line] at hread
  exact hread

theorem hasEffects_condFail (hl : Stays w l) {args : Args} (h : l.Applies .condFail args) :
    w.hasEffects l.id = true := by
  have hop : (w.inst l.id).op = .primitive := (congrArg Flow.Line.op hl.line).trans h.1
  have hpayload : (w.inst l.id).payload = { primitive := .condFail } :=
    (congrArg Flow.Line.payload hl.line).trans h.2.1
  unfold View.hasEffects
  rw [hop, hpayload]
  rfl

theorem Inlined.stays (h : Inlined w w₁ (w.funcInsts f) code) {i : InstId} (hi : i ∈ w.funcInsts f)
    {c : OperatorCode} (hc : code i = some c) (hl : l ∈ c.lines) : Stays w₁ l := by
  obtain ⟨-, -, hline, hlive, -⟩ := h.shows i c hc l hl
  obtain ⟨b, -, hb⟩ := mem_flatMap.mp hi
  refine ⟨hline, hlive, b, ?_⟩
  rw [h.block]
  refine mem_flatMap.mpr ⟨i, hb, ?_⟩
  simp only [standIns, hc]
  exact mem_map_of_mem hl

theorem traced (hmade : ∀ i ∈ w.funcInsts f, i.index < w.insts)
    (hin : Inlined w w₁ (w.funcInsts f) code)
    (hout : w₁.Swept w' gone) : Traced w w' f code gone where
  block b := by
    rw [hout.block, hin.block]
  others i hi hcall heffects := by
    have hcode : code i = none := by
      cases hc : code i with
      | none => rfl
      | some c =>
        obtain ⟨-, -, op, hop, -⟩ := hin.computes i c hc
        rw [hcall] at hop
        cases hop
    have hinst := hin.inst i (hmade i hi) hcode
    have hkept : i ∉ gone := fun hgone => by
      have hidle := hout.idle i hgone
      rw [View.hasEffects_congr hinst (hin.callee (hmade i hi) hcode) hin.func, heffects] at hidle
      cases hidle
    refine ⟨hkept, ?_, ?_⟩
    · rw [hout.inst i hkept, hinst]
    · rw [hout.reads i hkept, hin.reads i (hmade i hi) hcode]
  computes i hi op hop := by
    cases hc : code i with
    | none =>
      rw [hin.complete i hi hc] at hop
      cases hop
    | some c =>
      obtain ⟨-, -, op', hop', hcomputes⟩ := hin.computes i c hc
      obtain rfl := Option.mem_unique hop hop'
      exact ⟨c, rfl, hcomputes⟩
  checked i hi op hop hchecked c hc := by
    obtain ⟨-, -, op', hop', hcomputes⟩ := hin.computes i c hc
    obtain rfl := Option.mem_unique hop hop'
    obtain ⟨value, hguards, -⟩ := hcomputes.checks
    rw [hchecked] at hguards
    have hold {l : Flow.Line} (hl : l ∈ c.prim :: c.checks) : Stays w₁ l :=
      hin.stays hi hc (mem_append_left _ (mem_append_right _ hl))
    generalize hchecks : c.checks = checks at hguards hold
    cases hguards with
    | @trapping overflow fail _ hoverflow hfail hvalue =>
      -- The trap has an effect and stays; it reads the flag, and the flag reads the primitive.
      refine ⟨overflow, fail, value, rfl, hoverflow, hfail, ?_⟩
      have hfailStays : Stays w' fail := by
        refine (hold (by simp)).of_swept hout fun hgone => ?_
        have hidle := hout.idle _ hgone
        rw [hasEffects_condFail (hold (by simp)) hfail] at hidle
        cases hidle
      have hoverflowStays : Stays w' overflow :=
        hfailStays.of_read hout (hold (by simp)) (by rw [hfail.2.2]; simp)
      exact ⟨hoverflowStays.of_read hout (hold (by simp)) (by rw [hoverflow.2.2]; simp),
        hoverflowStays, hfailStays⟩
  read i hi c hc hread := by
    obtain ⟨-, -, op, -, hcomputes⟩ := hin.computes i c hc
    obtain ⟨value, hguards, hwrapReads⟩ := hcomputes.checks
    have hold {l : Flow.Line} (hl : l ∈ c.lines) : Stays w₁ l := hin.stays hi hc hl
    have hguardsLines {l : Flow.Line} (hl : l ∈ c.prim :: c.checks) : l ∈ c.lines :=
      mem_append_left _ (mem_append_right _ hl)
    have hwrap : Stays w' c.wrap := by
      refine (hold (by simp [OperatorCode.lines])).of_swept hout fun hgone => ?_
      exact hout.unread _ hgone hread
    have hvalue : Stays w' value :=
      hwrap.of_read hout (hold (hguardsLines hguards.value_mem)) (by rw [hwrapReads]; simp)
    have hprim : Stays w₁ c.prim := hold (hguardsLines mem_cons_self)
    generalize c.checks = checks at hguards
    generalize op.checked = checked at hguards
    cases hguards with
    | plain => exact hvalue
    | trapping _ _ hpicks => exact hvalue.of_read hout hprim (by rw [hpicks.2.2]; simp)

theorem stays_of_hasEffects (hs : w.Shape) (h : w.Swept w' gone) {i : InstId}
    (hi : i ∈ w.funcInsts f)
    (heffects : w.hasEffects i = true) : Stays w' (w.line i) := by
  obtain ⟨b, -, hb⟩ := mem_flatMap.mp hi
  have hold : Stays w (w.line i) := by
    refine ⟨rfl, Bool.eq_false_iff.mpr fun herased => ?_, b, hb⟩
    have hnone := (hs.formed.erased i herased).1
    rw [hs.insts.placed i b hb] at hnone
    cases hnone
  refine hold.of_swept h fun hgone => ?_
  rw [h.idle i hgone] at heffects
  cases heffects

end Traces

/-- Without expansion, every call that may trap stays. With it, every checked operator leaves its
primitive and its trap, and every operator whose result is still read leaves its primitive. The two
passes fail only on calls that have not the types of the operator, or on a module with loose
instructions. -/
theorem operator_effects_kept {s : Workspace} (h : Built s.builder) (f : FuncId) :
    wp (eliminateDeadCode f)
      (fun _ t => ∀ i ∈ s.builder.module.view.funcInsts f,
      s.builder.module.view.hasEffects i = true →
        Stays t.builder.module.view (s.builder.module.view.line i))
      (fun fault _ => (∃ e, fault = .error e) ∧ ¬ s.builder.module.view.Attached) s ∧
    wp (do inlineLibraryCalls f; eliminateDeadCode f)
      (fun _ t => ∃ code gone, Traced s.builder.module.view t.builder.module.view f code gone)
      (fun fault _ => (∃ e, fault = .error e) ∧ (¬ s.builder.module.view.Attached ∨
        ∃ i ∈ s.builder.module.view.funcInsts f, ∃ op,
        s.builder.module.view.calledOperator i = some op ∧
          ¬ Genuine s.builder.module.view i op)) s := by
  have hs := h.sound
  constructor
  · refine wp_mono (wp_eliminateDeadCode hs f) ?_ fun _ _ => id
    rintro _ t ⟨-, gone, hgone⟩ i hi heffects
    exact stays_of_hasEffects hs.shape hgone hi heffects
  · rw [wp_bind]
    refine wp_mono (wp_inlineLibraryCalls hs f) ?_ fun fault t hbad => ⟨hbad.1, .inr hbad.2⟩
    rintro _ t ⟨ht, code, hin⟩
    refine wp_mono (wp_eliminateDeadCode ht f) ?_ ?_
    · rintro _ u ⟨-, gone, hout⟩
      refine ⟨code, gone, traced (fun i hi => ?_) hin hout⟩
      obtain ⟨b, -, hb⟩ := mem_flatMap.mp hi
      exact hs.hasInst b i hb
    · rintro fault u ⟨herror, hbad⟩
      exact ⟨herror, .inl fun ha => hbad (hin.attached ha)⟩

/-! ### Arithmetic that is read and arithmetic that is not -/

def binaryType : TypeId × TypeTable :=
  let ((int, _), types) := libraryTypes TypeTable.initial
  types.freeFunction [int, int] int

/-- Adds its arguments for nothing and returns their quotient. -/
def dividing : Builder :=
  after (ret (some (.inst ⟨1⟩))) <|
  after (call (some ⟨2⟩) [some (.param ⟨0⟩), some (.param ⟨1⟩)]) <|
  after (call (some ⟨1⟩) [some (.param ⟨0⟩), some (.param ⟨1⟩)]) <|
  after (resolve (Symbol.mangle "/" ["Int", "Int"])) <|
  after (resolve (Symbol.mangle "+" ["Int", "Int"])) <|
  after (buildFunction "f" binaryType.1 ["a", "b"]) <|
  after (modifyModule ({ · with types := binaryType.2, providers := [.library], typeDecls := [] }))
    { module := { name := "m" } }

theorem built_dividing : Built dividing := by
  repeat refine built_after ?_
  exact .new _

/-- The sum is not read and leaves its check, the quotient is read and leaves its primitive. -/
theorem sum_and_quotient_left : ∃ s t : Workspace, s.builder = dividing ∧ Built s.builder ∧
    (do inlineLibraryCalls ⟨0⟩; eliminateDeadCode ⟨0⟩).run.run s = (.ok (), t) ∧
    (s.builder.module.funcInsts ⟨0⟩).map (fun i => (s.builder.module.insts.get i).op) =
    [.call, .call, .ret] ∧
    (t.builder.module.funcInsts ⟨0⟩).map (fun i => (t.builder.module.insts.get i).op) =
      [.structExtract, .structExtract, .primitive, .tupleExtract, .primitive, .structExtract,
      .structExtract, .primitive,
        .struct, .ret] ∧ ∃ code gone, Traced s.builder.module.view t.builder.module.view
        ⟨0⟩ code gone := by
  obtain ⟨s, hs⟩ : ∃ s : Workspace, s = { builder := dividing } := ⟨_, rfl⟩
  have hbuilder : s.builder = dividing := by rw [hs]
  have hbuilt : Built s.builder := hbuilder ▸ built_dividing
  have hok : checked ((do inlineLibraryCalls ⟨0⟩; eliminateDeadCode ⟨0⟩ : Transform Unit).run.run
    s).1 (fun _ => true) =
      true := by
    rw [hs]
    decide +kernel
  have hcode : (s.builder.module.funcInsts ⟨0⟩).map (fun i => (s.builder.module.insts.get i).op) =
    [.call, .call, .ret] ∧
      (((do inlineLibraryCalls ⟨0⟩; eliminateDeadCode ⟨0⟩ : Transform Unit).run.run
        s).2.builder.module.funcInsts
        ⟨0⟩).map
          (fun i => (((do inlineLibraryCalls ⟨0⟩; eliminateDeadCode ⟨0⟩ : Transform Unit).run.run
          s).2.builder.module.insts.get i).op) =
      [.structExtract, .structExtract, .primitive, .tupleExtract, .primitive, .structExtract,
        .structExtract, .primitive,
        .struct, .ret] := by
    rw [hs]
    decide +kernel
  obtain ⟨_, hrun⟩ := exists_run_of_checked hok
  have hwp := (operator_effects_kept hbuilt ⟨0⟩).2
  unfold wp at hwp
  rw [hrun] at hwp
  exact ⟨s, _, hbuilder, hbuilt, hrun, hcode.1, hcode.2, hwp⟩

/-- Divides its arguments for nothing. -/
def idleDivision : Tree.Module where
  name := "m"
  library := true
  funcs := [{ Tree.FuncDecl.define "f" "f" [{ name := "a", type := .int },
    { name := "b", type := .int }] .void
    [.eval (.callTo (Symbol.mangle "/" ["Int", "Int"]) .int [.varRef "a" .int, .varRef "b" .int])]
        with
    visibility := "public" }]

/-- The call of the division stays at the lower level; at the higher one nothing is left that
could trap. -/
theorem idle_division_dropped :
    ∃ m low high stats stats', (Lowering.generate idleDivision {} .off 0).1 = .ok m ∧
    Manager.standard.optimise .low m = .ok (stats, low) ∧ Manager.standard.optimise .high m = .ok
    (stats', high) ∧
    operations m = [.call, .ret] ∧ operations low = [.call, .ret] ∧ operations high = [.ret] := by
  obtain ⟨m, low, stats, hgen, hopt, hops, hops'⟩ := exists_compiled idleDivision .low
    (P := fun m low => operations m = [.call, .ret] ∧ operations low = [.call, .ret])
      (by decide +kernel)
  obtain ⟨m', high, stats', hgen', hopt', hhigh⟩ := exists_compiled idleDivision .high
    (P := fun _ high => operations high = [.ret]) (by decide +kernel)
  obtain rfl := Except.ok.inj (hgen.symm.trans hgen')
  exact ⟨m, low, high, stats, stats', hgen, hopt, hopt', hops, hops', hhigh⟩

/-! ### Which calls are expanded -/

/-- Calls are told by the name of the callee alone, whether it has a body or not: exactly those
whose callee bears the name of an operator give way to its code. The pass fails only on such a call
that has not the types of the operator. -/
theorem calls_expanded_by_name {s : Workspace} (h : s.builder.Sound) (f : FuncId) :
    wp (inlineLibraryCalls f)
      (fun _ t => ∃ code, Inlined s.builder.module.view t.builder.module.view
      (s.builder.module.funcInsts f) code ∧
        ∀ i ∈ s.builder.module.funcInsts f, (code i).isSome =
        (operatorCalled? s.builder.module i).isSome)
      (fun fault _ => (∃ e, fault = .error e) ∧ ∃ i ∈ s.builder.module.funcInsts f, ∃ op,
        operatorCalled? s.builder.module i = some op ∧ ¬ Genuine s.builder.module.view i op) s := by
  simp only [operatorCalled?_eq]
  refine wp_mono (wp_inlineLibraryCalls h f) ?_ fun _ _ hbad => hbad
  rintro _ t ⟨-, code, hin⟩
  refine ⟨code, hin, fun i hi => ?_⟩
  cases hcode : code i with
  | none =>
    rw [hin.complete i hi hcode]
    rfl
  | some c =>
    obtain ⟨-, -, op, hop, -⟩ := hin.computes i c hcode
    rw [hop]
    rfl

/-- The division of a generated module, which has no other call. -/
theorem generated_division_expanded : ∃ m t code,
    (Lowering.generate idleDivision {} .off 0).1 = .ok m ∧ Builder.Sound { module := m } ∧
    (inlineLibraryCalls ⟨0⟩).run.run { builder := { module := m } } = (.ok (), t) ∧
    Inlined m.view t.builder.module.view (m.funcInsts ⟨0⟩) code ∧
    (m.funcInsts ⟨0⟩).map (fun i => (code i).isSome) = [true, false] := by
  have hgen : checked (Lowering.generate idleDivision {} .off 0).1 (fun m =>
      checked ((inlineLibraryCalls ⟨0⟩).run.run { builder := { module := m } }).1
        (fun _ => true) &&
      decide ((m.funcInsts ⟨0⟩).map (fun i => (operatorCalled? m i).isSome) = [true, false])) =
      true := by
    decide +kernel
  obtain ⟨m, hm, hboth⟩ := exists_of_checked hgen
  obtain ⟨hok, hcalls⟩ := Bool.and_eq_true_iff.mp hboth
  obtain ⟨_, hrun⟩ := exists_run_of_checked hok
  have hsound := Lowering.sound_of_generate hm
  obtain ⟨code, hin, hcode⟩ := (wp_iff_of_ok hrun).mp
    (calls_expanded_by_name (s := { builder := { module := m } }) hsound ⟨0⟩)
  exact ⟨m, _, code, hm, hsound, hrun, hin,
    (map_congr_left hcode).trans (of_decide_eq_true hcalls)⟩

/-- Calls a function of its own that bears the name of the sum and returns its first argument. -/
def ownSum : Tree.Module where
  name := "m"
  library := true
  funcs :=
    let params : List Tree.Param := [{ name := "a", type := .int }, { name := "b", type := .int }]
    let sum := Symbol.mangle "+" ["Int", "Int"]
    [{ Tree.FuncDecl.define "plus" sum params .int [.ret (some (.varRef "a" .int))]
        with visibility := "public" },
      { Tree.FuncDecl.define "f" "f" params .int
        [.ret (some (.callTo sum .int [.varRef "a" .int, .varRef "b" .int]))]
        with visibility := "public" }]

/-- The call gives way to the code of the sum. -/
theorem own_sum_expanded : ∃ m high stats, (Lowering.generate ownSum {} .off 0).1 = .ok m ∧
    Manager.standard.optimise .high m = .ok (stats, high) ∧ operations m = [.ret, .call, .ret] ∧
    operations high = [.ret, .structExtract, .structExtract, .primitive, .tupleExtract, .primitive,
      .tupleExtract, .struct,
      .ret] :=
  exists_compiled ownSum .high (by decide +kernel)

end Midlevel.Pass
