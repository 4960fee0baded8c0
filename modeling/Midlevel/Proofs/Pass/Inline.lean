import Midlevel.Pass.Inline
import Midlevel.Proofs.Ir.Insertion

/-!
Calls of library operators give way to code. `OperatorCode` describes the code for one call: the
operands are unwrapped, the primitive is applied, a checked operator traps on overflow, and the
result is wrapped again. A run of the pass is a sequence of expansions (`Inlining`), and whatever is
said of a whole run comes from what one expansion does.
-/

namespace Midlevel.TypeTable

def Wraps (t : TypeTable) (type machine : TypeId) : Prop :=
  ∃ info, t.struct? type = some info ∧ info.fields = [⟨"value", machine⟩]

variable {t t' : TypeTable} {type machine : TypeId}

theorem Wraps.extends (h : t.Wraps type machine) (ht : t.Extends t') : t'.Wraps type machine := by
  obtain ⟨info, hinfo, hfields⟩ := h
  exact ⟨info, ht.struct? hinfo, hfields⟩

theorem Wraps.field? (h : t.Wraps type machine) : t.field? type "value" = some (0, machine) := by
  obtain ⟨info, hinfo, hfields⟩ := h
  rw [TypeTable.field?, hinfo, Option.bind_some, hfields]
  rfl

theorem Extends.kind_int64 (h : initial.Extends t) : t.kind .int64 = .int :=
  h.kind (by decide) (by decide)

theorem Extends.kind_bool (h : initial.Extends t) : t.kind .bool = .bool :=
  h.kind (by decide) (by decide)

end Midlevel.TypeTable

namespace Midlevel.Ir

open Midlevel.Flow
open Build

namespace LibraryOperator

variable (op : LibraryOperator)

def operand : TypeId := if op.boolOperands then .bool else .int64

def result : TypeId := if op.predicate then .bool else .int64

/-- What the primitive of an operator returns. Only a checked one returns more than its result. -/
def returns (types : TypeTable) : TypeId × TypeTable :=
  if op.checked then types.tuple [op.result, .bool] else (op.result, types)

theorem primitiveResult_eq {op : LibraryOperator} (hop : op ∈ all) {types : TypeTable}
    (ht : TypeTable.initial.Extends types) : ∃ c, op.primitive.class? = some c ∧ c.operands = 2 ∧
      primitiveResult types c [op.operand, op.operand] = .ok (op.returns types) := by
  have hint : alike types .int [.int64, .int64] = .ok .int64 := by
    simp [alike, ht.kind_int64]
  have hbool : alike types .bool [.bool, .bool] = .ok .bool := by
    simp [alike, ht.kind_bool]
  have hcases : (op.primitive.class? = some .intChecked ∧ op.checked = true ∧ op.operand = .int64 ∧
    op.result = .int64) ∨
      (op.primitive.class? = some .intBinary ∧ op.checked = false ∧ op.operand = .int64 ∧
        op.result = .int64) ∨
      (op.primitive.class? = some .intCompare ∧ op.checked = false ∧ op.operand = .int64 ∧
        op.result = .bool) ∨
      (op.primitive.class? = some .boolBinary ∧ op.checked = false ∧ op.operand = .bool ∧
          op.result = .bool) := by
    revert op
    decide
  rcases hcases with ⟨hc, hchecked, ho, hr⟩ | ⟨hc, hchecked, ho, hr⟩ | ⟨hc, hchecked, ho, hr⟩ | ⟨hc,
    hchecked, ho, hr⟩ <;>
    refine ⟨_, hc, rfl, ?_⟩ <;> unfold returns <;> rw [hchecked, ho, hr]
  · simp only [primitiveResult, hint]
    rfl
  · simp only [primitiveResult, hint]
    rfl
  · simp only [primitiveResult, hint]
    rfl
  · simp only [primitiveResult, hbool]
    rfl

end LibraryOperator

end Midlevel.Ir

/-! ### The code for one call -/

namespace Midlevel.Flow

open Ir

variable (l : Line)

def Line.Unwraps (a : Option Value) : Prop :=
  l.op = .structExtract ∧ l.payload.field = "value" ∧ l.reads = [a]

/-- The line takes element `index` of what `source` computes. -/
def Line.Picks (source : Line) (index : Int) : Prop :=
  l.op = .tupleExtract ∧ l.payload.index = index ∧ l.reads = [some (.inst source.id)]

def Line.Applies (p : Primitive) (args : List (Option Value)) : Prop :=
  l.op = .primitive ∧ l.payload = { primitive := p } ∧ l.reads = args

end Midlevel.Flow

namespace Midlevel.Pass

open Ir Build List

variable {Q : Post Value}

/-- The lines that stand for a call of a library operator. -/
structure OperatorCode where
  raws : List Flow.Line
  prim : Flow.Line
  /-- How a checked operator deals with overflow. -/
  checks : List Flow.Line
  wrap : Flow.Line

/-- From the primitive to the value that is wrapped: a checked operator traps if the overflow flag
is set. -/
inductive Guards (prim : Flow.Line) : Bool → List Flow.Line → Flow.Line → Prop
  | plain : Guards prim false [] prim
  | trapping {overflow fail value : Flow.Line} (hoverflow : overflow.Picks prim 1)
    (hfail : fail.Applies .condFail [some (.inst overflow.id)]) (hvalue : value.Picks prim 0) :
    Guards prim true [overflow, fail, value] value

namespace OperatorCode

def lines (c : OperatorCode) : List Flow.Line := c.raws ++ c.prim :: c.checks ++ [c.wrap]

/-- The code computes `op` on `args` and wraps the result into `type`. -/
structure Computes (c : OperatorCode) (op : LibraryOperator) (type : TypeId)
    (args : List (Option Value)) : Prop where
  raws : List.Forall₂ Flow.Line.Unwraps c.raws args
  prim : c.prim.Applies op.primitive (c.raws.map fun l => some (.inst l.id))
  checks : ∃ value, Guards c.prim op.checked c.checks value ∧ c.wrap.reads = [some (.inst value.id)]
  wrap : c.wrap.op = .struct ∧ c.wrap.type = type ∧ c.wrap.payload = { aggregate := type }

end OperatorCode

/-- The operands and the result of a call have the types that the library gives the operator. -/
structure Genuine (w : View) (i : InstId) (op : LibraryOperator) : Prop where
  machine : TypeTable.initial.Extends w.types
  args : ∃ f x y, w.reads i = [f, some x, some y] ∧ w.types.Wraps (w.valueType x) op.operand ∧
    w.types.Wraps (w.valueType y) op.operand
  result : w.types.Wraps (w.inst i).type op.result

section Expansion

variable {w : View} {b : BlockId} {pre post : List InstId} {i : InstId}
  {ls : List Flow.Line} {t : Builder}
  {E : Post Fault}
variable {op : LibraryOperator} {args : Args} {f : Option Value}

def Wrapped (w : View) (a : Option Value) (machine : TypeId) : Prop :=
  ∃ x, a = some x ∧ w.types.Wraps (w.valueType x) machine

theorem wp_buildNamed {x : Build InstId} {name : Text} : wp (buildNamed name x) Q E t ↔
    wp x (fun j u => wp (setName (.inst j) name) (fun _ u' => Q (.inst j) u') E u) E t := by
  simp only [buildNamed, wp_bind, wp_pure]

theorem wp_unwrap (hw : w.Host b pre i post) (hargs : ∀ x, some x ∈ args → w.Has x)
    (hE : ∀ e u ls', Building w b pre i post ls' u →
      (∃ a ∈ args, ∀ machine, ¬ Wrapped w a machine) → E (.error e) u)
    {Q : Post Args} (h : Building w b pre i post ls t)
    (k : ∀ u raws, Building w b pre i post (ls ++ raws) u →
      List.Forall₂ Flow.Line.Unwraps raws args →
      List.Forall₂ (fun l a => ∀ machine, Wrapped w a machine → l.type = machine) raws args →
      Q (raws.map fun l => some (.inst l.id)) u) :
    wp (args.mapM fun a => return some (Value.inst (← structExtract a "value"))) Q E t := by
  induction args generalizing ls t Q with
  | nil =>
    exact k t [] (by rwa [append_nil]) .nil .nil
  | cons a args ih =>
    have hfield {x : Value} {machine : TypeId} (hx : a = some x)
      (hwraps : w.types.Wraps (w.valueType x) machine) :
        t.module.types.field? (t.module.valueType x) "value" = some (0, machine) := by
      rw [h.valueType (hargs x (by simp [hx]))]
      exact (hwraps.extends h.inserts.types).field?
    rw [mapM_cons, wp_bind, wp_bind]
    refine h.structExtract hw (fun x hx => .inl (hargs x (by simp [hx]))) (fun e hbad => ?_)
      fun u x l index hx hl hop hpayload hreads hu => ?_
    · refine hE e t _ h ⟨a, mem_cons_self, ?_⟩
      rintro machine ⟨x, hx, hwraps⟩
      cases (hbad x hx).symm.trans (hfield hx hwraps)
    · rw [wp_pure, wp_bind]
      refine ih (fun y hy => hargs y (mem_cons_of_mem a hy)) ?_ hu
        fun u' raws hu' hraws htypes => ?_
      · rintro e u' ls' hu' ⟨c, hc, hbad⟩
        exact hE e u' ls' hu' ⟨c, mem_cons_of_mem a hc, hbad⟩
      · refine k u' (l :: raws) (by rwa [append_cons]) ?_ ?_
        · exact .cons ⟨hop, by rw [hpayload], hreads⟩ hraws
        · refine .cons ?_ htypes
          rintro machine ⟨y, hy, hwraps⟩
          obtain rfl := Option.mem_unique hx hy
          exact congrArg Prod.snd (Option.mem_unique hl (hfield hx hwraps))

theorem callArgs_of_reads {m : Module} (h : m.view.reads i = f :: args) :
    callArgs m i = some args := by
  have hmap : (m.insts.get i).operands.map m.operandValue = f :: args := h
  unfold callArgs
  cases hos : (m.insts.get i).operands with
  | nil =>
    rw [hos] at hmap
    cases hmap
  | cons o os =>
    rw [hos, map_cons, cons.injEq] at hmap
    exact congrArg some hmap.2

/-- The operands of a genuine call are two, and they wrap what the operator works on. -/
theorem Genuine.wrapped (h : Genuine w i op) (hreads : w.reads i = f :: args) :
    ∃ x y, args = [x, y] ∧ Wrapped w x op.operand ∧ Wrapped w y op.operand := by
  obtain ⟨g, x, y, hargs, hx, hy⟩ := h.args
  obtain ⟨-, rfl⟩ := cons.inj (hreads.symm.trans hargs)
  exact ⟨_, _, rfl, ⟨x, rfl, hx⟩, ⟨y, rfl, hy⟩⟩

theorem Genuine.primitiveType (h : Genuine w i op) (hop : op ∈ LibraryOperator.all)
    (hreads : w.reads i = f :: args) (ht : Building w b pre i post ls t) {raws : List Flow.Line}
    (hraws : List.Forall₂ (fun l a => ∀ machine, Wrapped w a machine → l.type = machine) raws args)
    (hmem : ∀ l ∈ raws, l ∈ ls) : ∃ c, op.primitive.class? = some c ∧
      primitiveType t.module.types t.module.valueType c
      (raws.map fun l => some (.inst l.id)) = .ok (op.returns t.module.types) := by
  obtain ⟨x, y, rfl, hx, hy⟩ := h.wrapped hreads
  obtain ⟨l, _, hl, hrest, rfl⟩ := forall₂_cons_right_iff.mp hraws
  obtain ⟨l', _, hl', hnil, rfl⟩ := forall₂_cons_right_iff.mp hrest
  obtain rfl := forall₂_nil_right_iff.mp hnil
  obtain ⟨c, hc, hoperands, hresult⟩ :=
    LibraryOperator.primitiveResult_eq hop (h.machine.trans ht.inserts.types)
  refine ⟨c, hc, ?_⟩
  have htype : t.module.valueType (.inst l.id) = op.operand :=
    (ht.type_line (hmem l (by simp))).trans (hl _ hx)
  have htype' : t.module.valueType (.inst l'.id) = op.operand :=
    (ht.type_line (hmem l' (by simp))).trans (hl' _ hy)
  simp only [Build.primitiveType, map_cons, map_nil, length_cons, length_nil, hoperands, present]
  simp only [ne_eq, not_true_eq_false, if_false, bind, Except.bind, pure, Except.pure, map_cons,
    map_nil, htype, htype']
  exact hresult

def guarded (op : LibraryOperator) (prim : Value) : Build Value :=
  if op.checked then do
    let overflow ← buildNamed "overflow" (tupleExtract (some prim) 1)
    let _ ← condFail (some overflow)
    buildNamed "value" (tupleExtract (some prim) 0)
  else pure prim

theorem expandOperator_eq (call : InstId) (op : LibraryOperator) : expandOperator call op = (do
    let args ← demand (callArgs (← Build.module) call)
    let raw ← args.mapM fun a => return some (Value.inst (← structExtract a "value"))
    let prim ← buildNamed op.primitive.name (primitive op.primitive raw)
    let result ← guarded op prim
    let _ ← struct (← inst call).type [some result]) := by
  unfold expandOperator guarded
  split
  · simp only [bind_assoc]
  · simp only [pure_bind]

theorem LibraryOperator.tupleElem?_returns (hchecked : op.checked = true) {types types' : TypeTable}
    {type : TypeId} (hrooted : types.Rooted) (h : (type, types') = op.returns types) :
    types'.tupleElem? type 0 = some op.result ∧ types'.tupleElem? type 1 = some .bool := by
  rw [LibraryOperator.returns, if_pos hchecked] at h
  have htype : type = (types.tuple [op.result, .bool]).1 := congrArg Prod.fst h
  have htypes : types' = (types.tuple [op.result, .bool]).2 := congrArg Prod.snd h
  unfold TypeTable.tupleElem?
  rw [htype, htypes, TypeTable.tuple?_tuple hrooted]
  exact ⟨rfl, rfl⟩

theorem primitiveType_condFail (types : TypeTable) {valueType : Value → TypeId} {flag : Value}
    (h : valueType flag = .bool) : Build.primitiveType types valueType .condFail [some flag] =
      .ok (.void, types) := by
  simp [Build.primitiveType, PrimitiveClass.operands, present, bind, Except.bind, pure, Except.pure,
    primitiveResult,
    exactly, h]

theorem wp_guarded (hw : w.Host b pre i post) {prim : Flow.Line} {types : TypeTable} {good : Prop}
    (hprim : prim ∈ ls) (hgood : good → types.Rooted ∧
      (prim.type, t.module.types) = op.returns types)
    (h : Building w b pre i post ls t)
    (hE : ∀ e u ls', Building w b pre i post ls' u → ¬ good → E (.error e) u)
    (k : ∀ u checks value, Building w b pre i post (ls ++ checks) u → value ∈ ls ++ checks →
      Guards prim op.checked checks value → (good → value.type = op.result) →
      Q (.inst value.id) u) :
    wp (guarded op (.inst prim.id)) Q E t := by
  unfold guarded
  split
  · next hchecked =>
    have hprimType {u : Builder} {ls' : List Flow.Line}
      (hu : Building w b pre i post (ls ++ ls') u) :
        u.module.valueType (.inst prim.id) = prim.type := hu.type_line (mem_append_left _ hprim)
    have helems (hg : good) := LibraryOperator.tupleElem?_returns hchecked (hgood hg).1 (hgood hg).2
    have hoffers (ls' : List Flow.Line) : ∀ x, some (Value.inst prim.id) = some x →
        w.Offers (ls ++ ls') x := by
      rintro x hx
      obtain rfl := Option.some.inj hx
      exact .inr ⟨prim, mem_append_left _ hprim, rfl⟩
    rw [← append_nil ls] at h
    rw [wp_bind, wp_buildNamed]
    refine h.tupleExtract hw (hoffers []) (fun e hbad => hE e _ _ h fun hg => ?_)
      fun u x overflow hx hflag htypes hop hpayload hreads hu => ?_
    · have hnone := hbad _ rfl
      rw [hprimType h, (helems hg).2] at hnone
      cases hnone
    obtain rfl := Option.some.inj hx
    rw [hprimType h] at hflag
    refine hu.setName (by simp) _ fun u' htypes' hu' => ?_
    rw [wp_bind]
    have hbool (hg : good) : u'.module.valueType (.inst overflow.id) = .bool := by
      rw [hu'.type_line (by simp)]
      exact Option.mem_unique hflag (helems hg).2
    refine hu'.primitive hw ?_ (fun e hbad => hE e _ _ hu' fun hg => ?_)
      fun v fail c types' hc hresult htypes'' hop' hpayload' hreads' hv => ?_
    · rintro y hy
      obtain rfl := Option.some.inj (mem_singleton.mp hy)
      exact .inr ⟨overflow, by simp, rfl⟩
    · exact hbad _ _ _ rfl (primitiveType_condFail _ (hbool hg))
    have hextends : t.module.types.Extends v.module.types := by
      rw [← htypes, ← htypes', htypes'']
      exact TypeTable.extends_primitiveType _ hresult
    rw [wp_buildNamed]
    simp only [append_assoc] at hv
    refine hv.tupleExtract hw (hoffers _) (fun e hbad => hE e _ _ hv fun hg => ?_)
      fun z y value hy hvalue _ hop'' hpayload'' hreads'' hz => ?_
    · have hnone := hbad _ rfl
      rw [hprimType hv, hextends.tupleElem? (helems hg).1] at hnone
      cases hnone
    obtain rfl := Option.some.inj hy
    rw [hprimType hv] at hvalue
    refine hz.setName (by simp) _ fun z' _ hz' => ?_
    refine k z' [overflow, fail, value] value (by simpa using hz') (by simp) ?_ fun hg => ?_
    · rw [hchecked]
      exact .trapping ⟨hop, by rw [hpayload], hreads⟩ ⟨hop', hpayload', hreads'⟩ ⟨hop'',
        by rw [hpayload''], hreads''⟩
    · exact Option.mem_unique hvalue (hextends.tupleElem? (helems hg).1)
  · next hplain =>
    refine k t [] prim (by rwa [append_nil]) (by simpa using hprim) ?_ fun hg => ?_
    · rw [Bool.not_eq_true] at hplain
      rw [hplain]
      exact .plain
    · have hreturns := (hgood hg).2
      rw [LibraryOperator.returns, if_neg hplain] at hreturns
      exact congrArg Prod.fst hreturns

/-- The code for a call is built. It is refused only if the call is not genuine. -/
theorem wp_expandOperator (hw : w.Host b pre i post) (hop : op ∈ LibraryOperator.all)
    (hreads : w.reads i = f :: args) (hargs : ∀ x, some x ∈ args → w.Has x)
    (h : Building w b pre i post [] t) :
    wp (expandOperator i op) (fun _ u => ∃ ls, Building w b pre i post ls u ∧
        ∃ c : OperatorCode, ls = c.lines ∧ c.Computes op (w.inst i).type args)
      (fun f u => (∃ e, f = .error e) ∧ ¬ Genuine w i op ∧
      ∃ ls, Building w b pre i post ls u) t := by
  rw [expandOperator_eq, wp_bind, wp_module, wp_bind,
    callArgs_of_reads ((h.inserts.reads i not_mem_nil).trans hreads)]
  dsimp only [demand]
  rw [wp_pure, wp_bind]
  refine wp_unwrap hw hargs ?_ h fun u raws hu hraws hrawTypes => ?_
  · rintro e u ls' hu ⟨a, ha, hbad⟩
    refine ⟨⟨e, rfl⟩, fun hgenuine => ?_, ls', hu⟩
    obtain ⟨x, y, rfl, hx, hy⟩ := hgenuine.wrapped hreads
    simp only [mem_cons, not_mem_nil, or_false] at ha
    rcases ha with rfl | rfl
    · exact hbad _ hx
    · exact hbad _ hy
  rw [wp_bind]
  -- From here on the types of the lines are known only if the call is genuine.
  have hprimType := fun hgenuine : Genuine w i op =>
    hgenuine.primitiveType hop hreads hu hrawTypes fun l hl => hl
  rw [wp_buildNamed]
  refine hu.primitive hw ?_ ?_ fun v prim c types hc hprim htypes hop' hpayload hprimReads hv => ?_
  · intro x hx
    obtain ⟨l, hl, heq⟩ := mem_map.mp hx
    exact .inr ⟨l, hl, (Option.some.inj heq).symm⟩
  · intro e hbad
    refine ⟨⟨e, rfl⟩, fun hgenuine => ?_, _, hu⟩
    obtain ⟨c, hc, hok⟩ := hprimType hgenuine
    exact hbad c _ _ hc hok
  refine hv.setName (by simp) _ fun v' htypes' hv' => ?_
  have hreturns : Genuine w i op →
      u.module.types.Rooted ∧ (prim.type, v'.module.types) = op.returns u.module.types := by
    intro hgenuine
    refine ⟨(hgenuine.machine.trans hu.inserts.types).rooted TypeTable.rooted_initial, ?_⟩
    obtain ⟨c', hc', hok⟩ := hprimType hgenuine
    obtain rfl := Option.mem_unique hc hc'
    rw [htypes', htypes]
    exact Except.ok.inj (hprim.symm.trans hok)
  rw [wp_bind]
  refine wp_guarded hw (by simp) hreturns hv' ?_
    fun z checks value hz hvalue hguards hvalueType => ?_
  · exact fun e z ls' hz hbad => ⟨⟨e, rfl⟩, hbad, ls', hz⟩
  rw [wp_bind, wp_inst, wp_bind]
  have hinst : (z.module.insts.get i).type = (w.inst i).type := by
    rw [← hz.inserts.inst i (hz.inserts.ids.not_mem hw.made)]
    rfl
  rw [hinst]
  refine hz.struct hw ?_ ?_ fun z' wrap htype hwrap hwrapPayload hwrapReads hz' => ?_
  · rintro x hx
    obtain rfl := Option.some.inj (mem_singleton.mp hx)
    exact .inr ⟨value, hvalue, rfl⟩
  · intro e hbad
    refine ⟨⟨e, rfl⟩, fun hgenuine => ?_, _, hz⟩
    obtain ⟨info, hinfo, hfields⟩ := hgenuine.result.extends hz.inserts.types
    refine hbad info hinfo (by rw [hfields]; rfl) fun p hp => ?_
    rw [hfields] at hp
    obtain rfl := mem_singleton.mp hp
    exact ⟨_, rfl, fun _ => (hz.type_line hvalue).trans (hvalueType hgenuine)⟩
  · refine ⟨_, hz', ⟨raws, prim, checks, wrap⟩, ?_, hraws, ⟨hop', hpayload, hprimReads⟩,
      ⟨value, hguards, hwrapReads⟩,
      hwrap, htype, hwrapPayload⟩
    simp [OperatorCode.lines]

end Expansion

/-! ### One call -/

end Midlevel.Pass

namespace Midlevel.Ir.View

def calledOperator (w : View) (i : InstId) : Option LibraryOperator :=
  if (w.inst i).erased then none else (w.callee i).bind fun f =>
    LibraryOperator.named? (w.func f).name

variable {w : View} {i : InstId} {op : LibraryOperator}

theorem callee_of_calledOperator (h : w.calledOperator i = some op) :
    ∃ f, w.callee i = some f ∧ LibraryOperator.named? (w.func f).name = some op := by
  unfold calledOperator at h
  split at h
  · cases h
  · exact Option.bind_eq_some_iff.mp h

theorem Shape.nodup_funcInsts (h : w.Shape) (f : FuncId) : (w.funcInsts f).Nodup := by
  refine List.nodup_flatMap.mpr ⟨fun b _ => h.insts.nodup b,
    (h.blocks.nodup f).imp fun {b c} hbc => ?_⟩
  intro j hb hc
  exact hbc (Option.mem_unique (h.insts.placed j b hb) (h.insts.placed j c hc))

end Midlevel.Ir.View

namespace Midlevel.Pass

open Ir Build List

variable {b : BlockId} {prim value : Flow.Line} {checks : List Flow.Line}

theorem operatorCalled?_eq (m : Module) (i : InstId) :
    operatorCalled? m i = m.view.calledOperator i := by
  unfold operatorCalled? View.calledOperator
  rw [Module.callee_view]
  rfl

/-- A call of `op` gave way to its code. -/
structure Expanded (w w' : View) (i : InstId) (op : LibraryOperator) (c : OperatorCode) : Prop where
  called : w.calledOperator i = some op
  computes : c.Computes op (w.inst i).type (w.reads i).tail
  expands : ∃ w₁ b pre post, w.Host b pre i post ∧ w.Expands w₁ w' b pre i post c.lines c.wrap

theorem OperatorCode.getLast?_lines (c : OperatorCode) : c.lines.getLast? = some c.wrap :=
  getLast?_concat

theorem wp_inlineCall {s : Builder} (hs : s.Sound) {pre post : List InstId} {i : InstId}
    (hw : s.view.Host b pre i post) {op : LibraryOperator}
    (hop : s.view.calledOperator i = some op) :
    wp (inlineCall i op) (fun _ u => u.Sound ∧ ∃ c, Expanded s.view u.view i op c)
      (fun f _ => (∃ e, f = .error e) ∧ ¬ Genuine s.view i op) s := by
  obtain ⟨f, hf, hnamed⟩ := View.callee_of_calledOperator hop
  obtain ⟨args, hreads⟩ := View.reads_of_callee hf
  have hargs : ∀ x, some x ∈ args → s.view.Has x := by
    intro x hx
    exact hs.linked.hasValue_of_reads (.inl ⟨i, hreads ▸ mem_cons_of_mem _ hx⟩)
  rw [inlineCall, wp_bind, wp_attempt]
  refine wp_mono (wp_explode hs hw fun t ht =>
    wp_expandOperator hw (mem_of_find?_eq_some hnamed) hreads hargs ht) ?_ ?_
  · rintro _ u ⟨hu, _, w₁, last, ⟨c, rfl, hc⟩, hexpands⟩
    obtain rfl := Option.some.inj (c.getLast?_lines.symm.trans hexpands.getLast)
    refine ⟨hu, c, hop, ?_, w₁, b, pre, post, hw, hexpands⟩
    rw [hreads]
    exact hc
  · rintro _ u ⟨⟨e, rfl⟩, hbad⟩
    refine ⟨⟨_, rfl⟩, ?_⟩
    rcases hbad with hbad | ⟨_, ⟨c, rfl, hc⟩, hunfit⟩
    · exact hbad
    · exact absurd hc.wrap.2.1 (hunfit _ c.getLast?_lines)

/-! ### A whole run -/

/-- Renaming keeps the guard of the code as long as it keeps the code's own lines. -/
theorem Guards.mapValues {checked : Bool} {f : Option Value → Option Value}
    (h : Guards prim checked checks value)
    (hf : ∀ l ∈ prim :: checks, f (some (.inst l.id)) = some (.inst l.id)) :
    Guards (prim.mapValues f) checked (checks.map (·.mapValues f)) (value.mapValues f) := by
  have hreads {l : Flow.Line} (source : Flow.Line) (hsource : source ∈ prim :: checks)
    (hl : l.reads = [some (.inst source.id)]) :
      (l.mapValues f).reads = [some (.inst source.id)] := by
    show l.reads.map f = _
    rw [hl, map_singleton, hf source hsource]
  cases h with
  | plain => exact .plain
  | @trapping overflow fail _ hoverflow hfail hvalue =>
    exact .trapping ⟨hoverflow.1, hoverflow.2.1, hreads prim (by simp) hoverflow.2.2⟩
      ⟨hfail.1, hfail.2.1, hreads overflow (by simp) hfail.2.2⟩
      ⟨hvalue.1, hvalue.2.1, hreads prim (by simp) hvalue.2.2⟩

theorem Guards.value_mem {checked : Bool} (h : Guards prim checked checks value) :
    value ∈ prim :: checks := by
  cases h <;> simp

namespace OperatorCode

def mapValues (c : OperatorCode) (f : Option Value → Option Value) : OperatorCode :=
  ⟨c.raws.map (·.mapValues f), c.prim.mapValues f, c.checks.map (·.mapValues f), c.wrap.mapValues f⟩

variable {c : OperatorCode} {f : Option Value → Option Value} {op : LibraryOperator} {type : TypeId}
  {args : Args}

theorem lines_mapValues (c : OperatorCode) (f : Option Value → Option Value) :
    (c.mapValues f).lines = c.lines.map (·.mapValues f) := by
  simp [lines, mapValues]

theorem ids_mapValues (c : OperatorCode) (f : Option Value → Option Value) :
    (c.mapValues f).lines.map (·.id) = c.lines.map (·.id) := by
  rw [lines_mapValues, map_map]
  rfl

theorem Computes.mapValues (h : c.Computes op type args)
    (hf : ∀ l ∈ c.lines, f (some (.inst l.id)) = some (.inst l.id)) :
    (c.mapValues f).Computes op type (args.map f) := by
  obtain ⟨value, hguards, hwrap⟩ := h.checks
  have hown : ∀ l ∈ c.prim :: c.checks, f (some (.inst l.id)) = some (.inst l.id) :=
    fun l hl => hf l (mem_append_left _ (mem_append_right _ hl))
  refine ⟨?_, ⟨h.prim.1, h.prim.2.1, ?_⟩, ?_, h.wrap⟩
  · show List.Forall₂ _ (c.raws.map _) (args.map f)
    rw [forall₂_map_left_iff, forall₂_map_right_iff]
    refine h.raws.imp fun l a hl => ⟨hl.1, hl.2.1, ?_⟩
    show l.reads.map f = [f a]
    rw [hl.2.2]
    rfl
  · show c.prim.reads.map f = (c.raws.map _).map _
    rw [h.prim.2.2, map_map, map_map]
    exact map_congr_left fun l hl => hf l (by simp [lines, hl])
  · refine ⟨value.mapValues f, hguards.mapValues hown, ?_⟩
    show c.wrap.reads.map f = [some (.inst value.id)]
    rw [hwrap, map_singleton, hown value hguards.value_mem]

end OperatorCode

/-- The values that are read once the calls in `code` are expanded. -/
def rename (code : InstId → Option OperatorCode) : Option Value → Option Value
  | some (.inst i) => some (.inst (((code i).map (·.wrap.id)).getD i))
  | v => v

def standIns (code : InstId → Option OperatorCode) (i : InstId) : List InstId :=
  ((code i).map fun c => c.lines.map (·.id)).getD [i]

/-- The instructions `done` were looked at, and those that called library operators gave way to
`code`. -/
structure Inlined (w₀ w : View) (done : List InstId)
    (code : InstId → Option OperatorCode) : Prop where
  size : w₀.insts ≤ w.insts
  types : w₀.types.Extends w.types
  computes : ∀ i c, code i = some c → i ∈ done ∧ i.index < w₀.insts ∧
    ∃ op, w₀.calledOperator i = some op ∧
    c.Computes op (w₀.inst i).type ((w₀.reads i).tail.map (rename code))
  complete : ∀ i ∈ done, code i = none → w₀.calledOperator i = none
  shows : ∀ i c, code i = some c → ∀ l ∈ c.lines, w₀.insts ≤ l.id.index ∧ l.id.index < w.insts ∧
    w.line l.id = l ∧
    (w.inst l.id).erased = false ∧ (w.inst l.id).block = (w₀.inst i).block
  gone : ∀ i c, code i = some c → (w.inst i).erased = true ∧ w.reads i = [] ∧ w.exits i = []
  inst : ∀ j, j.index < w₀.insts → code j = none → w.inst j = w₀.inst j
  reads : ∀ j, j.index < w₀.insts → code j = none → w.reads j = (w₀.reads j).map (rename code)
  exits : ∀ j, j.index < w₀.insts → code j = none →
    w.exits j = (w₀.exits j).map fun x => { x with args := x.args.map (rename code) }
  block : ∀ b, w.block b = { w₀.block b with insts := (w₀.block b).insts.flatMap (standIns code) }
  attached : w₀.Attached → w.Attached
  rest : { w with
    inst := w₀.inst, reads := w₀.reads, exits := w₀.exits, entered := w₀.entered, block := w₀.block,
      opens := w₀.opens
    insts := w₀.insts, types := w₀.types } = w₀

/-- The code of one more call; what read the call now reads its result. -/
def withCode (code : InstId → Option OperatorCode) (i : InstId) (c : OperatorCode) (j : InstId) :
    Option OperatorCode :=
  if j = i then some (c.mapValues (substitute (.inst i) (.inst c.wrap.id)))
  else (code j).map (·.mapValues (substitute (.inst i) (.inst c.wrap.id)))

section WithCode

variable {code : InstId → Option OperatorCode} {i j : InstId} {c : OperatorCode}

theorem withCode_eq_none : withCode code i c j = none ↔ j ≠ i ∧ code j = none := by
  unfold withCode
  split <;> simp_all

theorem withCode_self :
    withCode code i c i = some (c.mapValues (substitute (.inst i) (.inst c.wrap.id))) := if_pos rfl

theorem withCode_of_ne (hj : j ≠ i) :
    withCode code i c j = (code j).map (·.mapValues (substitute (.inst i) (.inst c.wrap.id))) :=
  if_neg hj

variable (hi : code i = none) (hfresh : ∀ j c', code j = some c' → ∀ l ∈ c'.lines, l.id ≠ i)
include hi hfresh

theorem rename_withCode (v : Option Value) :
    rename (withCode code i c) v = substitute (.inst i) (.inst c.wrap.id) (rename code v) := by
  match v with
  | none => rfl
  | some (.param _) => rfl
  | some (.func _) => rfl
  | some (.global _) => rfl
  | some (.inst j) =>
    by_cases hj : j = i
    · subst hj
      simp only [rename, withCode_self, hi]
      exact (if_pos rfl).symm
    · simp only [rename, withCode_of_ne hj, Option.map_map]
      have hne : ((code j).map (·.wrap.id)).getD j ≠ i := by
        cases hcode : code j with
        | none => exact hj
        | some c' => exact hfresh j c' hcode c'.wrap (by simp [OperatorCode.lines])
      unfold substitute
      rw [if_neg fun heq => hne (Value.inst.inj (Option.some.inj heq))]
      rfl

theorem standIns_withCode (j : InstId) : standIns (withCode code i c) j =
    (standIns code j).flatMap fun k => if k = i then c.lines.map (·.id) else [k] := by
  by_cases hj : j = i
  · subst hj
    simp [standIns, withCode_self, hi, OperatorCode.ids_mapValues]
  · unfold standIns
    rw [withCode_of_ne hj]
    cases hcode : code j with
    | none => simp [hj]
    | some c' =>
      have hone : ∀ k ∈ c'.lines.map (·.id), (if k = i then c.lines.map (·.id) else [k]) = [k] := by
        intro k hk
        obtain ⟨l, hl, rfl⟩ := mem_map.mp hk
        exact if_neg (hfresh j c' hcode l hl)
      simp only [Option.map_some, Option.getD_some, OperatorCode.ids_mapValues]
      rw [flatMap_congr hone, flatMap_singleton']

end WithCode

section Runs

variable {w₀ w w' : View} {done : List InstId} {code : InstId → Option OperatorCode} {i j : InstId}
  {op : LibraryOperator}
  {c : OperatorCode}

theorem Inlined.start (w : View) : Inlined w w [] fun _ => none := by
  have hrename : rename (fun _ => none) = id := by
    funext v
    match v with
    | none | some (.inst _) | some (.param _) | some (.func _) | some (.global _) => rfl
  have hstand : standIns (fun _ => none) = fun i => [i] := rfl
  refine ⟨le_refl _, .rfl, fun _ _ h => ?_, by simp, fun _ _ h => ?_, fun _ _ h => ?_,
    fun _ _ _ => rfl, fun j _ _ => ?_, fun j _ _ => ?_, fun b => ?_, id, rfl⟩
  · cases h
  · cases h
  · cases h
  · rw [hrename, map_id]
  · simp only [hrename, map_id]
    exact (map_id' _).symm
  · rw [hstand, flatMap_singleton']

variable (h : Inlined w₀ w done code)
include h

namespace Inlined

theorem func : w.func = w₀.func := by
  have hfunc := congrArg View.func h.rest
  exact hfunc

theorem fresh (hi : i.index < w₀.insts) (hcode : code j = some c) {l : Flow.Line}
    (hl : l ∈ c.lines) : l.id ≠ i := by
  rintro rfl
  exact absurd (h.shows j c hcode l hl).1 (by omega)

theorem code_eq_none (hi : i ∉ done) : code i = none := by
  cases hcode : code i with
  | none => rfl
  | some c => exact absurd (h.computes i c hcode).1 hi

theorem callee (hj : j.index < w₀.insts) (hcode : code j = none) : w.callee j = w₀.callee j := by
  unfold View.callee
  rw [h.inst j hj hcode, h.reads j hj hcode]
  split
  · cases w₀.reads j with
    | nil => rfl
    | cons v vs =>
      match v with
      | none | some (.param _) | some (.func _) | some (.global _) | some (.inst _) => rfl
  · rfl

theorem calledOperator (hj : j.index < w₀.insts) (hcode : code j = none) :
    w.calledOperator j = w₀.calledOperator j := by
  unfold View.calledOperator
  rw [h.inst j hj hcode, h.callee hj hcode, h.func]

theorem skip (hi : i.index < w₀.insts) (hnew : i ∉ done) (hop : w.calledOperator i = none) :
    Inlined w₀ w (done ++ [i]) code := by
  refine ⟨h.size, h.types, fun j c hc => ?_, fun j hj hc => ?_, h.shows, h.gone, h.inst, h.reads,
    h.exits, h.block,
    h.attached, h.rest⟩
  · obtain ⟨hdone, hrest⟩ := h.computes j c hc
    exact ⟨mem_append_left _ hdone, hrest⟩
  · rcases mem_append.mp hj with hj | hj
    · exact h.complete j hj hc
    · obtain rfl := mem_singleton.mp hj
      rw [← h.calledOperator hi hc]
      exact hop

theorem expand (hi : i.index < w₀.insts) (hnew : i ∉ done) (hs : w.Shape)
    (hx : Expanded w w' i op c) :
    Inlined w₀ w' (done ++ [i]) (withCode code i c) := by
  obtain ⟨w₁, b, pre, post, hw, he⟩ := hx.expands
  have hnone := h.code_eq_none hnew
  have hfresh : ∀ j c', code j = some c' → ∀ l ∈ c'.lines, l.id ≠ i := fun j c' hc' l hl =>
    h.fresh hi hc' hl
  have hrename : rename (withCode code i c) =
      substitute (.inst i) (.inst c.wrap.id) ∘ rename code :=
    funext (rename_withCode hnone hfresh)
  -- What was there before the expansion is none of the new lines.
  have hold {j : InstId} (hj : j.index < w.insts) : j ∉ c.lines.map (·.id) :=
    he.inserts.ids.not_mem hj
  have hkept {j : InstId} (hj : j.index < w₀.insts) : j.index < w.insts := lt_of_lt_of_le hj h.size
  have hfix {l : Flow.Line} (hl : l.id ≠ i) :
      substitute (.inst i) (.inst c.wrap.id) (some (.inst l.id)) = some (.inst l.id) :=
    if_neg fun heq => hl (Value.inst.inj (Option.some.inj heq))
  have hgrows : w.insts ≤ w'.insts := by
    rw [he.size]
    exact Nat.le_add_right _ _
  refine ⟨le_trans h.size hgrows, h.types.trans he.types, fun j c' hc' => ?_, fun j hj hc' => ?_,
    fun j c' hc' l hl => ?_,
    fun j c' hc' => ?_, fun j hj hc' => ?_, fun j hj hc' => ?_, fun j hj hc' => ?_, fun d => ?_,
    fun ha => he.attached hw hs (h.attached ha), ?_⟩
  · by_cases hj : j = i
    · subst hj
      obtain rfl := Option.mem_unique withCode_self hc'
      refine ⟨by simp, hi, op, ?_, ?_⟩
      · rw [← h.calledOperator hi hnone]
        exact hx.called
      · have hcomputes := hx.computes.mapValues fun l hl => hfix (he.line_ne hw hl)
        rw [h.inst j hi hnone, h.reads j hi hnone, ← map_tail, map_map, ← hrename] at hcomputes
        exact hcomputes
    · rw [withCode_of_ne hj] at hc'
      obtain ⟨c'', hc'', rfl⟩ := Option.map_eq_some_iff.mp hc'
      obtain ⟨hdone, hlt, op', hop', hcomputes⟩ := h.computes j c'' hc''
      refine ⟨mem_append_left _ hdone, hlt, op', hop', ?_⟩
      rw [hrename, ← map_map]
      exact hcomputes.mapValues fun l hl => hfix (hfresh j c'' hc'' l hl)
  · obtain ⟨hne, hc'⟩ := withCode_eq_none.mp hc'
    refine h.complete j ?_ hc'
    simpa [hne] using hj
  · by_cases hj : j = i
    · subst hj
      obtain rfl := Option.mem_unique withCode_self hc'
      rw [OperatorCode.lines_mapValues] at hl
      obtain ⟨l, hmem, rfl⟩ := mem_map.mp hl
      obtain ⟨hline, hblock, herased⟩ := he.shows hw hmem
      obtain ⟨hge, hlt⟩ := he.inserts.ids.lt (mem_map_of_mem hmem)
      refine ⟨le_trans h.size hge, he.size ▸ hlt, hline, herased, ?_⟩
      rw [← h.inst j hi hnone, hw.stands.block]
      exact hblock
    · rw [withCode_of_ne hj] at hc'
      obtain ⟨c'', hc'', rfl⟩ := Option.map_eq_some_iff.mp hc'
      rw [OperatorCode.lines_mapValues] at hl
      obtain ⟨l, hmem, rfl⟩ := mem_map.mp hl
      obtain ⟨hge, hlt, hline, herased, hblock⟩ := h.shows j c'' hc'' l hmem
      have hne := hfresh j c'' hc'' l hmem
      have hinst := he.inst hne (hold hlt)
      refine ⟨hge, lt_of_lt_of_le hlt hgrows, ?_, hinst ▸ herased, hinst ▸ hblock⟩
      show w'.line l.id = _
      rw [he.line hne (hold hlt), hline]
  · by_cases hj : j = i
    · subst hj
      exact ⟨he.gone.1, he.gone.2.2.1, he.gone.2.2.2⟩
    · rw [withCode_of_ne hj] at hc'
      obtain ⟨c'', hc'', -⟩ := Option.map_eq_some_iff.mp hc'
      obtain ⟨herased, hreads, hexits⟩ := h.gone j c'' hc''
      have hnot := hold (hkept (h.computes j c'' hc'').2.1)
      rw [he.inst hj hnot, he.reads hj hnot, he.exits hj hnot, hreads, hexits]
      exact ⟨herased, rfl, rfl⟩
  · obtain ⟨hne, hc'⟩ := withCode_eq_none.mp hc'
    rw [he.inst hne (hold (hkept hj)), h.inst j hj hc']
  · obtain ⟨hne, hc'⟩ := withCode_eq_none.mp hc'
    rw [he.reads hne (hold (hkept hj)), h.reads j hj hc', hrename, map_map]
  · obtain ⟨hne, hc'⟩ := withCode_eq_none.mp hc'
    rw [he.exits hne (hold (hkept hj)), h.exits j hj hc', hrename]
    simp only [Function.comp_def, map_map]
  · rw [he.block hw hs d, h.block d]
    have hstand : standIns (withCode code i c) = fun j => (standIns code j).flatMap _ :=
      funext (standIns_withCode hnone hfresh)
    rw [hstand]
    simp only [flatMap_assoc]
  · have hrest := congrArg (fun x : View => { x with
      inst := w₀.inst, reads := w₀.reads, exits := w₀.exits, entered := w₀.entered,
        block := w₀.block, opens := w₀.opens
      insts := w₀.insts, types := w₀.types }) he.inserts.rest
    rw [he.eq]
    exact hrest.trans h.rest

end Inlined

end Runs

/-! ### The pass -/

section Pass

variable {w₀ w : View} {done : List InstId} {code : InstId → Option OperatorCode} {i : InstId}
  {op : LibraryOperator}

namespace Inlined

variable (h : Inlined w₀ w done code)
include h

theorem valueType {x : Value} (hx : w₀.Has x) :
    ∃ y, rename code (some x) = some y ∧ w.valueType y = w₀.valueType x := by
  cases x with
  | param p => exact ⟨.param p, rfl, congrArg Param.type (congrFun (congrArg View.param h.rest) p)⟩
  | func f => exact ⟨.func f, rfl, congrArg Func.type (congrFun (congrArg View.func h.rest) f)⟩
  | global g =>
    exact ⟨.global g, rfl, congrArg Global.type (congrFun (congrArg View.global h.rest) g)⟩
  | inst j =>
    cases hcode : code j with
    | none =>
      refine ⟨.inst j, by simp [rename, hcode], ?_⟩
      exact congrArg Inst.type (h.inst j hx hcode)
    | some c =>
      refine ⟨.inst c.wrap.id, by simp [rename, hcode], ?_⟩
      obtain ⟨-, -, op, -, hcomputes⟩ := h.computes j c hcode
      have hline := (h.shows j c hcode c.wrap (by simp [OperatorCode.lines])).2.2.1
      exact (congrArg Flow.Line.type hline).trans hcomputes.wrap.2.1

theorem genuine (hi : i.index < w₀.insts) (hcode : code i = none)
    (hreads : ∀ x, some x ∈ w₀.reads i → w₀.Has x) (hg : Genuine w₀ i op) : Genuine w i op := by
  obtain ⟨f, x, y, hargs, hx, hy⟩ := hg.args
  obtain ⟨x', hrx, htx⟩ := h.valueType (hreads x (by simp [hargs]))
  obtain ⟨y', hry, hty⟩ := h.valueType (hreads y (by simp [hargs]))
  refine ⟨hg.machine.trans h.types, ⟨rename code f, x', y', ?_, ?_, ?_⟩, ?_⟩
  · rw [h.reads i hi hcode, hargs]
    simp [hrx, hry]
  · exact htx ▸ hx.extends h.types
  · exact hty ▸ hy.extends h.types
  · exact h.inst i hi hcode ▸ hg.result.extends h.types

theorem host (hs : w.Shape) (hb : (w₀.block b).func.isSome)
    (hmem : i ∈ (w₀.block b).insts) (hi : i.index < w₀.insts) (hcode : code i = none) :
    ∃ pre post, w.Host b pre i post := by
  have hmem' : i ∈ (w.block b).insts := by
    rw [h.block]
    exact mem_flatMap.mpr ⟨i, hmem, by simp [standIns, hcode]⟩
  obtain ⟨pre, post, hstands⟩ := hs.stands hmem'
  refine ⟨pre, post, hstands, lt_of_lt_of_le hi h.size, ?_⟩
  rw [h.block]
  exact hb

end Inlined

/-- Every call of a library operator in the function gives way to its code. The pass fails only on a
call that has not the types that the library gives the operator. -/
theorem wp_inlineLibraryCalls {s : Workspace} (hs : s.builder.Sound) (f : FuncId) :
    wp (inlineLibraryCalls f)
      (fun _ t => t.builder.Sound ∧ ∃ code, Inlined s.view t.view (s.view.funcInsts f) code)
      (fun fault _ => (∃ e, fault = .error e) ∧ ∃ i ∈ s.view.funcInsts f, ∃ op,
        s.view.calledOperator i = some op ∧ ¬ Genuine s.view i op) s := by
  have hnodup : (s.module.funcInsts f).Nodup := hs.shape.nodup_funcInsts f
  refine wp_forM_of_invariant (fun done t => t.builder.Sound ∧ ∃ code, Inlined s.view t.view
    done code) ?_ ⟨hs, _, .start _⟩ fun t ht => ht
  rintro done i rest hsplit t ⟨ht, code, hcode⟩
  have hmem : i ∈ s.view.funcInsts f := by
    show i ∈ s.module.funcInsts f
    rw [hsplit]
    simp
  obtain ⟨b, hb, hmemb⟩ := mem_flatMap.mp hmem
  have hi : i.index < s.view.insts := hs.hasInst b i hmemb
  have hnew : i ∉ done := by
    rw [hsplit] at hnodup
    exact fun hdone => (nodup_append.mp hnodup).2.2 i hdone i mem_cons_self rfl
  have hnone := hcode.code_eq_none hnew
  rw [wp_bind, Transform.wp_module, operatorCalled?_eq]
  split
  · next hop => exact ⟨ht, code, hcode.skip hi hnew hop⟩
  · next op hop =>
    have hfunc : (s.view.block b).func.isSome := by
      rw [(hs.shape.blocks.mem_iff f b).mp hb]
      rfl
    obtain ⟨pre, post, hw⟩ := hcode.host ht.shape hfunc hmemb hi hnone
    rw [wp_bind, Transform.wp_build]
    refine wp_mono (wp_inlineCall ht hw hop) ?_ ?_
    · rintro _ u ⟨hu, c, hx⟩
      exact ⟨hu, _, hcode.expand hi hnew ht.shape hx⟩
    · rintro fault u ⟨herror, hbad⟩
      refine ⟨herror, i, hmem, op, ?_, fun hg => hbad ?_⟩
      · rw [← hcode.calledOperator hi hnone]
        exact hop
      · refine hcode.genuine hi hnone (fun x hx => ?_) hg
        exact hs.linked.hasValue_of_reads (.inl ⟨i, hx⟩)

end Pass

end Midlevel.Pass
