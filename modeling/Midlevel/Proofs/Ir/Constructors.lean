import Midlevel.Proofs.Ir.Shape

/-!
The constructors of instructions. Each of them checks its operands and then emits one
instruction, so they share one specification, `Constructor.wp`: a constructor fails, having added
to the type table at most, or its instruction is emitted. What else is known of all constructors
follows from it.
-/

namespace Midlevel.Ir

open TypeTable Option

variable {s : Builder} {vs args : Args} {n : Nat} {x : Inst}

/-- The forms a constructor may give its instruction: the type table it leaves, the instruction and
what it reads. -/
abbrev Form := TypeTable → Inst → Args → Prop

def Emitted (s : Builder) (P : Form) (i : InstId) (t : Builder) : Prop :=
  i = s.module.view.nextInst ∧ ∃ types y vs b m', P types y vs ∧
    CanAttach s.module s.cursor y.op b ∧ m'.Linked ∧
    m'.view = (s.module.view.withTypes types).emit y vs [] b s.cursor.before ∧
    t = { s with module := m', journal := s.journal.map (· ++ [i]) }

/-- Nothing changed, but that there may be more types. -/
def Builder.Gains (s t : Builder) : Prop :=
  ∃ types, s.module.types.Extends types ∧ t = { s with module := s.module.withTypes types }

theorem Builder.gains_self (s : Builder) : s.Gains s := ⟨s.module.types, refl _, rfl⟩

instance : IsPreorder Builder Builder.Gains where
  refl := Builder.gains_self
  trans := by
    rintro s _ _ ⟨types, hext, rfl⟩ ⟨types', hext', rfl⟩
    exact ⟨types', hext.trans hext', rfl⟩

/-- An error, by which nothing changed but the type table. -/
def Refused (s : Builder) (f : Fault) (t : Builder) : Prop := ∃ e, f = .error e ∧ s.Gains t

theorem Refused.error (s : Builder) (e : Error) : Refused s (.error e) s := ⟨e, rfl, s.gains_self⟩

/-- The operand is there and has the type `want`; `TypeId.none` wants no type in particular. -/
def Module.Suits (m : Module) (v : Option Value) (want : TypeId) : Prop :=
  ∃ w, v = some w ∧ (want ≠ .none → m.valueType w = want)

/-- The arguments are what functions of type `type` take. -/
structure Module.Passes (m : Module) (args : List (Option Value)) (type : TypeId) : Prop where
  length : args.length = (m.types.loweredParams type).1.length
  suits : ∀ p ∈ args.zip (m.types.loweredParams type).1, m.Suits p.1 p.2

/-- An instruction as it is written: what it does and what it reads. -/
structure Line where
  op : Opcode
  reads : List (Option Value)
  deriving DecidableEq

/-- The constructors of instructions that do not end a block, with the lines they write. -/
class inductive Constructor : outParam Line → Build InstId → Prop
  | intLiteral (value : Int64) (type : TypeId) :
    Constructor ⟨.intLiteral, []⟩ (Build.intLiteral value type)
  | boolLiteral (value : Bool) : Constructor ⟨.boolLiteral, []⟩ (Build.boolLiteral value)
  | stringLiteral (text : Text) (encoding : Encoding) :
    Constructor ⟨.stringLiteral, []⟩ (Build.stringLiteral text encoding)
  | primitive (p : Primitive) (args : Args) :
    Constructor ⟨.primitive, args⟩ (Build.primitive p args)
  | alloc (type : TypeId) : Constructor ⟨.alloc, []⟩ (Build.alloc type)
  | load (address : Option Value) : Constructor ⟨.load, [address]⟩ (Build.load address)
  | store (value address : Option Value) : Constructor ⟨.store, [value, address]⟩
    (Build.store value address)
  | copyAddr (source dest : Option Value) : Constructor ⟨.copyAddr, [source, dest]⟩
    (Build.copyAddr source dest)
  | call (f : FuncId) (args : Args) : Constructor ⟨.call, some (.func f) :: args⟩
    (Build.call (some f) args)
  | apply (callee : Option Value) (args : Args) : Constructor ⟨.apply, callee :: args⟩
    (Build.apply callee args)
  | struct (type : TypeId) (fields : Args) :
    Constructor ⟨.struct, fields⟩ (Build.struct type fields)
  | structExtract (value : Option Value) (field : Text) :
    Constructor ⟨.structExtract, [value]⟩ (Build.structExtract value field)
  | structElementPtr (address : Option Value) (field : Text) :
    Constructor ⟨.structElementPtr, [address]⟩ (Build.structElementPtr address field)
  | tuple (elems : Args) : Constructor ⟨.tuple, elems⟩ (Build.tuple elems)
  | tupleExtract (value : Option Value) (index : Int) :
    Constructor ⟨.tupleExtract, [value]⟩ (Build.tupleExtract value index)
  | tupleElementPtr (address : Option Value) (index : Int) :
    Constructor ⟨.tupleElementPtr, [address]⟩ (Build.tupleElementPtr address index)
  | named (value : Option Value) (name : Text) :
    Constructor ⟨.named, [value]⟩ (Build.named value name)
  | existentialBox (value : Option Value) (concept : TypeId) :
    Constructor ⟨.existentialBox, [value]⟩ (Build.existentialBox value concept)
  | existentialWitness (box : Option Value) (method : Text) :
    Constructor ⟨.existentialWitness, [box]⟩ (Build.existentialWitness box method)
  | existentialProject (box : Option Value) :
    Constructor ⟨.existentialProject, [box]⟩ (Build.existentialProject box)
  | existentialPropertyPtr (box : Option Value) (property : Text) :
    Constructor ⟨.existentialPropertyPtr, [box]⟩ (Build.existentialPropertyPtr box property)
  | existentialRetain (box : Option Value) :
    Constructor ⟨.existentialRetain, [box]⟩ (Build.existentialRetain box)
  | existentialRelease (box : Option Value) (unowned : Bool) :
    Constructor ⟨.existentialRelease, [box]⟩ (Build.existentialRelease box unowned)
  | allocObject (type : TypeId) : Constructor ⟨.allocObject, []⟩ (Build.allocObject type)
  | retain (object : Option Value) : Constructor ⟨.retainObject, [object]⟩ (Build.retain object)
  | release (object : Option Value) (unowned : Bool) :
    Constructor ⟨.releaseObject, [object]⟩ (Build.release object unowned)
  | dealloc (object : Option Value) (unowned : Bool) :
    Constructor ⟨.deallocObject, [object]⟩ (Build.dealloc object unowned)

attribute [instance] Constructor.intLiteral Constructor.boolLiteral Constructor.stringLiteral
  Constructor.primitive
  Constructor.alloc Constructor.load Constructor.store Constructor.copyAddr Constructor.call
    Constructor.apply
  Constructor.struct Constructor.structExtract Constructor.structElementPtr Constructor.tuple
  Constructor.tupleExtract Constructor.tupleElementPtr Constructor.named Constructor.existentialBox
  Constructor.existentialWitness Constructor.existentialProject Constructor.existentialPropertyPtr
  Constructor.existentialRetain Constructor.existentialRelease Constructor.allocObject
    Constructor.retain
  Constructor.release Constructor.dealloc

structure Simple (x : Inst) : Prop where
  fresh : Build.Fresh x
  block : x.block = none
  erased : x.erased = false
  op : x.op.isTerminator = false

/-- An instruction that refers to a part of a concept, or to a type of a certain kind, does so
rightly. -/
def Inst.Proper (types : TypeTable) (x : Inst) : Prop :=
  match x.op with
  | .existentialBox => types.kind x.type = .concept
  | .existentialWitness =>
    ∃ index, types.method? x.payload.aggregate x.payload.field = some (index, x.type)
  | .existentialPropertyPtr => ∃ index p,
    types.property? x.payload.aggregate x.payload.field = some (index, p) ∧
      types.pointee? x.type = some p
  | _ => True

/-- A call has the type of its callee's results, and passes what that takes. -/
def Builder.Calls (s : Builder) (y : Inst) (vs : List (Option Value)) : Prop :=
  y.op = .call → ∃ f args sig, vs = some (.func f) :: args ∧
    s.module.types.signature? (s.module.funcs.get f).type = some sig ∧ y.type = sig.result ∧
    s.module.Passes args (s.module.funcs.get f).type

theorem Builder.Calls.of_ne {y : Inst} (h : y.op ≠ .call) : s.Calls y vs :=
  fun hcall => absurd hcall h

/-- The instruction that is emitted for the line `l`, in the type table `types`. -/
structure Builder.Forms (s : Builder) (l : Line) (types : TypeTable) (y : Inst) : Prop where
  grows : s.module.types.Extends types
  simple : Simple y
  takes : y.op.Takes l.reads.length
  proper : types.Rooted → y.Proper types
  calls : s.Calls y l.reads

/-- The instruction neither ends its block nor calls anything, and asks nothing of the type
table. -/
def Opcode.isPlain : Opcode → Bool
  | .call | .apply | .existentialBox | .existentialWitness | .existentialPropertyPtr => false
  | op => !op.isTerminator

theorem Builder.Forms.plain {l : Line} {types : TypeTable} {type : TypeId} {name : Text}
    {payload : Payload}
    (hgrows : s.module.types.Extends types) (hop : l.op.isPlain = true) :
    s.Forms l types { op := l.op, type, name, payload } := by
  obtain ⟨op, reads⟩ := l
  cases op <;> cases hop <;>
    exact ⟨hgrows, ⟨⟨rfl, rfl, rfl⟩, rfl, rfl, rfl⟩, trivial, fun _ => trivial,
      .of_ne Opcode.noConfusion⟩

namespace Build

variable {E : Post Fault}
variable {Q : Post InstId} {op : Opcode}
variable {value : Option Value}

/-! ### Checks -/

theorem wp_checkKind {Q : Post Value} {v : Option Value} {kind : TypeKind}
    (hE : ∀ e, (∀ w, v = some w → s.module.types.kind (s.module.valueType w) ≠ kind) →
      E (.error e) s)
    (k : ∀ w, v = some w → s.module.types.kind (s.module.valueType w) = kind → Q w s) :
    wp (checkKind op n v kind) Q E s := by
  unfold checkKind
  cases v with
  | none => exact hE _ fun w hw => absurd hw (by simp)
  | some w =>
    simp only [wp_bind, wp_module, wp_types]
    split
    · next h =>
      refine hE _ fun w' hw' => ?_
      obtain rfl := some.inj hw'
      exact h
    · next h => exact k w rfl (not_not.mp h)

theorem wp_checkCount {Q : Post Unit} {k : Nat} (hE : ∀ e, n ≠ k → E (.error e) s)
    (hQ : n = k → Q () s) : wp (checkCount op n k) Q E s := by
  unfold checkCount
  split
  · next h => exact hE _ h
  · next h => exact hQ (not_not.mp h)

theorem wp_checkOperands {Q : Post Unit} (n : Nat) (vs : Args) (ts : List TypeId)
    (hE : ∀ e, ¬ (∀ p ∈ vs.zip ts, s.module.Suits p.1 p.2) → E (.error e) s)
    (hQ : (∀ p ∈ vs.zip ts, s.module.Suits p.1 p.2) → Q () s) :
    wp (checkOperands op n vs ts) Q E s := by
  induction vs generalizing n ts with
  | nil => exact hQ (by simp)
  | cons v vs ih =>
    cases ts with
    | nil => exact hQ (by simp)
    | cons t ts =>
      rw [checkOperands, wp_bind]
      simp only [List.zip_cons_cons, List.forall_mem_cons] at hE hQ
      refine wp_checkOperand (fun e hbad => hE e fun hall => ?_) fun w hw hsuits => ?_
      · obtain ⟨w, hw, hsuits⟩ := hall.1
        exact hbad w hw hsuits
      · exact ih _ _ (fun e hbad => hE e fun hall => hbad hall.2) fun hall =>
          hQ ⟨⟨w, hw, hsuits⟩, hall⟩

@[simp] theorem wp_pointee {Q : Post TypeId} (v : Value) : wp (pointee v) Q E s ↔
    Q ((s.module.types.pointee? (s.module.valueType v)).getD .none) s := by
  simp only [pointee, wp_bind, wp_types, wp_typeOf, wp_pure]


/-! ### The shared end -/

theorem emitted_emit (h : s.Linked) (hx : Fresh x)
    (hvs : ∀ w, some w ∈ vs → s.HasValue w) {P : Form} (hP : P s.module.types x vs) :
    wp (emit x vs) (Emitted s P) (Refused s) s := by
  refine wp_emit h hx hvs (fun e _ => .error s e) fun b m' hb hl hv => ?_
  exact ⟨rfl, s.module.types, x, vs, b, m', hP, hb, hl, hv, rfl⟩

theorem emitted_emit_withTypes (h : s.Linked) (hx : Fresh x)
    (hvs : ∀ w, some w ∈ vs → s.HasValue w) {P : Form}
    {types : TypeTable} (htypes : s.module.types.Extends types) (hP : P types x vs) :
    wp (emit x vs) (Emitted s P) (Refused s) { s with module := s.module.withTypes types } := by
  have hlinked : (s.module.withTypes types).Linked := h.dress _ _ _ _ _
  refine wp_emit hlinked hx hvs (fun e _ => ⟨e, rfl, types, htypes, rfl⟩) fun b m' hb hl hv => ?_
  refine ⟨rfl, types, x, vs, b, m', hP, ⟨hb.block, hb.func, hb.before, hb.atEnd⟩, hl, ?_, rfl⟩
  exact hv.trans (congrArg (fun w : View => w.emit x vs [] b s.cursor.before) rfl)

theorem mem_singleton_some {P : Value → Prop} {v : Value} (h : P v) :
    ∀ w, some w ∈ [some v] → P w := by
  intro w hw
  rw [List.mem_singleton] at hw
  exact some.inj hw ▸ h

/-! ### Primitives -/

theorem wp_primitive {p : Primitive} (hE : ∀ e, (∀ c type types, p.class? = some c →
      primitiveType s.module.types s.module.valueType c args ≠ .ok (type, types)) → E (.error e) s)
    (k : ∀ c type types, p.class? = some c →
      primitiveType s.module.types s.module.valueType c args = .ok (type, types) →
      wp (emit { op := .primitive, type, payload := { primitive := p } } args) Q E
        { s with module := s.module.withTypes types }) : wp (primitive p args) Q E s := by
  unfold primitive
  split
  · next hnone => exact hE _ fun c _ _ hc => absurd (hnone.symm.trans hc) (by simp)
  · next c hc =>
    simp only [wp_bind, wp_module]
    split
    · next e he =>
      refine hE _ fun c' type types hc' hok => ?_
      obtain rfl := mem_unique hc hc'
      cases he.symm.trans hok
    · next type types ht =>
      exact k c type types hc ht

/-! ### Leaving -/

/-- Only a function that has lost its signature makes a return crash. -/
theorem wp_ret (h : s.Linked) (hv : ∀ v, value = some v → s.HasValue v)
    (hE : ∀ e, E (.error e) s) (hC : ∀ c f, c ≠ .corruptUses → s.cursor.funcIn s.module = some f →
      (s.module.typesOf f).bind (·.signature? (s.module.funcs.get f).type) = none → E (.crash c) s)
    (k : ∀ t, Emitted s (fun types y vs => types = s.module.types ∧ vs = value.toList.map some ∧
      y = { op := .ret, type := .void }) s.module.view.nextInst t → Q s.module.view.nextInst t) :
    wp (ret value) Q E s := by
  have hemit : ∀ vs, vs = value.toList.map some → (∀ w, some w ∈ vs → s.HasValue w) →
      wp (emit { op := .ret, type := .void } vs) Q E s := by
    intro vs hvs hhas
    refine wp_emit h ⟨rfl, rfl, rfl⟩ hhas (fun e _ => hE e) fun b m' hb hl hview => k _ ?_
    exact ⟨rfl, s.module.types, _, vs, b, m', ⟨rfl, hvs, rfl⟩, hb, hl, hview, rfl⟩
  unfold ret
  rw [wp_bind, wp_currentFunc]
  split
  · exact hE _
  · next f hf =>
    rw [wp_bind, resultType, wp_bind]
    refine wp_signature (fun c hc hn => hC c f hc hf hn) fun sig _ => ?_
    rw [wp_pure]
    split
    · split
      · exact hE _
      · exact hemit _ rfl (by simp)
    · next v =>
      split
      · exact hE _
      · rw [wp_bind]
        refine wp_checkOperand (fun e _ => hE e) fun w hw _ => ?_
        exact hemit _ (by rw [hw]; rfl) (mem_singleton_some (hv w hw))

theorem emitted_trap (h : s.Linked) :
    wp trap (Emitted s fun types y vs => types = s.module.types ∧ vs = [] ∧
      y = { op := .trap, type := .void }) (Refused s) s :=
      emitted_emit h ⟨rfl, rfl, rfl⟩ (by simp) ⟨rfl, rfl, rfl⟩

/-! ### Calls -/

theorem wp_callResult {Q : Post TypeId} {type : TypeId}
    (hE : ∀ e types, s.module.types.Extends types →
      E (.error e) { s with module := s.module.withTypes types })
    (k : ∀ sig, s.module.types.signature? type = some sig → s.module.Passes args type →
      Q sig.result { s with module := s.module.withTypes (s.module.types.loweredParams type).2 }) :
    wp (callResult op type args) Q E s := by
  unfold callResult
  rw [wp_bind, wp_types]
  split
  · exact hE _ _ .rfl
  · next sig hsig =>
    have hext := s.module.types.extends_loweredParams type
    rw [wp_bind, wp_onTypes, wp_bind]
    refine wp_checkCount (fun e _ => hE e _ hext) fun hcount => ?_
    rw [wp_bind]
    refine wp_checkOperands _ _ _ (fun e _ => hE e _ hext) fun hsuits => ?_
    exact k sig hsig ⟨hcount, hsuits⟩

/-! ### Aggregates -/

theorem wp_struct {type : TypeId} {fields : Args}
    (hE : ∀ e, (∀ info, s.module.types.struct? type = some info →
      fields.length = info.fields.length →
      ¬ ∀ p ∈ fields.zip (info.fields.map (·.type)), s.module.Suits p.1 p.2) → E (.error e) s)
    (k : wp (emit { op := .struct, type, payload := { aggregate := type } } fields) Q E s) :
    wp (struct type fields) Q E s := by
  unfold struct
  rw [wp_bind, wp_types]
  split
  · next hnone =>
    exact hE _ fun info hinfo => absurd (hnone.symm.trans hinfo) (by simp)
  · next info hinfo =>
    have hsame {info' : StructInfo} (h : s.module.types.struct? type = some info') : info = info' :=
      mem_unique hinfo h
    rw [wp_bind]
    refine wp_checkCount (fun e hne => hE e fun info' hinfo' hlength => ?_) fun _ => ?_
    · exact absurd (hsame hinfo' ▸ hlength) hne
    · rw [wp_bind]
      exact wp_checkOperands _ _ _ (fun e hbad => hE e fun info' hinfo' _ =>
        hsame hinfo' ▸ hbad) fun _ => k

theorem wp_structExtract {field : Text}
    (hE : ∀ e, (∀ v, value = some v → s.module.types.field? (s.module.valueType v) field = none) →
      E (.error e) s)
    (k : ∀ v index type, value = some v → s.module.types.field? (s.module.valueType v) field =
      some (index, type) →
      wp (emit { op := .structExtract, type,
                 payload := { field, index, aggregate := s.module.valueType v } } [some v])
        Q E s) : wp (structExtract value field) Q E s := by
  rw [structExtract, wp_bind]
  refine wp_checkKind (fun e hkind => hE e fun v hv => ?_) fun v hv _ => ?_
  · by_contra hfield
    obtain ⟨r, hr⟩ := ne_none_iff_exists'.mp hfield
    exact hkind v hv (kind_of_field? hr)
  · rw [wp_bind, wp_typeOf, wp_bind, wp_types]
    split
    · next hnone =>
      refine hE _ fun v' hv' => ?_
      rw [← mem_unique hv hv', hnone]
    · next index type hfield => exact k v index type hv hfield

theorem wp_tupleExtract {index : Int}
    (hE : ∀ e, (∀ v, value = some v → s.module.types.tupleElem? (s.module.valueType v) index =
      none) → E (.error e) s)
    (k : ∀ v type, value = some v →
      s.module.types.tupleElem? (s.module.valueType v) index = some type →
      wp (emit { op := .tupleExtract, type,
                 payload := { index, aggregate := s.module.valueType v } } [some v])
        Q E s) : wp (tupleExtract value index) Q E s := by
  rw [tupleExtract, wp_bind]
  refine wp_checkKind (fun e hkind => hE e fun v hv => ?_) fun v hv _ => ?_
  · by_contra helem
    obtain ⟨type, htype⟩ := ne_none_iff_exists'.mp helem
    exact hkind v hv (kind_of_tupleElem? htype)
  · rw [wp_bind, wp_typeOf, wp_bind, wp_types]
    split
    · next hnone =>
      refine hE _ fun v' hv' => ?_
      rw [← mem_unique hv hv', hnone]
    · next type helem => exact k v type hv helem

/-! ### Objects -/

theorem wp_countObject {object : Option Value} {unowned : Bool} (hE : ∀ e, E (.error e) s)
    (k : wp (emit { op, type := .void, payload := { unowned } } [object]) Q E s) :
    wp (countObject op object unowned) Q E s := by
  unfold countObject
  simp only [wp_bind, wp_module]
  split
  · exact hE _
  · exact k

end Build

/-! ### All constructors -/

variable {l : Line} {x : Build InstId}

open Build in
/-- A constructor fails, having added to the type table at most, or its instruction is emitted. -/
theorem Constructor.wp (hx : Constructor l x) {Q : Post InstId} {E : Post Fault}
    (hE : ∀ e types, s.module.types.Extends types →
      E (.error e) { s with module := s.module.withTypes types })
    (k : ∀ types y, s.Forms l types y →
      wp (Build.emit y l.reads) Q E { s with module := s.module.withTypes types }) :
      Midlevel.wp x Q E s := by
  have hfail (e : Error) : E (.error e) s := hE e _ .rfl
  have hpointer := s.module.types.extends_pointer
  have hchecked {op : Opcode} {n : Nat} {v : Option Value} {kind : TypeKind}
    {f : Value → Build InstId}
      (hf : ∀ w, v = some w → Midlevel.wp (f w) Q E s) :
          Midlevel.wp (checkKind op n v kind >>= f) Q E s :=
    (wp_bind ..).mpr (wp_checkKind (fun e _ => hfail e) fun w hw _ => hf w hw)
  cases hx with
  | intLiteral value type =>
    unfold Build.intLiteral
    simp only [wp_bind, wp_types]
    split
    · exact hfail _
    · exact k _ _ (.plain .rfl rfl)
  | boolLiteral value => exact k _ _ (.plain .rfl rfl)
  | stringLiteral text encoding =>
    exact k _ _ (.plain .rfl rfl)
  | primitive p args =>
    exact wp_primitive (fun e _ => hfail e) fun c type types _ ht =>
      k _ _ (.plain (extends_primitiveType _ ht) rfl)
  | alloc type =>
    unfold Build.alloc
    split
    · exact hfail _
    · rw [wp_bind, wp_onTypes]
      exact k _ _ (.plain (hpointer type) rfl)
  | load address =>
    refine hchecked ?_
    rintro a rfl
    rw [wp_bind, wp_pointee]
    exact k _ _ (.plain .rfl rfl)
  | store value address =>
    refine hchecked ?_
    rintro a rfl
    rw [wp_bind, wp_pointee, wp_bind]
    refine wp_checkOperand (fun e _ => hfail e) fun v hv _ => ?_
    subst hv
    exact k _ _ (.plain .rfl rfl)
  | copyAddr source dest =>
    refine hchecked ?_
    rintro v rfl
    rw [wp_bind, wp_typeOf, wp_bind]
    refine wp_checkOperand (fun e _ => hfail e) fun a ha _ => ?_
    subst ha
    exact k _ _ (.plain .rfl rfl)
  | call f args =>
    rw [Build.call, wp_bind, wp_func, wp_bind, inCallee, wp_bind, wp_attempt]
    refine wp_callResult (fun e types h => (wp_fail _).mpr (hE _ types h))
      fun sig hsig hpasses => ?_
    rw [wp_pure]
    exact k _ _ ⟨extends_loweredParams _ _, ⟨⟨rfl, rfl, rfl⟩, rfl, rfl, rfl⟩, Nat.succ_ne_zero _,
      fun _ => trivial,
      fun _ => ⟨f, args, sig, rfl, hsig, rfl, hpasses⟩⟩
  | apply callee args =>
    unfold Build.apply
    split
    · exact hfail _
    · rw [wp_bind, wp_typeOf, wp_bind]
      refine wp_callResult hE fun sig hsig _ => ?_
      exact k _ _ ⟨extends_loweredParams _ _, ⟨⟨rfl, rfl, rfl⟩, rfl, rfl, rfl⟩, Nat.succ_ne_zero _,
        fun _ => trivial, .of_ne Opcode.noConfusion⟩
  | struct type fields =>
    exact wp_struct (fun e _ => hfail e) (k _ _ (.plain .rfl rfl))
  | structExtract value field =>
    refine wp_structExtract (fun e _ => hfail e) fun v index type hv _ => ?_
    subst hv
    exact k _ _ (.plain .rfl rfl)
  | structElementPtr address field =>
    refine hchecked ?_
    rintro a rfl
    rw [wp_bind, wp_pointee, wp_bind, wp_types, wp_bind, wp_types]
    split
    · exact hfail _
    · rw [wp_bind, wp_onTypes]
      exact k _ _ (.plain (hpointer _) rfl)
  | tuple elems =>
    rw [Build.tuple, wp_bind]
    refine wp_checkOperands _ _ _ (fun e _ => hfail e) fun _ => ?_
    rw [wp_bind, wp_module, wp_bind, wp_onTypes]
    exact k _ _ (.plain (extends_tuple _ _) rfl)
  | tupleExtract value index =>
    refine wp_tupleExtract (fun e _ => hfail e) fun v type hv _ => ?_
    subst hv
    exact k _ _ (.plain .rfl rfl)
  | tupleElementPtr address index =>
    refine hchecked ?_
    rintro a rfl
    rw [wp_bind, wp_pointee, wp_bind, wp_types]
    split
    · exact hfail _
    · rw [wp_bind, wp_onTypes]
      exact k _ _ (.plain (hpointer _) rfl)
  | named value name =>
    rw [Build.named, wp_bind]
    refine wp_checkOperand (fun e _ => hfail e) fun v hv _ => ?_
    subst hv
    rw [wp_bind, wp_typeOf]
    exact k _ _ (.plain .rfl rfl)
  | existentialBox value concept =>
    unfold Build.existentialBox
    rw [wp_bind, wp_types]
    split
    · exact hfail _
    · next hkind =>
      have hconcept : s.module.types.kind concept = .concept := Decidable.not_not.mp hkind
      rw [wp_bind]
      refine wp_checkOperand (fun e _ => hfail e) fun v hv _ => ?_
      subst hv
      rw [wp_bind, wp_typeOf]
      exact k _ _ ⟨.rfl, ⟨⟨rfl, rfl, rfl⟩, rfl, rfl, rfl⟩, trivial, fun _ => hconcept,
        .of_ne Opcode.noConfusion⟩
  | existentialWitness box method =>
    refine hchecked ?_
    rintro v rfl
    rw [wp_bind, wp_typeOf, wp_bind, wp_types]
    split
    · exact hfail _
    · next index type hmethod =>
      exact k _ _ ⟨.rfl, ⟨⟨rfl, rfl, rfl⟩, rfl, rfl, rfl⟩, trivial, fun _ => ⟨index, hmethod⟩,
        .of_ne Opcode.noConfusion⟩
  | existentialProject box =>
    refine hchecked ?_
    rintro v rfl
    exact k _ _ (.plain .rfl rfl)
  | existentialPropertyPtr box property =>
    refine hchecked ?_
    rintro v rfl
    rw [wp_bind, wp_typeOf, wp_bind, wp_types]
    split
    · exact hfail _
    · next index type hproperty =>
      rw [wp_bind, wp_onTypes]
      refine k _ _ ⟨hpointer _, ⟨⟨rfl, rfl, rfl⟩, rfl, rfl, rfl⟩, trivial, fun hrooted => ?_,
        .of_ne Opcode.noConfusion⟩
      exact ⟨index, type, (hpointer _).property? hproperty,
        pointee?_pointer (rooted_of_intern (by simp) hrooted) type⟩
  | existentialRetain box =>
    refine hchecked ?_
    rintro v rfl
    exact k _ _ (.plain .rfl rfl)
  | existentialRelease box unowned =>
    refine hchecked ?_
    rintro v rfl
    exact k _ _ (.plain .rfl rfl)
  | allocObject type =>
    unfold Build.allocObject
    rw [wp_bind, wp_types]
    split
    · exact hfail _
    · rw [wp_bind, wp_onTypes]
      exact k _ _ (.plain (extends_reference _ _) rfl)
  | retain object =>
    exact wp_countObject hfail (k _ _ (.plain .rfl rfl))
  | release object unowned =>
    exact wp_countObject hfail (k _ _ (.plain .rfl rfl))
  | dealloc object unowned =>
    exact wp_countObject hfail (k _ _ (.plain .rfl rfl))

theorem Constructor.emitted (hx : Constructor l x) (hl : s.Linked)
    (hreads : ∀ v, some v ∈ l.reads → s.HasValue v) :
    Midlevel.wp x (Emitted s fun types y vs => vs = l.reads ∧ s.Forms l types y) (Refused s) s :=
  hx.wp (fun e types htypes => ⟨e, rfl, types, htypes, rfl⟩) fun _ _ hy =>
    Build.emitted_emit_withTypes hl hy.simple.fresh hreads hy.grows ⟨rfl, hy⟩

end Midlevel.Ir
