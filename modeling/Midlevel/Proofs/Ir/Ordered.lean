import Midlevel.Proofs.Ir.Verified

/-!
Code that is written from beginning to end. Instructions are put at the ends of blocks, and a block
is made before anything leads to it; so one can say when a block is made what will be known on
entering it. `View.Ordered` is the certificate that results from these choices: it covers all
functions of the module at once, and every instruction is checked when it is written.
`View.Prolongs` says what such writing leaves as it is.
-/

namespace Midlevel.Ir.View

open List
open Function (update update_apply update_of_ne update_self)
open Midlevel.Flow (Constant Known Available)
open Pass (Exit)

variable {w w' w'' : View} {av av' : Avail} {b c : BlockId} {i : InstId} {v : Value}
  {is js : List InstId}
variable {f : FuncId}
variable {α : Type}
variable {g : Func → Func} {xs : List α}

/-- What is known in a block behind the instructions `is`, if `av` is known when it is entered. -/
def Gives (w : View) (av : Avail) (b : BlockId) (is : List InstId) (v : Value) : Prop :=
  av b v ∨ (∃ p ∈ (w.block b).params, v = .param p) ∨ ∃ i ∈ is, (w.inst i).op.isTerminator =
    false ∧ v = .inst i

def AtEnd (w : View) (av : Avail) (b : BlockId) (v : Value) : Prop :=
  w.Gives av b (w.block b).insts v

structure Usable (w : View) (av : Avail) (b : BlockId) (v : Value) : Prop where
  has : w.Has v
  known : Constant v ∨ w.AtEnd av b v

def Result (w : View) (v : Value) : Prop :=
  w.Has v ∧ ∀ i, v = .inst i → (w.inst i).op.isTerminator = false

def Leads (w : View) (b t : BlockId) : Prop :=
  ∃ i ∈ (w.block b).insts, ∃ x ∈ w.exits i, x.target = some t

structure Ordered (w : View) (av : Avail) : Prop where
  made : ∀ b, ∀ i ∈ (w.block b).insts, i.index < w.insts
  housed : ∀ b, (w.block b).insts ≠ [] → b.index < w.blocks ∧ (w.block b).func ≠ none
  attached : w.Attached
  reads : ∀ b pre i post, (w.block b).insts = pre ++ i :: post → ∀ v, some v ∈ (w.line i).values →
    Constant v ∨ w.Gives av b pre v
  edge : ∀ b, ∀ i ∈ (w.block b).insts, ∀ x ∈ w.exits i, ∃ t, x.target = some t ∧
    t.index < w.blocks ∧
    ∀ v, av t v → w.AtEnd av b v
  result : ∀ b v, av b v → w.Result v
  /-- What a known value was made from is known, too. -/
  closed : ∀ b i, av b (.inst i) → ∀ v, some v ∈ w.reads i → Constant v ∨ av b v
  entry : ∀ f b, (w.func f).blocks.head? = some b → ∀ v, ¬ av b v
  opens : ∀ b, ∀ args ∈ w.opens b, (∃ f, (w.func f).blocks.head? = some b) ∧
    ∀ v, some v ∈ args → ∃ p ∈ (w.block b).params, v = .param p
  entered : ∀ i, w.entered i

/-- `w'` has all that `w` has, and its blocks begin with what stands in those of `w`. -/
structure Prolongs (w w' : View) : Prop where
  has : ∀ v, w.Has v → w'.Has v
  blocks : w.blocks ≤ w'.blocks
  line : ∀ i, i.index < w.insts → w'.line i = w.line i
  params : ∀ b, b.index < w.blocks → (w'.block b).params = (w.block b).params
  insts : ∀ b, (w.block b).insts <+: (w'.block b).insts
  entry : ∀ f b, (w.func f).blocks.head? = some b → (w'.func f).blocks.head? = some b
  type : ∀ v, w.Has v → w'.valueType v = w.valueType v
  order : ∀ f ∈ w.order, f ∈ w'.order
  removed : ∀ f, w.Has (.func f) → (w'.func f).removed = (w.func f).removed

/-! ### What is known -/

theorem Gives.mono (h : w.Gives av b is v) (hsub : is ⊆ js) : w.Gives av b js v := by
  rcases h with h | h | ⟨i, hi, hop, rfl⟩
  · exact .inl h
  · exact .inr (.inl h)
  · exact .inr (.inr ⟨i, hsub hi, hop, rfl⟩)

theorem Prolongs.refl (w : View) : w.Prolongs w :=
  ⟨fun _ => id, Nat.le_refl _, fun _ _ => rfl, fun _ _ => rfl, fun _ => prefix_rfl, fun _ _ => id,
    fun _ _ => rfl,
    fun _ => id, fun _ _ => rfl⟩

namespace Prolongs

variable (h : w.Prolongs w')
include h

theorem trans (h' : w'.Prolongs w'') : w.Prolongs w'' where
  has v hv := h'.has v (h.has v hv)
  blocks := Nat.le_trans h.blocks h'.blocks
  line i hi := (h'.line i (h.has (.inst i) hi)).trans (h.line i hi)
  params b hb := (h'.params b (Nat.lt_of_lt_of_le hb h.blocks)).trans (h.params b hb)
  insts b := (h.insts b).trans (h'.insts b)
  entry f b hb := h'.entry f b (h.entry f b hb)
  type v hv := (h'.type v (h.has v hv)).trans (h.type v hv)
  order f hf := h'.order f (h.order f hf)
  removed f hf := (h'.removed f (h.has _ hf)).trans (h.removed f hf)

theorem op (hi : i.index < w.insts) : (w'.inst i).op = (w.inst i).op :=
  congrArg Flow.Line.op (h.line i hi)

theorem reads (hi : i.index < w.insts) : w'.reads i = w.reads i :=
  congrArg Flow.Line.reads (h.line i hi)

theorem exits (hi : i.index < w.insts) : w'.exits i = w.exits i :=
  congrArg Flow.Line.exits (h.line i hi)

theorem gives (hb : b.index < w.blocks) (havail : ∀ v, av b v → av' b v)
    (hmade : ∀ i ∈ is, i.index < w.insts) (hv : w.Gives av b is v) : w'.Gives av' b is v := by
  rcases hv with hv | ⟨p, hp, rfl⟩ | ⟨i, hi, hop, rfl⟩
  · exact .inl (havail v hv)
  · exact .inr (.inl ⟨p, (h.params b hb).symm ▸ hp, rfl⟩)
  · exact .inr (.inr ⟨i, hi, by rw [h.op (hmade i hi), hop], rfl⟩)

theorem atEnd (ho : w.Ordered av) (hb : b.index < w.blocks)
    (havail : ∀ v, av b v → av' b v) (hv : w.AtEnd av b v) : w'.AtEnd av' b v :=
  (h.gives hb havail (ho.made b) hv).mono (h.insts b).subset

theorem usable (ho : w.Ordered av) (hb : b.index < w.blocks)
    (havail : ∀ v, av b v → av' b v) (hv : w.Usable av b v) : w'.Usable av' b v :=
  ⟨h.has v hv.has, hv.known.imp_right (h.atEnd ho hb havail)⟩

theorem leads (ho : w.Ordered av) (hc : w.Leads b c) : w'.Leads b c := by
  obtain ⟨i, hi, x, hx, ht⟩ := hc
  exact ⟨i, (h.insts b).subset hi, x, (h.exits (ho.made b i hi)).symm ▸ hx, ht⟩

theorem result (hv : w.Result v) : w'.Result v := by
  refine ⟨h.has v hv.1, fun i hi => ?_⟩
  subst hi
  rw [h.op hv.1, hv.2 i rfl]

end Prolongs

theorem Ordered.result_of_atEnd (h : w.Ordered av) (hp : w.ParamsPlaced) (hv : w.AtEnd av b v) :
    w.Result v := by
  rcases hv with hv | ⟨p, hp', rfl⟩ | ⟨i, hi, hop, rfl⟩
  · exact h.result b v hv
  · exact ⟨hp.made b p hp', fun i hi => nomatch hi⟩
  · exact ⟨h.made b i hi, fun j hj => Value.inst.inj hj ▸ hop⟩

theorem Ordered.atEnd_reads (h : w.Ordered av) (hi : w.AtEnd av b (.inst i))
    (hv : some v ∈ w.reads i) :
    Constant v ∨ w.AtEnd av b v := by
  rcases hi with hi | ⟨p, -, hp⟩ | ⟨j, hj, -, hij⟩
  · exact (h.closed b i hi v hv).imp_right .inl
  · cases hp
  · obtain rfl := Value.inst.inj hij
    obtain ⟨pre, post, hsplit⟩ := append_of_mem hj
    refine (h.reads b pre i post hsplit v (mem_append_left _ hv)).imp_right fun hg => hg.mono ?_
    rw [hsplit]
    exact subset_append_left _ _

/-- What may be known in a block that is to be made. -/
structure Certified (w : View) (known : Value → Prop) : Prop where
  result : ∀ v, known v → w.Result v
  closed : ∀ i, known (.inst i) → ∀ v, some v ∈ w.reads i → Constant v ∨ known v

theorem Certified.prolong {known : Value → Prop} (h : w.Certified known) (hp : w.Prolongs w') :
    w'.Certified known where
  result v hv := hp.result (h.result v hv)
  closed i hi v hv := h.closed i hi v (hp.reads (h.result _ hi).1 ▸ hv)

theorem Ordered.certified (h : w.Ordered av) (hp : w.ParamsPlaced) : w.Certified (w.AtEnd av b) :=
  ⟨fun _ => h.result_of_atEnd hp, fun _ hi _ hv => h.atEnd_reads hi hv⟩

/-- Only what is written behind the old code has to be checked. Old code reads and reaches what it
did, since what is known in old blocks stays as it was. -/
theorem Ordered.prolong (ho : w.Ordered av) (hp : w.Prolongs w') (new : BlockId → List InstId)
    (hinsts : ∀ b, (w'.block b).insts = (w.block b).insts ++ new b)
    (hav : ∀ b, av' b = av b ∨ w.blocks ≤ b.index ∧ w'.Certified (av' b))
    (hnew : ∀ b pre i post, new b = pre ++ i :: post → i.index < w'.insts ∧
      (∀ v, some v ∈ (w'.line i).values → Constant v ∨
      w'.Gives av' b ((w.block b).insts ++ pre) v) ∧
      ∀ x ∈ w'.exits i, ∃ t, x.target = some t ∧ t.index < w'.blocks ∧ ∀ v, av' t v →
      w'.AtEnd av' b v)
    (housed : ∀ b, (w'.block b).insts ≠ [] → b.index < w'.blocks ∧ (w'.block b).func ≠ none)
    (attached : w'.Attached) (entry : ∀ f b, (w'.func f).blocks.head? = some b → ∀ v, ¬ av' b v)
    (opens : ∀ b, ∀ args ∈ w'.opens b, (∃ f, (w'.func f).blocks.head? = some b) ∧
      ∀ v, some v ∈ args → ∃ p ∈ (w'.block b).params, v = .param p)
    (entered : ∀ i, w'.entered i) : w'.Ordered av' := by
  have hold {b : BlockId} (hb : b.index < w.blocks) : av' b = av b :=
    (hav b).resolve_right fun h => Nat.not_le_of_lt hb h.1
  have hmade {b : BlockId} {i : InstId} (hi : i ∈ (w.block b).insts) : b.index < w.blocks :=
    (ho.housed b (ne_nil_of_mem hi)).1
  have hcases {b : BlockId} {i : InstId} (hi : i ∈ (w'.block b).insts) :
      i ∈ (w.block b).insts ∨ ∃ pre post, new b = pre ++ i :: post :=
    (mem_append.mp (hinsts b ▸ hi)).imp_right append_of_mem
  refine ⟨fun b i hi => ?_, housed, attached, fun b pre i post hb v hv => ?_, fun b i hi x hx => ?_,
    fun b v hv => ?_,
    fun b i hi v hv => ?_, entry, opens, entered⟩
  · rcases hcases hi with hi | ⟨pre, post, h⟩
    · exact hp.has (.inst i) (ho.made b i hi)
    · exact (hnew b pre i post h).1
  · rw [hinsts] at hb
    rcases append_eq_append_iff.mp hb with ⟨pre', rfl, h⟩ | ⟨_ | ⟨j, post'⟩, hpre, h⟩
    · exact (hnew b pre' i post h).2.1 v hv
    · rw [append_nil] at hpre
      exact append_nil pre ▸ hpre ▸ (hnew b [] i post h.symm).2.1 v hv
    · obtain ⟨rfl, -⟩ := cons.inj h
      have hi : i ∈ (w.block b).insts := hpre ▸ mem_append_right _ mem_cons_self
      rw [hp.line i (ho.made b i hi)] at hv
      refine (ho.reads b pre i post' hpre v hv).imp_right
        (hp.gives (hmade hi) (fun _ => (hold (hmade hi)).symm ▸ id) ?_)
      exact fun j hj => ho.made b j (hpre ▸ mem_append_left _ hj)
  · rcases hcases hi with hi | ⟨pre, post, h⟩
    · rw [hp.exits (ho.made b i hi)] at hx
      obtain ⟨t, ht, hlt, hknown⟩ := ho.edge b i hi x hx
      refine ⟨t, ht, Nat.lt_of_lt_of_le hlt hp.blocks, fun v hv => ?_⟩
      exact hp.atEnd ho (hmade hi) (fun _ => (hold (hmade hi)).symm ▸ id) (hknown v (hold hlt ▸ hv))
    · exact (hnew b pre i post h).2.2 x hx
  · rcases hav b with h | h
    · exact hp.result (ho.result b v (h ▸ hv))
    · exact h.2.result v hv
  · rcases hav b with h | h
    · rw [h] at hi ⊢
      exact ho.closed b i hi v (hp.reads (ho.result b _ hi).1 ▸ hv)
    · exact h.2.closed i hi v hv

/-! ### Changes that write no code -/

/-- The views differ in names, in types, in the order of blocks, in functions without a body and in
blocks without code. -/
structure SameCode (w w' : View) : Prop where
  line : ∀ i, w'.line i = w.line i := by intro; rfl
  block : ∀ i, (w'.inst i).block = (w.inst i).block := by intro; rfl
  insts : ∀ b, (w'.block b).insts = (w.block b).insts := by intro; rfl
  params : ∀ b, (w'.block b).params = (w.block b).params := by intro; rfl
  func : ∀ b, (w.block b).insts ≠ [] → (w'.block b).func = (w.block b).func := by intros; rfl
  opens : w'.opens = w.opens := by rfl
  entered : ∀ i, w.entered i → w'.entered i := by exact fun _ => id
  size : w'.insts = w.insts := by rfl
  blocks : w'.blocks = w.blocks := by rfl
  has : ∀ v, w.Has v → w'.Has v := by rintro (_ | _ | _ | _) <;> exact id
  type : ∀ v, w.Has v → w'.valueType v = w.valueType v := by rintro (_ | _ | _ | _) _ <;> rfl
  entry : ∀ f, (w'.func f).blocks.head? = (w.func f).blocks.head? := by intro; rfl
  defined : ∀ f, (w'.func f).defined = (w.func f).defined := by intro; rfl
  order : ∀ f ∈ w.order, f ∈ w'.order := by exact fun _ => id
  removed : ∀ f, w.Has (.func f) → (w'.func f).removed = (w.func f).removed := by intros; rfl

theorem SameCode.prolongs (h : w.SameCode w') : w.Prolongs w' where
  has := h.has
  blocks := Nat.le_of_eq h.blocks.symm
  line i _ := h.line i
  params b _ := h.params b
  insts b := ⟨[], by rw [h.insts, append_nil]⟩
  entry f _ hb := (h.entry f).trans hb
  type := h.type
  order := h.order
  removed := h.removed

theorem SameCode.refl (w : View) : w.SameCode w := {}

theorem SameCode.trans (h : w.SameCode w') (h' : w'.SameCode w'') : w.SameCode w'' where
  line i := (h'.line i).trans (h.line i)
  block i := (h'.block i).trans (h.block i)
  insts b := (h'.insts b).trans (h.insts b)
  params b := (h'.params b).trans (h.params b)
  func b hb := (h'.func b (h.insts b ▸ hb)).trans (h.func b hb)
  opens := h'.opens.trans h.opens
  entered i hi := h'.entered i (h.entered i hi)
  size := h'.size.trans h.size
  blocks := h'.blocks.trans h.blocks
  has v hv := h'.has v (h.has v hv)
  type v hv := (h'.type v (h.has v hv)).trans (h.type v hv)
  entry f := (h'.entry f).trans (h.entry f)
  defined f := (h'.defined f).trans (h.defined f)
  order f hf := h'.order f (h.order f hf)
  removed f hf := (h'.removed f (h.has _ hf)).trans (h.removed f hf)

theorem Ordered.of_sameCode (ho : w.Ordered av) (h : w.SameCode w') : w'.Ordered av := by
  have hreads (i : InstId) : w'.reads i = w.reads i := congrArg Flow.Line.reads (h.line i)
  have hexits (i : InstId) : w'.exits i = w.exits i := congrArg Flow.Line.exits (h.line i)
  refine ho.prolong h.prolongs (fun _ => []) (fun b => by rw [h.insts, append_nil])
    (fun _ => .inl rfl) (by simp)
    (fun b hb => ?_) (fun i => ?_) (fun f b hb => ho.entry f b (h.entry f ▸ hb))
      (fun b args hargs => ?_)
    fun i => h.entered i (ho.entered i)
  · rw [h.insts] at hb
    rw [h.blocks, h.func b hb]
    exact ho.housed b hb
  · simp only [h.insts, h.block, hreads, hexits]
    exact ho.attached i
  · rw [h.opens] at hargs
    simp only [h.entry, h.params]
    exact ho.opens b args hargs

theorem sameCode_withTypes (w : View) (types : TypeTable) : w.SameCode (w.withTypes types) := {}

theorem sameCode_setInst (w : View) (i : InstId) {f : Inst → Inst}
    (hf : ∀ x, (f x).op = x.op ∧ (f x).type = x.type ∧ (f x).payload = x.payload ∧
      (f x).block = x.block) :
    w.SameCode (w.setInst i f) where
  line j := by
    unfold line
    rw [inst_setInst]
    split
    · rw [(hf _).1, (hf _).2.1, (hf _).2.2.1]
      rfl
    · rfl
  block j := part_update_self w.inst i j Inst.block fun x => (hf x).2.2.2
  type v _ := by
    cases v with
    | inst j => exact part_update_self w.inst i j Inst.type fun x => (hf x).2.1
    | param p => rfl
    | func f => rfl
    | global g => rfl

theorem sameCode_setFunc (w : View) (f : FuncId) (htype : ∀ x, (g x).type = x.type)
    (hremoved : ∀ x, (g x).removed = x.removed) (hdefined : ∀ x, (g x).defined = x.defined)
    (hentry : (g (w.func f)).blocks.head? = (w.func f).blocks.head?) :
    w.SameCode (w.setFunc f g) where
  type v _ := by
    cases v with
    | func h => exact part_update_self w.func f h Func.type htype
    | inst i => rfl
    | param p => rfl
    | global g => rfl
  entry h := by
    rw [func_setFunc]
    split
    · next hh => exact hh ▸ hentry
    · rfl
  defined h := part_update_self w.func f h Func.defined hdefined
  removed h _ := part_update_self w.func f h Func.removed hremoved

theorem sameCode_addFunc (hu : w.Unused) {x : Func} (hx : x.blocks = [])
    (hdefined : x.defined = false) :
    w.SameCode (w.addFunc x) := by
  have hold {f : FuncId} (hf : w.Has (.func f)) : (w.addFunc x).func f = w.func f :=
    update_of_ne (by
      rintro rfl
      exact Nat.lt_irrefl _ hf) ..
  exact {
    has := fun v hv => hv.mono .refl .refl (Nat.le_succ _) .refl
    type := fun v hv => by
      cases v with
      | func f => exact congrArg Func.type (hold hv)
      | inst i => rfl
      | param p => rfl
      | global g => rfl
    entry := fun f => by
      show (update w.func w.nextFunc x f).blocks.head? = _
      rw [update_apply]
      split
      · next hf => rw [hf, hx, hu.func]
      · rfl
    defined := fun f => by
      show (update w.func w.nextFunc x f).defined = _
      rw [update_apply]
      split
      · next hf => rw [hf, hdefined, hu.defined]
      · rfl
    order := fun f hf => mem_append_left _ hf
    removed := fun f hf => congrArg Func.removed (hold hf) }

theorem head?_filter {p : α → Bool} (h : ∀ x, xs.head? = some x → p x = true) :
    (xs.filter p).head? = xs.head? := by
  cases xs with
  | nil => rfl
  | cons x xs => rw [filter_cons_of_pos (h x rfl), List.head?_cons, List.head?_cons]

theorem sameCode_eraseBlock (hb : (w.block b).insts = [])
    (hentry : ∀ f, (w.func f).blocks.head? ≠ some b) :
    w.SameCode (w.eraseBlocks [b]) := by
  have hnone : w.instsOf [b] = [] := by rw [instsOf, flatMap_singleton, hb]
  have hview : w.eraseBlocks [b] = w.dropBlocks [b] := by
    rw [eraseBlocks, hnone, silenceAll_nil]
  have hinst : (w.dropBlocks [b]).inst = w.inst := by
    show (w.eraseInsts (w.instsOf [b])).inst = w.inst
    rw [hnone]
    funext i
    simp [eraseInsts]
  have hblock (c : BlockId) : (w.dropBlocks [b]).block c =
      if c = b then { w.block c with insts := [], func := none } else w.block c := by
    simp [dropBlocks]
  rw [hview]
  exact {
    line := fun i => by
      unfold line
      rw [hinst]
      rfl
    block := fun i => by rw [hinst]
    insts := fun c => by
      rw [hblock]
      split
      · next hc => rw [hc, hb]
      · rfl
    params := fun c => by
      rw [hblock]
      split <;> rfl
    func := fun c hc => by
      rw [hblock, if_neg]
      rintro rfl
      exact hc hb
    type := fun v _ => by
      cases v with
      | inst i =>
        show ((w.dropBlocks [b]).inst i).type = _
        rw [hinst]
        rfl
      | func f => rfl
      | param p => rfl
      | global g => rfl
    entry := fun f => head?_filter fun c hc => by
      have hne : c ≠ b := fun he => hentry f (he ▸ hc)
      simp [hne] }

/-! ### Instructions at the end of a block -/

theorem ne_nextInst (h : i.index < w.insts) : i ≠ w.nextInst := by
  rintro rfl
  exact Nat.lt_irrefl _ h

section Emission

variable (w) (types : TypeTable) (x : Inst) (vs : Args) (exits : List Exit) (b) (j : InstId)

theorem inst_emit : ((w.withTypes types).emit x vs exits b none).inst j =
    if j = w.nextInst then { x with block := some b, erased := false } else w.inst j := by
  show update (update w.inst w.nextInst x) w.nextInst _ j = _
  rw [update_apply]
  split
  · show { update w.inst w.nextInst x w.nextInst with block := some b, erased := false } = _
    rw [update_self]
  · next hj => exact update_of_ne hj ..

theorem reads_emit : ((w.withTypes types).emit x vs exits b none).reads j =
    if j = w.nextInst then vs else w.reads j := update_apply ..

theorem exits_emit : ((w.withTypes types).emit x vs exits b none).exits j =
    if j = w.nextInst then exits else w.exits j := update_apply ..

theorem block_emit (c : BlockId) : ((w.withTypes types).emit x vs exits b none).block c =
    if c = b then { w.block c with insts := (w.block c).insts ++ [w.nextInst] } else w.block c := by
  show update w.block b _ c = _
  rw [update_apply]
  split
  · next hc =>
    rw [hc]
    rfl
  · rfl

theorem line_emit {j : InstId} (hj : j ≠ w.nextInst) :
    ((w.withTypes types).emit x vs exits b none).line j = w.line j := by
  unfold line
  rw [inst_emit, reads_emit, exits_emit, if_neg hj, if_neg hj, if_neg hj]

theorem insts_emit (c : BlockId) : (((w.withTypes types).emit x vs exits b none).block c).insts =
    if c = b then (w.block c).insts ++ [w.nextInst] else (w.block c).insts := by
  rw [block_emit]
  split <;> rfl

variable {exits} in
theorem leads_emit {z : Exit} (hz : z ∈ exits) (hc : z.target = some c) :
    ((w.withTypes types).emit x vs exits b none).Leads b c := by
  refine ⟨w.nextInst, ?_, z, ?_, hc⟩
  · rw [insts_emit, if_pos rfl]
    exact mem_append_right _ mem_cons_self
  · rwa [exits_emit, if_pos rfl]

variable {w}

theorem prolongs_emit : w.Prolongs ((w.withTypes types).emit x vs exits b none) where
  has v hv := hv.mono (Nat.le_succ _) .refl .refl .refl
  blocks := Nat.le_refl _
  line i hi := line_emit w b types x vs exits (ne_nextInst hi)
  params c _ := by
    rw [block_emit]
    split <;> rfl
  insts c := by
    rw [insts_emit]
    split
    · exact prefix_append _ _
    · exact prefix_rfl
  entry _ _ := id
  type v hv := by
    cases v with
    | inst i =>
      show (((w.withTypes types).emit x vs exits b none).inst i).type = (w.inst i).type
      rw [inst_emit, if_neg (ne_nextInst hv)]
    | param p => rfl
    | func f => rfl
    | global g => rfl
  order _ := id
  removed _ _ := rfl

end Emission

/-- An instruction is written at the end of a block: what it reads is known there, and so is what
the blocks ask for that it leads to. -/
theorem Ordered.emit (h : w.Ordered av) (types : TypeTable) {x : Inst} {vs : Args}
    {exits : List Exit} (hb : b.index < w.blocks) (hf : (w.block b).func ≠ none)
    (hvs : ∀ v, some v ∈ vs → Constant v ∨ w.AtEnd av b v)
    (hargs : ∀ y ∈ exits, ∀ v, some v ∈ y.args → Constant v ∨ w.AtEnd av b v)
    (hexits : ∀ y ∈ exits, ∃ t, y.target = some t ∧ t.index < w.blocks ∧ ∀ v, av t v →
      w.AtEnd av b v) :
    ((w.withTypes types).emit x vs exits b none).Ordered av := by
  have hp := prolongs_emit (w := w) b types x vs exits
  refine h.prolong hp (fun c => if c = b then [w.nextInst] else []) (fun c => ?_)
    (fun _ => .inl rfl)
    (fun c pre j post hc => ?_) (fun c hc => ?_) (fun j => ?_) h.entry
      (fun c args hargs' => ?_) h.entered
  · rw [insts_emit]
    split
    · rfl
    · exact (append_nil _).symm
  · split at hc
    · next hcb =>
      obtain ⟨rfl, hj⟩ | ⟨-, hj⟩ := singleton_eq_append_iff.mp hc
      swap
      · cases hj
      obtain ⟨rfl, -⟩ := cons.inj hj
      subst hcb
      have hline : (((w.withTypes types).emit x vs exits c none).line w.nextInst).values =
          vs ++ exits.flatMap Exit.args := by
        show (((w.withTypes types).emit x vs exits c none).reads _) ++
          (((w.withTypes types).emit x vs exits c none).exits _).flatMap _ = _
        rw [reads_emit, exits_emit, if_pos rfl, if_pos rfl]
      refine ⟨Nat.lt_succ_self _, fun v hv => ?_, fun y hy => ?_⟩
      · have hknown : Constant v ∨ w.AtEnd av c v := by
          rcases mem_append.mp (hline ▸ hv) with hv | hv
          · exact hvs v hv
          · obtain ⟨y, hy, hv⟩ := mem_flatMap.mp hv
            exact hargs y hy v hv
        rw [append_nil]
        exact hknown.imp_right (hp.gives hb (fun _ => id) (h.made c))
      · rw [exits_emit, if_pos rfl] at hy
        obtain ⟨t, ht, hmade, hknown⟩ := hexits y hy
        exact ⟨t, ht, hmade, fun v hv => hp.atEnd h hb (fun _ => id) (hknown v hv)⟩
    · simp at hc
  · rw [block_emit] at hc ⊢
    split
    · next hcb =>
      subst hcb
      exact ⟨hb, hf⟩
    · next hcb =>
      rw [if_neg hcb] at hc
      exact h.housed c hc
  · by_cases hj : j = w.nextInst
    · refine .inl ⟨b, ?_⟩
      rw [insts_emit, if_pos rfl, hj]
      exact mem_append_right _ mem_cons_self
    · rw [inst_emit, reads_emit, exits_emit, if_neg hj, if_neg hj, if_neg hj]
      exact (h.attached j).imp_left fun ⟨c, hc⟩ => ⟨c, (hp.insts c).subset hc⟩
  · obtain ⟨hentry, hparams⟩ := h.opens c args hargs'
    refine ⟨hentry, fun v hv => ?_⟩
    rw [block_emit]
    split <;> exact hparams v hv

/-! ### New blocks -/

structure Opens (w w' : View) : Prop where
  line : ∀ i, w'.line i = w.line i
  inst : ∀ i, (w'.inst i).block = (w.inst i).block
  block : ∀ c, c ≠ w.nextBlock → w'.block c = w.block c
  insts : (w'.block w.nextBlock).insts = []
  opens : ∀ c, c ≠ w.nextBlock → w'.opens c = w.opens c
  entered : w'.entered = w.entered
  size : w'.insts = w.insts
  blocks : w'.blocks = w.blocks + 1
  has : ∀ v, w.Has v → w'.Has v
  type : ∀ v, w.Has v → w'.valueType v = w.valueType v
  entry : ∀ f b, (w.func f).blocks.head? = some b → (w'.func f).blocks.head? = some b
  order : w'.order = w.order
  removed : ∀ f, (w'.func f).removed = (w.func f).removed

theorem ne_nextBlock (h : b.index < w.blocks) : b ≠ w.nextBlock := by
  rintro rfl
  exact Nat.lt_irrefl _ h

theorem Ordered.insts_nextBlock (h : w.Ordered av) : (w.block w.nextBlock).insts = [] := by
  by_contra hne
  exact Nat.lt_irrefl _ (h.housed _ hne).1

theorem Opens.prolongs (h : w.Opens w') (ho : w.Ordered av) : w.Prolongs w' where
  has := h.has
  blocks := by
    rw [h.blocks]
    exact Nat.le_succ _
  line i _ := h.line i
  params b hb := by rw [h.block b (ne_nextBlock hb)]
  insts b := by
    by_cases hb : b = w.nextBlock
    · rw [hb, ho.insts_nextBlock]
      exact nil_prefix
    · exact ⟨[], by rw [h.block b hb, append_nil]⟩
  entry := h.entry
  type := h.type
  order f hf := h.order.symm ▸ hf
  removed f _ := h.removed f

theorem opens_addBlock (w : View) (name : Text) (f : FuncId) (ps : List Member)
    (htype : ∀ x, (g x).type = x.type) (hremoved : ∀ x, (g x).removed = x.removed)
    (hentry : ∀ b, (w.func f).blocks.head? = some b → (g (w.func f)).blocks.head? = some b) :
    w.Opens (((w.addBlock { name, func := some f }).addParams w.nextBlock ps).setFunc f g) where
  line _ := rfl
  inst _ := rfl
  block c hc := (if_neg hc).trans (update_of_ne hc ..)
  insts := by
    show (((w.addBlock _).addParams w.nextBlock ps).block w.nextBlock).insts = []
    rw [block_addParams_addBlock]
  opens _ _ := rfl
  entered := rfl
  size := rfl
  blocks := rfl
  has v hv := hv.mono .refl (Nat.le_add_right ..) .refl .refl
  type v hv := by
    cases v with
    | param p =>
      have hold : (w.addBlock { name, func := some f }).newParam? ps p = none :=
        if_neg (Nat.not_le_of_lt hv)
      show (((w.addBlock _).addParams w.nextBlock ps).param p).type = (w.param p).type
      simp only [addParams, hold]
      rfl
    | func h => exact part_update_self w.func f h Func.type htype
    | inst i => rfl
    | global g => rfl
  entry h b hb := by
    rw [func_setFunc]
    split
    · next hh =>
      subst hh
      exact hentry b hb
    · exact hb
  order := rfl
  removed h := part_update_self w.func f h Func.removed hremoved

/-- What is to be known in a new block is settled when it is made, before anything leads to it. -/
theorem Ordered.opened (ho : w.Ordered av) (h : w.Opens w') {known : Value → Prop}
    (hk : w'.Certified known) (hentry : ∀ f b, (w'.func f).blocks.head? = some b →
      (w.func f).blocks.head? = some b ∧ b ≠ w.nextBlock ∨ b = w.nextBlock ∧ ∀ v, ¬ known v)
    (hopens : ∀ args ∈ w'.opens w.nextBlock, (∃ f, (w'.func f).blocks.head? = some w.nextBlock) ∧
      ∀ v, some v ∈ args → ∃ p ∈ (w'.block w.nextBlock).params, v = .param p) :
    w'.Ordered (update av w.nextBlock known) := by
  have hold {c : BlockId} (hc : c ≠ w.nextBlock) : update av w.nextBlock known c = av c :=
    update_of_ne hc ..
  have hinsts (c : BlockId) : (w'.block c).insts = (w.block c).insts := by
    by_cases hc : c = w.nextBlock
    · rw [hc, h.insts, ho.insts_nextBlock]
    · rw [h.block c hc]
  have hreads (i : InstId) : w'.reads i = w.reads i := congrArg Flow.Line.reads (h.line i)
  have hexits (i : InstId) : w'.exits i = w.exits i := congrArg Flow.Line.exits (h.line i)
  refine ho.prolong (h.prolongs ho) (fun _ => []) (fun c => by rw [hinsts, append_nil])
    (fun c => ?_) (by simp)
    (fun c hc => ?_) (fun i => ?_) (fun f c hc v hv => ?_) (fun c args hargs => ?_) fun i =>
      h.entered.symm ▸ ho.entered i
  · by_cases hc : c = w.nextBlock
    · rw [hc, update_self]
      exact .inr ⟨Nat.le_refl _, hk⟩
    · exact .inl (hold hc)
  · rw [hinsts] at hc
    obtain ⟨hlt, hfunc⟩ := ho.housed c hc
    rw [h.blocks, h.block c (ne_nextBlock hlt)]
    exact ⟨Nat.lt_succ_of_lt hlt, hfunc⟩
  · simp only [hinsts, h.inst, hreads, hexits]
    exact ho.attached i
  · rcases hentry f c hc with ⟨hc, hne⟩ | ⟨rfl, hnone⟩
    · rw [hold hne] at hv
      exact ho.entry f c hc v hv
    · rw [update_self] at hv
      exact hnone v hv
  · by_cases hc : c = w.nextBlock
    · rw [hc] at hargs ⊢
      exact hopens args hargs
    · rw [h.opens c hc] at hargs
      rw [h.block c hc]
      obtain ⟨⟨f, hf⟩, hparams⟩ := ho.opens c args hargs
      exact ⟨⟨f, h.entry f c hf⟩, hparams⟩

theorem Unused.not_entry (hu : w.Unused) (hs : w.Shape) (f : FuncId) :
    (w.func f).blocks.head? ≠ some w.nextBlock := by
  intro h
  have hfunc := (hs.blocks.mem_iff f _).mp (mem_of_mem_head? h)
  rw [hu.block] at hfunc
  cases hfunc

theorem Ordered.appendBlock (ho : w.Ordered av) (hs : w.Shape) (hu : w.Unused) (name : Text)
    (hf : (w.func f).blocks ≠ []) (ps : List Member) {known : Value → Prop}
    (hk : w.Certified known) :
    (((w.addBlock { name, func := some f }).addParams w.nextBlock ps).setFunc f fun x =>
      { x with blocks := x.blocks ++ [w.nextBlock] }).Ordered (update av w.nextBlock known) := by
  have hopens := opens_addBlock w name f ps
    (g := fun x => { x with blocks := x.blocks ++ [w.nextBlock] })
    (fun _ => rfl) (fun _ => rfl) fun b hb => (List.head?_append_of_ne_nil _ hf).trans hb
  refine ho.opened hopens (hk.prolong (hopens.prolongs ho)) (fun h b hb => .inl ?_)
    fun args hargs => ?_
  · have hb : (w.func h).blocks.head? = some b := by
      rw [func_setFunc] at hb
      split at hb
      · next hh =>
        subst hh
        exact (List.head?_append_of_ne_nil _ hf).symm.trans hb
      · exact hb
    exact ⟨hb, fun he => hu.not_entry hs h (he ▸ hb)⟩
  · obtain ⟨⟨h, hh⟩, -⟩ := ho.opens w.nextBlock args hargs
    exact absurd hh (hu.not_entry hs h)

theorem opens_define (hf : (w.func f).blocks = []) (ps : List Member) :
    w.Opens (w.define f ps) := by
  have hadd := opens_addBlock w "entry" f ps
    (g := ({ · with blocks := [w.nextBlock], defined := true }))
    (fun _ => rfl) (fun _ => rfl) fun b hb => by rw [hf] at hb; cases hb
  exact { hadd with opens := fun c hc => update_of_ne hc .. }

theorem func_define (w : View) (f : FuncId) (ps : List Member) :
    (w.define f ps).func f = { w.func f with blocks := [w.nextBlock], defined := true } :=
  update_self ..

/-- A function gets its entry, where nothing is known yet but the parameters. -/
theorem Ordered.define (ho : w.Ordered av) (hs : w.Shape) (hu : w.Unused)
    (hf : (w.func f).blocks = [])
    (ps : List Member) : (w.define f ps).Ordered (update av w.nextBlock fun _ => False) := by
  have hopens := opens_define hf ps
  have hentry : ((w.define f ps).func f).blocks.head? = some w.nextBlock := by
    rw [func_define]
    rfl
  refine ho.opened hopens ⟨fun _ hv => hv.elim, fun _ hv => hv.elim⟩ (fun h b hb => ?_)
    fun args hargs => ?_
  · by_cases hh : h = f
    · subst hh
      exact .inr ⟨Option.mem_unique hb hentry, fun _ => id⟩
    · have hb : (w.func h).blocks.head? = some b := by
        have : (w.define f ps).func h = w.func h := update_of_ne hh ..
        rwa [this] at hb
      exact .inl ⟨hb, fun he => hu.not_entry hs h (he ▸ hb)⟩
  · have hargs : args ∈ w.opens w.nextBlock ++
        [((w.define f ps).block w.nextBlock).params.map fun p => some (.param p)] := by
      have : (w.define f ps).opens w.nextBlock = _ := update_self ..
      rwa [this] at hargs
    rcases mem_append.mp hargs with hargs | hargs
    · obtain ⟨⟨h, hh⟩, -⟩ := ho.opens w.nextBlock args hargs
      exact absurd hh (hu.not_entry hs h)
    · refine ⟨⟨f, hentry⟩, fun v hv => ?_⟩
      rw [mem_singleton.mp hargs] at hv
      obtain ⟨p, hp, he⟩ := mem_map.mp hv
      exact ⟨p, hp, (Option.some.inj he).symm⟩

/-! ### Walks -/

theorem Gives.known (f : FuncId) (h : w.Gives av b is v) : av b v ∨
    (∃ p ∈ (w.graph f).params b, v = .param p) ∨
      ∃ l ∈ is.map w.line, l.op.isTerminator = false ∧ v = .inst l.id := by
  rcases h with h | h | ⟨i, hi, hop, rfl⟩
  · exact .inl h
  · exact .inr (.inl h)
  · exact .inr (.inr ⟨w.line i, mem_map_of_mem hi, hop, rfl⟩)

/-- In every function that has an entry, whatever is read is known where it is read. -/
theorem Ordered.available (h : w.Ordered av) (hf : (w.func f).blocks.head? = some b) :
    Available (w.graph f) av where
  entry v := by
    show ¬ av ((w.func f).blocks.head?.getD default) v
    rw [hf]
    exact h.entry f b hf v
  edge c _ t ht v hv := by
    obtain ⟨l, hl, x, hx, htarget⟩ := ht
    obtain ⟨i, hi, rfl⟩ := mem_map.mp hl
    obtain ⟨t', ht', -, hknown⟩ := h.edge c i hi x hx
    obtain rfl := Option.mem_unique htarget ht'
    exact (hknown v hv).known f
  reads c _ before l after hl v hv := by
    obtain ⟨pre, rest, hsplit, rfl, hrest⟩ := map_eq_append_iff.mp hl
    obtain ⟨i, post, rfl, rfl, -⟩ := map_eq_cons_iff.mp hrest
    exact (h.reads c pre i post hsplit v hv).imp_right (Gives.known f)

end Midlevel.Ir.View
