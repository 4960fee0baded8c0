import Midlevel.Proofs.Ir.Framing
import Midlevel.Proofs.Ir.Insertion
import Midlevel.Proofs.Ir.Ordered

/-!
Building code at the end of a block. `Builder.Tidy` is what holds of a builder throughout the
lowering of a tree: the module is sound, its code is ordered, and calls and conditions have the
types that they are asked for. `Advances` says of a program that it goes on in a block: if what it
is given can be used there, so can what it returns, and it fails only with an error.
-/

namespace Midlevel.Ir

open Build List Option

open Midlevel.Flow (Constant)

variable {s : Builder} {l : Line} {x : Build InstId}
variable {i : InstId}
variable {args vs : Args} {v : Value} {f : FuncId} {y : Inst} {m' : Module}

/-! ### Types of calls and conditions -/

namespace View

variable {w w' : View}

/-- The arguments are there, and of those types where one is given. -/
def Fits (w : View) (args : Args) (types : List TypeId) : Prop :=
  args.length = types.length ∧ ∀ p ∈ args.zip types, ∃ v, p.1 = some v ∧
    (p.2 ≠ .none → w.valueType v = p.2)

structure TypedAt (w : View) (i : InstId) : Prop where
  cond : (w.inst i).op = .condBr → ∀ v, some v ∈ w.reads i → w.valueType v = .bool
  call : ∀ f, w.callee i = some f → ∃ sig args, w.types.signature? (w.func f).type = some sig ∧
    (w.inst i).type = sig.result ∧ w.reads i = some (.func f) :: args ∧
      (sig.conv = .free → w.Fits args sig.params)

theorem callee_of_line (h : w'.line i = w.line i) : w'.callee i = w.callee i := by
  have hop : (w'.inst i).op = (w.inst i).op := congrArg Flow.Line.op h
  have hreads : w'.reads i = w.reads i := congrArg Flow.Line.reads h
  unfold callee
  rw [hop, hreads]

theorem Fits.prolong {types : List TypeId} (h : w.Fits args types)
    (hp : w.Prolongs w') (hargs : ∀ v, some v ∈ args → w.Has v) : w'.Fits args types := by
  refine ⟨h.1, fun p hmem => ?_⟩
  obtain ⟨v, hv, htype⟩ := h.2 p hmem
  refine ⟨v, hv, fun hne => ?_⟩
  rw [hp.type v (hargs v (hv ▸ (of_mem_zip hmem).1)), htype hne]

theorem TypedAt.prolong (h : w.TypedAt i) (hi : i.index < w.insts) (hp : w.Prolongs w')
    (hext : w.types.Extends w'.types) (hreads : ∀ v, some v ∈ w.reads i → w.Has v) :
    w'.TypedAt i := by
  refine ⟨fun hop v hv => ?_, fun f hf => ?_⟩
  · rw [hp.op hi] at hop
    rw [hp.reads hi] at hv
    rw [hp.type v (hreads v hv), h.cond hop v hv]
  · rw [callee_of_line (hp.line i hi)] at hf
    obtain ⟨sig, args, hsig, htype, hread, htakes⟩ := h.call f hf
    have hmem : ∀ v, some v ∈ some (Value.func f) :: args → w.Has v := hread ▸ hreads
    have hfunc : (w'.func f).type = (w.func f).type := hp.type (.func f) (hmem _ mem_cons_self)
    refine ⟨sig, args, hfunc ▸ hext.signature? hsig, ?_, (hp.reads hi).trans hread, fun hfree => ?_⟩
    · exact (congrArg Flow.Line.type (hp.line i hi)).trans htype
    · exact (htakes hfree).prolong hp fun v hv => hmem v (mem_cons_of_mem _ hv)

end View

/-! ### Tidy builders -/

/-- What holds of a builder throughout the lowering of a tree. -/
structure Builder.Tidy (s : Builder) (av : Avail) : Prop where
  sound : s.Sound
  ordered : s.view.Ordered av
  typed : ∀ i, s.module.HasValue (.inst i) → s.view.TypedAt i
  rooted : s.module.types.Rooted
  complete : s.module.types.Complete
  func : ∀ f, s.module.HasValue (.func f) → s.module.types.kind (s.module.funcs.get f).type = .fn ∧
    (s.module.funcs.get f).removed = false ∧ f ∈ s.module.order

/-- What holds of the functions of a tidy builder holds of those that `t` has and `s` does
not have. -/
def Builder.NewFuncs (s t : Builder) : Prop :=
  ∀ f, ¬ s.module.HasValue (.func f) → t.module.HasValue (.func f) →
    t.module.types.kind (t.module.funcs.get f).type = .fn ∧ (t.module.funcs.get f).removed = false ∧
      f ∈ t.module.order

variable {t : Builder} {av av' : Avail} {b : BlockId}

theorem Builder.Sound.has_of_reads (h : s.Sound) (hv : some v ∈ s.view.reads i) : s.view.Has v :=
  (s.module.hasValue_iff_view v).mp (h.linked.hasValue_of_reads (.inl ⟨i, hv⟩))

namespace Builder.Tidy

variable (h : s.Tidy av)
include h

theorem prolong (ht : t.Sound) (ho : t.module.view.Ordered av')
    (hp : s.module.view.Prolongs t.module.view) (hext : s.module.types.Extends t.module.types)
    (hinst : ∀ i, ¬ s.HasValue (.inst i) → t.HasValue (.inst i) → t.module.view.TypedAt i)
    (hfunc : s.NewFuncs t) : t.Tidy av' where
  sound := ht
  ordered := ho
  typed i hi := by
    by_cases hold : s.HasValue (.inst i)
    · exact (h.typed i hold).prolong hold hp hext fun v hv => h.sound.has_of_reads hv
    · exact hinst i hold hi
  rooted := hext.rooted h.rooted
  complete := hext.complete h.complete
  func f hf := by
    by_cases hold : s.HasValue (.func f)
    · obtain ⟨hkind, hremoved, horder⟩ := h.func f hold
      have htype : (t.module.funcs.get f).type = (s.module.funcs.get f).type :=
        hp.type (.func f) hold
      refine ⟨?_, (hp.removed f hold).trans hremoved, hp.order f horder⟩
      rw [htype]
      exact hext.kind hkind (by decide)
    · exact hfunc f hold hf

theorem moveCursor (c : Cursor) : Builder.Tidy { s with cursor := c } av :=
  ⟨⟨h.sound.linked, h.sound.shape, h.sound.ended, h.sound.journal⟩, h.ordered, h.typed, h.rooted,
    h.complete, h.func⟩

theorem of_sameCode (ht : t.Sound) (hcode : s.view.SameCode t.view)
    (hext : s.module.types.Extends t.module.types) (hfunc : s.NewFuncs t) : t.Tidy av := by
  have hsize : t.view.insts = s.view.insts := hcode.size
  exact h.prolong ht (h.ordered.of_sameCode hcode) hcode.prolongs hext
    (fun i hold hi => absurd (hsize ▸ hi : i.index < s.view.insts) hold) hfunc

theorem opened (ht : t.Sound) (hopens : s.view.Opens t.view)
    (ho : t.view.Ordered av') (htypes : t.view.types = s.view.types)
    (hfuncs : t.view.funcs = s.view.funcs) : t.Tidy av' := by
  have hext : s.module.types.Extends t.module.types := by
    rw [show t.module.types = s.module.types from htypes]
    exact .rfl
  refine h.prolong ht ho (hopens.prolongs h.ordered) hext (fun i hold hi => ?_) fun f hold hf => ?_
  · exact absurd (hopens.size ▸ hi : i.index < s.view.insts) hold
  · exact absurd (hfuncs ▸ hf : f.index < s.view.funcs) hold

theorem signature (hf : s.HasValue (.func f)) :
    ∃ sig, s.module.types.signature? (s.module.funcs.get f).type = some sig :=
  h.complete.signature? (h.func f hf).1

end Builder.Tidy

/-! ### Going on in a block -/

structure Builder.At (s : Builder) (av : Avail) (b : BlockId) : Prop where
  tidy : s.Tidy av
  block : s.cursor.block = some b
  before : s.cursor.before = none
  made : b.index < s.view.blocks

/-- From `s` to `t` code was written at the end of the block, but no block was ended or made. -/
structure Builder.Onward (s t : Builder) (av : Avail) (b : BlockId) : Prop where
  here : t.At av b
  prolongs : s.module.view.Prolongs t.module.view
  types : s.module.types.Extends t.module.types
  cursor : t.cursor = s.cursor
  blocks : t.module.view.blocks = s.module.view.blocks
  func : ∀ c, (t.module.view.block c).func = (s.module.view.block c).func
  insts : ∀ c, c ≠ b → (t.module.view.block c).insts = (s.module.view.block c).insts
  heads : ∀ f, (t.module.view.func f).blocks.head? = (s.module.view.func f).blocks.head?
  defined : ∀ f, (t.module.view.func f).defined = (s.module.view.func f).defined

theorem Builder.At.onward (h : s.At av b) : s.Onward s av b :=
  ⟨h, .refl _, .rfl, rfl, rfl, fun _ => rfl, fun _ _ => rfl, fun _ => rfl, fun _ => rfl⟩

theorem Builder.Onward.trans {u : Builder} (h : s.Onward t av b) (h' : t.Onward u av b) :
    s.Onward u av b where
  here := h'.here
  prolongs := h.prolongs.trans h'.prolongs
  types := h.types.trans h'.types
  cursor := h'.cursor.trans h.cursor
  blocks := h'.blocks.trans h.blocks
  func c := (h'.func c).trans (h.func c)
  insts c hc := (h'.insts c hc).trans (h.insts c hc)
  heads f := (h'.heads f).trans (h.heads f)
  defined f := (h'.defined f).trans (h.defined f)

theorem Builder.Onward.usable (h : s.Onward t av b) (hs : s.At av b) {c : BlockId}
    (hc : c.index < s.view.blocks) (hv : s.view.Usable av c v) : t.view.Usable av c v :=
  h.prolongs.usable hs.tidy.ordered hc (fun _ => id) hv

def Fails {σ : Type} (f : Fault) (_ : σ) : Prop := ∃ e, f = .error e

/-- `x` goes on at the end of the block, and `P` holds of what it returns. -/
def Advances {α : Type} (av : Avail) (b : BlockId) (x : Build α) (P : α → Builder → Prop)
    (s : Builder) : Prop :=
  s.At av b → wp x (fun a t => s.Onward t av b ∧ P a t) Fails s

theorem Builder.At.onward_of_sameCode (h : s.At av b) (ht : t.Sound)
    (hcode : s.module.view.SameCode t.module.view)
    (hext : s.module.types.Extends t.module.types) (hcursor : t.cursor = s.cursor)
    (hblock : ∀ c, (t.module.view.block c).func = (s.module.view.block c).func)
    (hfunc : s.NewFuncs t) : s.Onward t av b := by
  have htidy := h.tidy.of_sameCode ht hcode hext hfunc
  refine ⟨⟨htidy, hcursor ▸ h.block, hcursor ▸ h.before, hcode.blocks.symm ▸ h.made⟩,
    hcode.prolongs, hext, hcursor,
    hcode.blocks, hblock, fun c _ => hcode.insts c, hcode.entry, hcode.defined⟩

theorem Module.Passes.fits {m : Module} {type : TypeId} (h : m.Passes args type)
    {sig : Signature} (hsig : m.types.signature? type = some sig) (hfree : sig.conv = .free) :
    m.view.Fits args sig.params := by
  have hparams : (m.types.loweredParams type).1 = sig.params := by
    simp [TypeTable.loweredParams, hsig, hfree]
  refine ⟨hparams ▸ h.length, fun p hp => ?_⟩
  obtain ⟨v, hv, htype⟩ := h.suits p (hparams.symm ▸ hp)
  exact ⟨v, hv, fun hne => (m.view_valueType v).trans (htype hne)⟩

theorem typedAt_emitted {types : TypeTable}
    (hy : Simple y) (hcalls : s.Calls y vs) (hvs : ∀ v, some v ∈ vs → s.view.Has v)
    (hext : s.module.types.Extends types) :
    ((s.view.withTypes types).emit y vs [] b none).TypedAt s.view.nextInst := by
  have hinst := View.inst_emit s.view b types y vs [] s.view.nextInst
  have hreads := View.reads_emit s.view b types y vs [] s.view.nextInst
  rw [if_pos rfl] at hinst hreads
  refine ⟨fun hop => ?_, fun f hf => ?_⟩
  · have hterminator := hy.op
    rw [hinst] at hop
    rw [show y.op = .condBr from hop] at hterminator
    cases hterminator
  · have hop : y.op = .call := by
      unfold View.callee at hf
      rw [hinst] at hf
      by_contra hne
      rw [if_neg hne] at hf
      cases hf
    obtain ⟨g, args, sig, rfl, hsig, htype, hpasses⟩ := hcalls hop
    obtain ⟨args', hargs'⟩ := View.reads_of_callee hf
    obtain ⟨hg, rfl⟩ := List.cons.inj (hreads.symm.trans hargs')
    obtain rfl := Value.func.inj (some.inj hg)
    refine ⟨sig, args, hext.signature? hsig, hinst ▸ htype, hreads, fun hfree => ?_⟩
    exact (hpasses.fits hsig hfree).prolong (View.prolongs_emit ..) fun v hv =>
      hvs v (mem_cons_of_mem _ hv)

theorem Builder.At.onward_of_emit (hs : s.At av b) {types : TypeTable}
    {exits : List Pass.Exit} (hy : View.Emittable y vs exits) (hext : s.module.types.Extends types)
    (hcan : CanAttach s.module s.cursor y.op b) (hvs : ∀ v, some v ∈ vs → s.view.Usable av b v)
    (hargs : ∀ z ∈ exits, ∀ v, some v ∈ z.args → s.view.Usable av b v)
    (hexits : ∀ z ∈ exits, ∃ t, z.target = some t ∧ t.index < s.view.blocks ∧ ∀ v, av t v →
      s.view.AtEnd av b v)
    (htyped : ((s.view.withTypes types).emit y vs exits b none).TypedAt s.view.nextInst)
    (hl : m'.Linked)
    (hview : m'.view = (s.view.withTypes types).emit y vs exits b s.cursor.before) :
    s.Onward (s.log m' s.view.nextInst) av b := by
  have hsound := hs.tidy.sound.emit types hy hcan hl hview
  rw [hs.before] at hview
  have htypes : m'.types = types := congrArg View.types hview
  have hp : s.view.Prolongs m'.view := hview ▸ View.prolongs_emit ..
  have hordered : m'.view.Ordered av := by
    rw [hview]
    exact hs.tidy.ordered.emit types hs.made hcan.admits.func (fun v hv => (hvs v hv).known)
      (fun z hz v hv => (hargs z hz v hv).known) hexits
  have hfuncs : m'.view.funcs = s.view.funcs := (congrArg View.funcs hview :)
  have hinsts : m'.view.insts = s.view.insts + 1 := (congrArg View.insts hview :)
  have htidy : Builder.Tidy (s.log m' s.view.nextInst) av := by
    refine hs.tidy.prolong hsound hordered hp (htypes.symm ▸ hext) (fun i hold hnew => ?_)
        fun f hold hnew =>
      absurd (hfuncs ▸ hnew : f.index < s.view.funcs) hold
    obtain rfl : i = s.view.nextInst :=
      Id.eq_of_lt_succ (hinsts ▸ hnew : i.index < s.view.insts + 1) hold
    rw [hview]
    exact htyped
  refine ⟨⟨htidy, hs.block, hs.before, ?_⟩, hp, htypes.symm ▸ hext, rfl, ?_, fun d => ?_,
    fun d hd => ?_,
    fun f => (congrArg (fun w : View => (w.func f).blocks.head?) hview :),
    fun f => (congrArg (fun w : View => (w.func f).defined) hview :)⟩
  · exact Nat.lt_of_lt_of_le hs.made hp.blocks
  · exact (congrArg View.blocks hview :)
  · rw [hview, View.block_emit]
    split <;> rfl
  · rw [hview, View.insts_emit, if_neg hd]

theorem Constructor.advances (hx : Constructor l x)
    (hreads : ∀ v, some v ∈ l.reads → s.module.view.Usable av b v) :
    Advances av b x (fun i t => t.module.view.Usable av b (.inst i)) s := by
  intro hs
  have hhas : ∀ v, some v ∈ l.reads → s.HasValue v := fun v hv =>
    (s.module.hasValue_iff_view v).mpr (hreads v hv).has
  refine wp_mono (hx.emitted hs.tidy.sound.linked hhas)
    (fun i t ⟨hi, types, y, vs, c, m', ⟨hvs, hy⟩, hcan, hl, hview, ht⟩ => ?_) fun f t ⟨e, he, _⟩ =>
      ⟨e, he⟩
  subst hi ht hvs
  obtain rfl := mem_unique hcan.block hs.block
  have hnone {z : Pass.Exit} (hz : z ∈ []) : False := not_mem_nil hz
  refine ⟨hs.onward_of_emit (hy.simple.emittable hy.takes) hy.grows hcan hreads
    (fun _ hz => (hnone hz).elim)
    (fun _ hz => (hnone hz).elim)
      (typedAt_emitted hy.simple hy.calls (fun v hv => (hreads v hv).has) hy.grows) hl hview, ?_⟩
  rw [hs.before] at hview
  rw [hview]
  refine ⟨Nat.lt_succ_self _, .inr (.inr (.inr ⟨_, ?_, ?_, rfl⟩))⟩
  · rw [View.insts_emit, if_pos rfl]
    exact mem_append_right _ mem_cons_self
  · rw [View.inst_emit, if_pos rfl]
    exact hy.simple.op

/-! ### Other programs -/

section

variable {α β : Type} {P : Post α}

theorem Advances.bind {x : Build α} {f : α → Build β} {Q : Post β} (hx : Advances av b x P s)
    (hf : ∀ a t, s.Onward t av b → P a t → Advances av b (f a) Q t) :
    Advances av b (x >>= f) Q s := by
  intro hs
  refine wp_seq (hx hs) fun a t ⟨ht, hP⟩ => ?_
  exact wp_imp (hf a t ht hP ht.here) fun _ _ ⟨hu, hQ⟩ => ⟨ht.trans hu, hQ⟩

theorem Advances.pure {a : α} (h : P a s) : Advances av b (Pure.pure a) P s :=
  fun hs => ⟨hs.onward, h⟩

theorem Advances.of_same {x : Build α} (hx : s.At av b → wp x (fun a t => t = s ∧ P a s) Fails s) :
    Advances av b x P s := by
  intro hs
  refine wp_imp (hx hs) fun a t ⟨ht, hP⟩ => ?_
  subst ht
  exact ⟨hs.onward, hP⟩

/-- Wherever it starts, `x` goes where `R` says or fails with an error. -/
def Moves (R : Builder → Builder → Prop) (x : Build α) : Prop :=
  ∀ s, wp x (fun _ t => R s t) Fails s

namespace Moves

variable {R : Builder → Builder → Prop} [IsPreorder Builder R] {x : Build α}

theorem pure (a : α) : Moves R (Pure.pure a) := fun s => refl_of R s

theorem types : Moves R types := fun s => refl_of R s

theorem bind {f : α → Build β} (hx : Moves R x) (hf : ∀ a, Moves R (f a)) : Moves R (x >>= f) :=
  fun s =>
  wp_seq (hx s) fun a t ht => wp_imp (hf a t) fun _ _ hu => trans_of R ht hu

theorem mapM {f : β → Build α} {xs : List β} (hf : ∀ x ∈ xs, Moves R (f x)) :
    Moves R (xs.mapM f) := by
  induction xs with
  | nil =>
    exact .pure _
  | cons x xs ih =>
    rw [mapM_cons]
    refine (hf x mem_cons_self).bind fun _ => ?_
    exact (ih (forall_mem_cons.mp hf).2).bind fun _ => .pure _

omit [IsPreorder Builder R]

theorem fail (e : Error) : Moves R (fail e : Build α) := fun _ => ⟨e, rfl⟩

theorem ite {c : Prop} [Decidable c] {y : Build α} (hx : Moves R x) (hy : Moves R y) :
    Moves R (if c then x else y) := by
  split
  · exact hx
  · exact hy

end Moves

/-- `x` names types, wherever the cursor stands. -/
abbrev Names (x : Build α) : Prop := Moves Builder.Gains x

theorem names_onTypes {f : TypeTable → α × TypeTable}
    (hf : ∀ types : TypeTable, types.Extends (f types).2) :
    Names (onTypes f) := by
  intro s
  exact ⟨_, hf _, rfl⟩

theorem Builder.At.onward_of_gains (h : s.At av b) (ht : s.Gains t) : s.Onward t av b := by
  obtain ⟨types, hext, rfl⟩ := ht
  exact h.onward_of_sameCode (keeps_withTypes h.tidy.sound _).sound
    (View.sameCode_withTypes _ _) hext rfl
    (fun _ => rfl) fun f hold hnew => absurd hnew hold

theorem Names.advances {x : Build α} (hx : Names x) : Advances av b x Any s :=
  fun hs => wp_imp (hx s) fun _ _ ht => ⟨hs.onward_of_gains ht, trivial⟩

theorem advances_setName (i : InstId) (name : Text) (hi : s.HasValue (.inst i)) :
    Advances av b (setName (.inst i) name) Any s := by
  intro hs
  have hsound : Builder.Sound { s with module := s.module.setValueName name (.inst i) } :=
    Builder.Extends.sound (keeps_setName hs.tidy.sound (.inst i) name)
  refine ⟨hs.onward_of_sameCode hsound
    (Module.view_setName hi name ▸ View.sameCode_setInst _ _ fun _ => ⟨rfl, rfl, rfl, rfl⟩) .rfl rfl
    (fun _ => rfl) fun f hold hnew => absurd hnew hold, trivial⟩

theorem Builder.added_func {types : TypeTable} {x : Func}
    (hview : m'.view = (s.view.withTypes types).addFunc x) (hblocks : x.blocks = [])
    (hdefined : x.defined = false) (hkind : types.kind x.type = .fn)
    (hremoved : x.removed = false) :
    s.view.SameCode m'.view ∧ s.NewFuncs { s with module := m' } := by
  refine ⟨?_, fun f hold hnew => ?_⟩
  · rw [hview]
    exact (View.sameCode_withTypes _ types).trans
      (View.sameCode_addFunc (s.module.unused.withTypes types) hblocks hdefined)
  · have hfuncs : m'.view.funcs = s.view.funcs + 1 := (congrArg View.funcs hview :)
    obtain rfl : f = s.view.nextFunc :=
      Id.eq_of_lt_succ (hfuncs ▸ hnew : f.index < s.view.funcs + 1) hold
    have hself : m'.view.func s.view.nextFunc = x := by
      rw [hview]
      exact Function.update_self ..
    have horder : m'.order = s.module.order ++ [s.view.nextFunc] := (congrArg View.order hview :)
    refine ⟨?_, (congrArg Func.removed hself).trans hremoved,
      horder.symm ▸ mem_append_right _ mem_cons_self⟩
    show m'.view.types.kind (m'.view.func s.view.nextFunc).type = .fn
    rw [hself, hview]
    exact hkind

theorem advances_resolve (name : Text) :
    Advances av b (resolve name) (fun f t => t.HasValue (.func f)) s := by
  intro hs
  refine wp_resolve hs.tidy.sound.linked name (fun e _ _ => ⟨e, rfl⟩)
    (fun m' p proto types hdeclare hl hview => ?_) fun f hf => ⟨hs.onward, hs.tidy.sound.hasFunc hf⟩
  obtain ⟨hextends, hhas⟩ := adds_addFunc hs.tidy.sound hl types rfl hview
  obtain ⟨hcode, hnew⟩ :=
    s.added_func hview rfl rfl (TypeTable.kind_declare hs.tidy.rooted hdeclare) rfl
  have htypes : m'.types = types := (congrArg View.types hview :)
  refine ⟨hs.onward_of_sameCode hextends.sound hcode ?_ rfl
    (fun c => (congrArg (fun w => (View.block w c).func) hview :)) hnew, hhas⟩
  rw [show m'.types = types from htypes]
  exact TypeTable.extends_declare _ hdeclare

theorem Builder.Tidy.typesOf (h : s.Tidy av) (hf : s.HasValue (.func f)) :
    s.module.typesOf f = some s.module.types := by
  rw [Module.typesOf, (h.func f hf).2.1]
  rfl

theorem advances_signature (hf : s.HasValue (.func f)) : Advances av b (signature f)
      (fun sig t => t.module.types.signature? (t.module.funcs.get f).type = some sig) s := by
  refine .of_same fun hs => ?_
  refine wp_signature (fun c _ hnone => ?_) fun sig hsig => ⟨rfl, ?_⟩
  · obtain ⟨sig, hsig⟩ := hs.tidy.signature hf
    rw [hs.tidy.typesOf hf, bind_some, hsig] at hnone
    cases hnone
  · rwa [hs.tidy.typesOf hf, bind_some] at hsig

theorem advances_resultType (hf : s.HasValue (.func f)) : Advances av b (resultType f) Any s :=
  (advances_signature hf).bind fun _ _ _ _ => .pure trivial

end

/-! ### The ends of blocks -/

theorem Builder.Sound.hasFunc_of_block (h : s.Sound) (hf : (s.view.block b).func = some f) :
    s.HasValue (.func f) := by
  have hmem := (h.shape.blocks.mem_iff f b).mpr hf
  by_contra hnot
  have hdefault : s.module.funcs.get f = default := Pool.get_of_not_has hnot
  have : (s.view.func f).blocks = [] := congrArg Func.blocks hdefault
  rw [this] at hmem
  cases hmem

theorem typedAt_of_op {w : View} (hcond : (w.inst i).op ≠ .condBr) (hcall : (w.inst i).op ≠ .call) :
    w.TypedAt i := by
  refine ⟨fun h => absurd h hcond, fun f hf => ?_⟩
  rw [View.callee, if_neg hcall] at hf
  cases hf

theorem advances_br {t : BlockId} {args : List Value} (hargs : ∀ v ∈ args, s.view.Usable av b v)
    (ht : ∀ v, av t v → s.view.AtEnd av b v) :
    Advances av b (br (some t) (args.map some)) (fun _ u => u.module.view.Leads b t) s := by
  intro hs
  have husable : ∀ v, some v ∈ args.map some → s.view.Usable av b v := fun v hv => by
    obtain ⟨u, hu, he⟩ := mem_map.mp hv
    exact some.inj he ▸ hargs u hu
  refine wp_br hs.tidy.sound.linked
    (fun v hv => (s.module.hasValue_iff_view v).mpr (husable v hv).has)
    (fun e _ => ⟨e, rfl⟩) fun t' c m' ht' hbranch hcan hl hview => ?_
  obtain rfl := some.inj ht'
  obtain rfl := mem_unique hcan.block hs.block
  have hexit {z : Pass.Exit} (hz : z ∈ [⟨some t, args.map some⟩]) : z = ⟨some t, args.map some⟩ :=
    mem_singleton.mp hz
  have hbr : View.Emittable { op := .br, type := .void } [] [⟨some t, args.map some⟩] :=
    ⟨rfl, rfl, rfl, trivial⟩
  refine ⟨hs.onward_of_emit hbr .rfl hcan (by simp) (fun z hz v hv => ?_)
    (fun z hz => ?_) ?_ hl hview, ?_⟩
  · rw [hexit hz] at hv
    exact husable v hv
  · exact ⟨t, by rw [hexit hz], Module.has_of_blockFunc hbranch.func, ht⟩
  · refine typedAt_of_op ?_ ?_ <;>
    · rw [View.inst_emit, if_pos rfl]
      nofun
  · rw [hs.before] at hview
    rw [show m'.view = (s.view.withTypes s.module.types).emit _ _ _ _ _ from hview]
    exact View.leads_emit _ _ _ _ _ mem_cons_self rfl

theorem advances_condBr {c : Value} {t u : BlockId} (hc : s.view.Usable av b c)
    (ht : ∀ v, av t v → s.view.AtEnd av b v) (hu : ∀ v, av u v → s.view.AtEnd av b v) :
    Advances av b (condBr (some c) (some t) [] (some u) [])
      (fun _ r => r.module.view.Leads b t ∧ r.module.view.Leads b u) s := by
  intro hs
  have hcond : ∀ v, some c = some v → s.HasValue v := by
    intro v hv
    rw [← some.inj hv]
    exact (s.module.hasValue_iff_view c).mpr hc.has
  refine wp_condBr hs.tidy.sound.linked hcond (by simp) (fun e _ => ⟨e, rfl⟩)
    fun c' t' u' d m' hc' hbool ht' hbranch hu' hbranch' hcan hl hview => ?_
  obtain rfl := some.inj hc'
  obtain rfl := some.inj ht'
  obtain rfl := some.inj hu'
  obtain rfl := mem_unique hcan.block hs.block
  have hexit {z : Pass.Exit} (hz : z ∈ [⟨some t, []⟩, ⟨some u, []⟩]) : z = ⟨some t, []⟩ ∨
      z = ⟨some u, []⟩ := by
    simpa using hz
  have hbr : View.Emittable { op := .condBr, type := .void } [some c] [⟨some t, []⟩,
      ⟨some u, []⟩] :=
    ⟨rfl, rfl, rfl, rfl⟩
  refine ⟨hs.onward_of_emit hbr .rfl hcan (fun v hv => ?_) (fun z hz v hv => ?_)
    (fun z hz => ?_) ?_ hl hview, ?_⟩
  · rwa [some.inj (mem_singleton.mp hv)]
  · rcases hexit hz with rfl | rfl <;> cases hv
  · rcases hexit hz with rfl | rfl
    · exact ⟨t, rfl, Module.has_of_blockFunc hbranch.func, ht⟩
    · exact ⟨u, rfl, Module.has_of_blockFunc hbranch'.func, hu⟩
  · refine ⟨fun _ v hv => ?_, fun f hf => ?_⟩
    · rw [View.reads_emit, if_pos rfl] at hv
      obtain rfl := some.inj (mem_singleton.mp hv)
      rw [(View.prolongs_emit ..).type v hc.has, s.module.view_valueType, hbool]
    · rw [View.callee, View.inst_emit, if_pos rfl] at hf
      cases hf
  · rw [hs.before] at hview
    rw [show m'.view = (s.view.withTypes s.module.types).emit _ _ _ _ _ from hview]
    exact ⟨View.leads_emit _ _ _ _ _ mem_cons_self rfl,
      View.leads_emit _ _ _ _ _ (mem_cons_of_mem _ mem_cons_self) rfl⟩

theorem Builder.At.onward_of_emitted (hs : s.At av b) {P : Form} (h : Emitted s P i t)
    (hP : ∀ types y vs, P types y vs → types = s.module.types ∧ (y.op = .ret ∨ y.op = .trap) ∧
      View.Emittable y vs [] ∧ ∀ v, some v ∈ vs → s.view.Usable av b v) :
    s.Onward t av b ∧ (t.module.terminator b).isSome := by
  obtain ⟨rfl, types, y, vs, c, m', hform, hcan, hl, hview, rfl⟩ := h
  obtain ⟨rfl, hop, hy, hvs⟩ := hP _ _ _ hform
  obtain rfl := mem_unique hcan.block hs.block
  refine ⟨hs.onward_of_emit hy .rfl hcan hvs (by simp) (by simp) (typedAt_of_op ?_ ?_) hl hview, ?_⟩
  · rw [View.inst_emit]
    rcases hop with hop | hop <;> simp [hop]
  · rw [View.inst_emit]
    rcases hop with hop | hop <;> simp [hop]
  · rw [hs.before] at hview
    have hinsts : (m'.blocks.get c).insts = (s.view.block c).insts ++ [s.view.nextInst] := by
      show (m'.view.block c).insts = _
      rw [hview, View.insts_emit, if_pos rfl]
    have hlast : (m'.insts.get s.view.nextInst).op = y.op := by
      show (m'.view.inst _).op = _
      rw [hview, View.inst_emit, if_pos rfl]
    refine isSome_iff_exists.mpr ⟨s.view.nextInst, Module.terminator_eq_some.mpr ⟨?_, ?_⟩⟩
    · rw [hinsts, List.getLast?_concat]
    · rw [hlast]
      rcases hop with hop | hop <;> rw [hop] <;> rfl

theorem advances_ret {value : Option Value} (hv : ∀ v, value = some v → s.view.Usable av b v) :
    Advances av b (ret value) (fun _ t => (t.module.terminator b).isSome) s := by
  intro hs
  refine wp_ret hs.tidy.sound.linked (fun v h => (s.module.hasValue_iff_view v).mpr (hv v h).has)
    (fun e => ⟨e, rfl⟩) (fun c f _ hf hnone => ?_) fun t ht => hs.onward_of_emitted ht ?_
  · rw [Cursor.funcIn, hs.block] at hf
    have hhas := hs.tidy.sound.hasFunc_of_block hf
    obtain ⟨sig, hsig⟩ := hs.tidy.signature hhas
    rw [hs.tidy.typesOf hhas, bind_some, hsig] at hnone
    cases hnone
  · rintro _ _ _ ⟨rfl, rfl, rfl⟩
    refine ⟨rfl, .inl rfl, ⟨rfl, rfl, rfl, trivial⟩, fun v hmem => hv v ?_⟩
    cases value with
    | none => cases hmem
    | some u => exact (mem_singleton.mp hmem).symm

theorem advances_trap : Advances av b trap (fun _ t => (t.module.terminator b).isSome) s := by
  intro hs
  refine wp_mono (emitted_trap hs.tidy.sound.linked) (fun i t ht => hs.onward_of_emitted ht ?_)
    fun f t ⟨e, he, _⟩ => ⟨e, he⟩
  rintro _ _ _ ⟨rfl, rfl, rfl⟩
  exact ⟨rfl, .inr rfl, ⟨rfl, rfl, rfl, trivial⟩, by simp⟩

end Midlevel.Ir
