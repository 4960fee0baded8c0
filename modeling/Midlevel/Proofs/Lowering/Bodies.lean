import Midlevel.Proofs.Lowering.Branching

/-!
The lowering of bodies. Between two of them the builder rests: all code can be reached, and the
cursor can take no more instructions. A body is written from the entry of its function to its last
block, where control is brought to an end; a function that has a body gets no second one, because
nothing can be written at a cursor that rests.
-/

namespace Midlevel

open Ir.Build Ir.View List Option

variable {t : TypeTable}

def TypeTable.TakesSelf (t : TypeTable) (fn : TypeId) : Prop :=
  ∃ s, t.signature? fn = some s ∧ (s.conv = .method ∨ s.conv = .deinitialiser)

theorem TypeTable.Extends.takesSelf {t' : TypeTable} (h : t.Extends t') {fn : TypeId}
    (hfn : t.TakesSelf fn) :
    t'.TakesSelf fn := by
  obtain ⟨s, hs, hconv⟩ := hfn
  exact ⟨s, h.signature? hs, hconv⟩

theorem TypeTable.takesSelf_function (ht : t.Rooted) {s : Signature}
    (hs : s.conv = .method ∨ s.conv = .deinitialiser) :
    (t.function s).2.TakesSelf (t.function s).1 := by
  by_cases hresult : s.result = .none
  · have hvoid : TypeId.void ≠ .none := by decide
    have heq : t.function s = t.function { s with result := .void } := by
      unfold function
      rw [if_pos hresult, if_neg hvoid]
    rw [heq]
    exact ⟨_, signature?_function ht hvoid, hs⟩
  · exact ⟨s, signature?_function ht hresult, hs⟩

theorem TypeTable.loweredParams_of_takesSelf {fn : TypeId} {s : Signature}
    (hs : t.signature? fn = some s)
    (h : t.TakesSelf fn) : (t.loweredParams fn).1.length = s.params.length + 1 := by
  obtain ⟨s', hs', hconv⟩ := h
  obtain rfl := mem_unique hs hs'
  rw [loweredParams, hs]
  dsimp only
  rw [if_pos hconv]
  rfl

namespace Ir

variable {b : BlockId} {f : FuncId}
variable {m : Module}

/-! ### Between bodies -/

variable {s t u : Builder} {av : Avail}

/-- A function with a body has an entry, which has a parameter for self if there is one. -/
def Module.Entered (m : Module) : Prop :=
  ∀ f, (m.funcs.get f).defined = true → ∃ b, (m.funcs.get f).blocks.head? = some b ∧
    (m.types.TakesSelf (m.funcs.get f).type → (m.blocks.get b).params ≠ [])

def Builder.Idle (s : Builder) : Prop :=
  ∀ b, s.cursor.block = some b → s.cursor.before = none ∧ (s.module.terminator b).isSome

theorem Builder.Idle.refuses (h : s.Idle) (hl : s.Linked) {l : Line}
    {x : Build InstId} (hx : Constructor l x) (hreads : s.module.KnowsAll l.reads)
    {Q : Post InstId} :
    wp x Q Fails s := by
  refine wp_mono (hx.emitted hl hreads) (fun i t ⟨_, _, _, _, b, _, _, hcan, _⟩ => ?_)
    fun f t ⟨e, he, _⟩ => ⟨e, he⟩
  obtain ⟨hbefore, hend⟩ := h b hcan.block
  rw [hcan.atEnd hbefore] at hend
  cases hend

/-- All code can be reached, and functions with a body have been entered. -/
structure Builder.Whole (s : Builder) (av : Avail) : Prop where
  tidy : s.Tidy av
  reached : ∀ c, (s.view.block c).func ≠ none → s.view.Reached c
  entered : s.module.Entered

structure Builder.Rests (s : Builder) (av : Avail) : Prop extends s.Whole av where
  idle : s.Idle

/-- From `s` to `t` code was written, but no function got its body. -/
structure Builder.Follows (s t : Builder) : Prop where
  prolongs : s.view.Prolongs t.view
  types : s.module.types.Extends t.module.types
  heads : ∀ f, (t.view.func f).blocks.head? = (s.view.func f).blocks.head?
  defined : ∀ f, (t.view.func f).defined = (s.view.func f).defined

theorem Module.hasFunc_of_defined (h : (m.funcs.get f).defined = true) : m.HasValue (.func f) := by
  by_contra hnot
  rw [show m.funcs.get f = default from Pool.get_of_not_has hnot] at h
  cases h

theorem Module.hasBlock_of_head (hs : m.view.Shape) (h : (m.funcs.get f).blocks.head? = some b) :
    b.index < m.view.blocks := by
  have hfunc : (m.blocks.get b).func = some f := (hs.blocks.mem_iff f b).mp (mem_of_head? h)
  exact Module.has_of_blockFunc (hfunc ▸ rfl)

theorem Builder.Tidy.takesSelf (h : s.Tidy av) (hf : s.HasValue (.func f))
    (hp : s.view.Prolongs t.view) (hext : s.module.types.Extends t.module.types)
    (hself : t.module.types.TakesSelf (t.module.funcs.get f).type) :
    s.module.types.TakesSelf (s.module.funcs.get f).type := by
  obtain ⟨sig, hsig⟩ := h.signature hf
  obtain ⟨sig', hsig', hconv⟩ := hself
  have htype : (t.module.funcs.get f).type = (s.module.funcs.get f).type := hp.type (.func f) hf
  rw [htype, hext.signature? hsig] at hsig'
  exact ⟨sig, hsig, some.inj hsig' ▸ hconv⟩

theorem Builder.Follows.entered (hf : s.Follows t) (h : s.Tidy av) (he : s.module.Entered) :
    t.module.Entered := by
  intro f hdefined
  have hold : (s.module.funcs.get f).defined = true := (hf.defined f).symm.trans hdefined
  obtain ⟨b, hb, hparams⟩ := he f hold
  have hmade := Module.hasBlock_of_head h.sound.shape hb
  refine ⟨b, (hf.heads f).trans hb, fun hself => ?_⟩
  rw [show (t.module.blocks.get b).params = (s.module.blocks.get b).params from
    hf.prolongs.params b hmade]
  exact hparams (h.takesSelf (Module.hasFunc_of_defined hold) hf.prolongs hf.types hself)

theorem View.SameCode.terminator {m' : Module} (h : m.view.SameCode m'.view) (b : BlockId) :
    m'.terminator b = m.terminator b := by
  have hinsts : (m'.blocks.get b).insts = (m.blocks.get b).insts := h.insts b
  have hop (i : InstId) : (m'.insts.get i).op = (m.insts.get i).op :=
    congrArg Flow.Line.op (h.line i)
  unfold Module.terminator
  rw [hinsts]
  simp only [hop]

theorem Builder.Whole.of_sameCode (h : s.Whole av) (ht : t.Sound) (hcode : s.view.SameCode t.view)
    (hext : s.module.types.Extends t.module.types)
    (hblock : ∀ c, (t.view.block c).func = (s.view.block c).func)
    (hfunc : s.NewFuncs t) : t.Whole av where
  tidy := h.tidy.of_sameCode ht hcode hext hfunc
  reached c hc := hcode.prolongs.reached h.tidy.ordered (h.reached c (hblock c ▸ hc))
  entered := Builder.Follows.entered ⟨hcode.prolongs, hext, hcode.entry,
    hcode.defined⟩ h.tidy h.entered

theorem Builder.Rests.of_sameCode (h : s.Rests av) (ht : t.Sound) (hcode : s.view.SameCode t.view)
    (hext : s.module.types.Extends t.module.types) (hcursor : t.cursor = s.cursor)
    (hblock : ∀ c, (t.view.block c).func = (s.view.block c).func) (hfunc : s.NewFuncs t) :
    t.Rests av where
  toWhole := h.toWhole.of_sameCode ht hcode hext hblock hfunc
  idle b hb := by
    rw [hcursor] at hb ⊢
    rw [hcode.terminator]
    exact h.idle b hb

/-- From `s` to `t` something was declared or a body was written, and the builder rests again. -/
structure Builder.Resumes (s t : Builder) : Prop where
  rests : ∃ av, t.Rests av
  prolongs : s.view.Prolongs t.view
  types : s.module.types.Extends t.module.types

theorem Builder.Resumes.trans (h : s.Resumes t) (h' : t.Resumes u) : s.Resumes u :=
  ⟨h'.rests, h.prolongs.trans h'.prolongs, h.types.trans h'.types⟩

/-- `x` keeps a builder at rest, and `P` holds of what it returns. -/
def Resuming {α : Type} (x : Build α) (P : α → Builder → Prop) (s : Builder) : Prop :=
  (∃ av, s.Rests av) → wp x (fun a t => s.Resumes t ∧ P a t) Fails s

section Rules

variable {α β : Type} {P : Post α}
variable {x : Build α}

theorem Resuming.pure {a : α} (h : P a s) : Resuming (Pure.pure a) P s :=
  fun hs => ⟨⟨hs, .refl _, .rfl⟩, h⟩

theorem Resuming.bind {f : α → Build β} {Q : Post β} (hx : Resuming x P s)
    (hf : ∀ a t, s.Resumes t → P a t → Resuming (f a) Q t) : Resuming (x >>= f) Q s := by
  intro hs
  refine wp_seq (hx hs) fun a t ⟨ht, hP⟩ => ?_
  exact wp_imp (hf a t ht hP ht.rests) fun _ _ ⟨hu, hQ⟩ => ⟨ht.trans hu, hQ⟩

theorem Resuming.mono {Q : Post α} (hx : Resuming x P s) (hPQ : ∀ a t, P a t → Q a t) :
    Resuming x Q s := fun hs => wp_imp (hx hs) fun a t ⟨ht, hP⟩ => ⟨ht, hPQ a t hP⟩

theorem Resuming.mapM {f : β → Build α} {xs : List β} (hP : ∀ a t u, t.Resumes u → P a t → P a u)
    (hf : ∀ x ∈ xs, ∀ t, s.Resumes t → Resuming (f x) P t) :
    Resuming (xs.mapM f) (fun as t => ∀ a ∈ as, P a t) s := by
  intro hs
  induction xs generalizing s with
  | nil =>
    exact ⟨⟨hs, .refl _, .rfl⟩, by simp⟩
  | cons x xs ih =>
    rw [mapM_cons]
    refine (hf x mem_cons_self s ⟨hs, .refl _, .rfl⟩).bind (fun a t ht ha => ?_) hs
    refine Resuming.bind
      (fun ht' => ih (fun y hy u hu => hf y (mem_cons_of_mem _ hy) u (ht.trans hu)) ht') ?_
    intro as u hu has
    exact .pure (forall_mem_cons.mpr ⟨hP a t u hu ha, has⟩)

theorem Names.resuming (hx : Names x) : Resuming x Any s := by
  rintro ⟨av, hs⟩
  refine wp_imp (hx s) ?_
  rintro - _ ⟨types, hext, rfl⟩
  exact ⟨⟨⟨av, hs.of_sameCode (keeps_withTypes hs.tidy.sound _).sound
    (sameCode_withTypes _ _) hext rfl
    (fun _ => rfl) fun f hold hnew => absurd hnew hold⟩, (sameCode_withTypes _ _).prolongs, hext⟩,
      trivial⟩

end Rules

/-! ### Functions -/

theorem resuming_addFunction (name : Text) (type : TypeId) : Resuming (Build.addFunction name type)
      (fun f t => t.HasValue (.func f) ∧ (t.module.funcs.get f).type = type) s := by
  rintro ⟨av, hs⟩
  refine wp_addFunction hs.tidy.sound.linked name type (fun e => ⟨e, rfl⟩)
    fun m' hkind hl hview => ?_
  obtain ⟨hextends, hhas⟩ := adds_addFunc hs.tidy.sound hl s.module.types rfl hview
  obtain ⟨hcode, hnew⟩ :=
    s.added_func (hview : m'.view = (s.view.withTypes s.module.types).addFunc _) rfl rfl hkind rfl
  have hself : m'.view.func s.view.nextFunc = { name, type, refName := name } := by
    rw [hview]
    exact Function.update_self ..
  have hext : s.module.types.Extends m'.types := by
    rw [show m'.types = s.module.types from (congrArg View.types hview :)]
    exact .rfl
  exact ⟨⟨⟨av, hs.of_sameCode hextends.sound hcode hext rfl
    (fun c => (congrArg (fun w => (block w c).func) hview :)) hnew⟩, hcode.prolongs, hext⟩, hhas,
    (congrArg Func.type hself :)⟩

theorem resuming_getOrAddFunction (name : Text) (type : TypeId) :
    Resuming (Build.getOrAddFunction name type)
      (fun f t => t.HasValue (.func f) ∧ (t.module.funcs.get f).type = type) s := by
  intro hs
  rw [getOrAddFunction, wp_bind, wp_module]
  cases hf : s.module.funcNamed? name with
  | none => exact resuming_addFunction name type hs
  | some f =>
    rw [wp_ite]
    refine ⟨fun htype => ?_, fun _ => ⟨_, rfl⟩⟩
    obtain ⟨av, hrests⟩ := id hs
    exact ⟨⟨hs, .refl _, .rfl⟩, hrests.tidy.sound.hasFunc hf, htype⟩

section Annotate

variable {g : Func → Func}
  (hg : ∀ x, (g x).bare = g x.bare ∧ (g x).uses = x.uses ∧ (g x).blocks = x.blocks ∧
    (g x).defined = x.defined)
  (hkept : ∀ x, (g x).type = x.type ∧ (g x).removed = x.removed)

include hg hkept

theorem annotate (hs : s.Sound) (hf : s.HasValue (.func f)) :
    Builder.Sound { s with module := s.module.updateFunc f g } ∧
      s.view.SameCode (s.module.updateFunc f g).view ∧
      s.NewFuncs { s with module := s.module.updateFunc f g } := by
  have hext := keeps_annotate hs f hg
  refine ⟨hext.sound, ?_, fun f' hold hnew =>
    absurd ((Module.hasValue_updateFunc f g _).mp hnew) hold⟩
  rw [Module.view_updateFunc (fun x => (hg x).1) (.inl hf)]
  exact sameCode_setFunc _ f (fun x => (hkept x).1) (fun x => (hkept x).2) (fun x => (hg x).2.2.2)
    (by rw [(hg _).2.2.1])

theorem resuming_annotate (hf : s.HasValue (.func f)) : Resuming (Build.modifyFunc f g) Any s := by
  rintro ⟨av, hs⟩
  obtain ⟨hsound, hcode, hnew⟩ := annotate hg hkept hs.tidy.sound hf
  exact ⟨⟨⟨av, hs.of_sameCode hsound hcode .rfl rfl (fun _ => rfl) hnew⟩, hcode.prolongs, .rfl⟩,
    trivial⟩

end Annotate

/-- The cursor stands in a function that has just got its entry. -/
structure Builder.Begins (s t : Builder) (av : Avail) (f : FuncId) (b : BlockId) : Prop
    extends t.Whole av where
  block : t.cursor.block = some b
  before : t.cursor.before = none
  head : (t.module.funcs.get f).blocks.head? = some b
  prolongs : s.view.Prolongs t.view
  types : s.module.types.Extends t.module.types

theorem Builder.Begins.annotate (h : s.Begins t av f b) {g : Func → Func}
    (hf : t.HasValue (.func f))
    (hg : ∀ x, (g x).bare = g x.bare ∧ (g x).uses = x.uses ∧ (g x).blocks = x.blocks ∧
      (g x).defined = x.defined)
    (hkept : ∀ x, (g x).type = x.type ∧ (g x).removed = x.removed) :
    s.Begins { t with module := t.module.updateFunc f g } av f b := by
  obtain ⟨hsound, hcode, hnew⟩ := Ir.annotate hg hkept h.tidy.sound hf
  exact ⟨h.toWhole.of_sameCode hsound hcode .rfl (fun _ => rfl) hnew, h.block, h.before,
    (hcode.entry f).trans h.head, h.prolongs.trans hcode.prolongs, h.types⟩

theorem Builder.Begins.self (h : s.Begins t av f b) (hf : s.HasValue (.func f))
    (hself : s.module.types.TakesSelf (s.module.funcs.get f).type) :
    (t.module.blocks.get b).params ≠ [] := by
  have hdefined : (t.module.funcs.get f).defined = true := by
    by_contra hnot
    have hnil : (t.module.funcs.get f).blocks = [] :=
      h.tidy.sound.shape.blocks.undefined f (Bool.not_eq_true _ ▸ hnot)
    have hhead := h.head
    rw [hnil] at hhead
    cases hhead
  have htype : (t.module.funcs.get f).type = (s.module.funcs.get f).type :=
    h.prolongs.type (.func f) hf
  obtain ⟨c, hc, hparams⟩ := h.entered f hdefined
  obtain rfl := mem_unique h.head hc
  exact hparams (htype ▸ h.types.takesSelf hself)

theorem entryParams_ne_nil {lowered : List TypeId} {names : List Text}
    (h : lowered.length = names.length + 1) :
    Build.entryParams lowered names ≠ [] := by
  rw [entryParams]
  intro hnil
  have := congrArg List.length hnil
  simp [h] at this

theorem Builder.Rests.define (hs : s.Rests av) (hf : s.HasValue (.func f)) {sig : Signature}
    (hsig : s.module.types.signature? (s.module.funcs.get f).type = some sig)
    (hdefined : (s.module.funcs.get f).defined = false) {names : List Text}
    (hlength : names.length = sig.params.length) {m' : Module} (hl : m'.Linked)
    (hview : m'.view = (s.view.withTypes
      (s.module.types.loweredParams (s.module.funcs.get f).type).2).define f
        (Build.entryParams (s.module.types.loweredParams (s.module.funcs.get f).type).1 names))
        (c : Cursor) :
    ∃ av', Builder.Whole { s with module := m', cursor := c } av' ∧
      (m'.funcs.get f).blocks.head? = some s.view.nextBlock ∧ s.view.Prolongs m'.view ∧
      s.module.types.Extends m'.types := by
  have hsound := hs.tidy.sound
  have hself := TypeTable.loweredParams_of_takesSelf hsig
  have hext : s.module.types.Extends (s.module.types.loweredParams (s.module.funcs.get f).type).2 :=
    TypeTable.extends_loweredParams _ _
  generalize s.module.types.loweredParams (s.module.funcs.get f).type = low at hview hself hext
  have hchanges : s.view.Changes m'.view := by
    rw [hview]
    exact (View.Growth.alike (.withTypes _ _)).changes.tail
      (.growth (.define (s.module.unused.withTypes _) hdefined _))
  have ht : Builder.Sound { s with module := m', cursor := c } :=
    (hsound.extends_of_changes hl hchanges).sound
  -- the view before the definition, with the types that its parameters need
  have hcode := sameCode_withTypes s.view low.2
  have hold := hs.tidy.ordered.of_sameCode hcode
  have hnone : (s.view.func f).blocks = [] := hsound.shape.blocks.undefined f hdefined
  have hopens := opens_define (w := s.view.withTypes low.2) hnone (entryParams low.1 names)
  have hordered := hold.define ((View.Alike.withTypes _ low.2).shape hsound.shape)
    (s.module.unused.withTypes low.2) hnone (entryParams low.1 names)
  rw [← hview] at hopens hordered
  have hp : s.view.Prolongs m'.view := hcode.prolongs.trans (hopens.prolongs hold)
  have htypes : m'.types = low.2 := (congrArg View.types hview :)
  have hext' : s.module.types.Extends m'.types := htypes.symm ▸ hext
  have hfunc : m'.view.func f = { s.view.func f with blocks := [s.view.nextBlock],
                                                     defined := true } := by
    rw [hview]
    exact func_define _ f _
  have hother {g : FuncId} (hg : g ≠ f) : m'.view.func g = s.view.func g := by
    rw [hview]
    exact Function.update_of_ne hg ..
  have hhead : (m'.funcs.get f).blocks.head? = some s.view.nextBlock :=
    congrArg (fun x : Func => x.blocks.head?) hfunc
  refine ⟨_, ⟨hs.tidy.prolong ht hordered hp hext' (fun i hnot hi => ?_) (fun g hnot hg => ?_),
    fun d hd => ?_,
    fun g hg => ?_⟩, hhead, hp, hext'⟩
  · exact absurd ((congrArg insts hview :) ▸ hi : i.index < s.view.insts) hnot
  · exact absurd ((congrArg funcs hview :) ▸ hg : g.index < s.view.funcs) hnot
  · by_cases hnew : d = s.view.nextBlock
    · exact .entry (hnew ▸ hhead)
    · rw [hopens.block d hnew] at hd
      exact hp.reached hs.tidy.ordered (hs.reached d hd)
  · by_cases hgf : g = f
    · subst hgf
      refine ⟨_, hhead, fun htakes => ?_⟩
      have hlow := hself (hs.tidy.takesSelf hf hp hext' htakes)
      have hparams : (m'.view.block s.view.nextBlock).params.length =
          (entryParams low.1 names).length := by
        have hblock := block_addParams_addBlock (s.view.withTypes low.2) { name := "entry",
                                                                           func := some g }
          (entryParams low.1 names)
        have hlength := congrArg (·.params.length) hblock
        rw [hview]
        refine hlength.trans ?_
        simp [newParams]
      intro hnil
      have hzero : (m'.view.block s.view.nextBlock).params.length = 0 := congrArg List.length hnil
      exact entryParams_ne_nil (hlow.trans (congrArg (· + 1) hlength.symm))
        (eq_nil_of_length_eq_zero (hparams.symm.trans hzero))
    · have hsame := hother hgf
      obtain ⟨b, hb, hparams⟩ := hs.entered g ((congrArg Func.defined hsame).symm.trans hg)
      have hmade := Module.hasBlock_of_head hsound.shape hb
      have hblock : m'.view.block b = s.view.block b := hopens.block b (ne_nextBlock hmade)
      refine ⟨b, (congrArg (fun x : Func => x.blocks.head?) hsame).trans hb, fun htakes => ?_⟩
      rw [show (m'.blocks.get b).params = (s.module.blocks.get b).params from
        (congrArg Block.params hblock :)]
      refine hparams (hs.tidy.takesSelf (Module.hasFunc_of_defined ?_) hp hext' htakes)
      exact (congrArg Func.defined hsame).symm.trans hg

theorem begins_defineAndEnter (hs : s.Rests av) (hf : s.HasValue (.func f)) (names : List Text) :
    wp (Build.defineAndEnter f names) (fun r t => r = f ∧ ∃ av' b, s.Begins t av' f b) Fails s := by
  obtain ⟨sig, hsig⟩ := hs.tidy.signature hf
  have htypesOf := hs.tidy.typesOf hf
  rw [defineAndEnter, wp_bind]
  refine wp_defineBody hs.tidy.sound.linked hf names (fun e _ => ⟨e, rfl⟩) (fun c _ hnone => ?_)
    fun m' sig' hdefined hsig' hlength hl hview => ?_
  · rw [htypesOf, bind_some, hsig] at hnone
    cases hnone
  · rw [htypesOf, bind_some, hsig] at hsig'
    obtain rfl := some.inj hsig'
    obtain ⟨av', hwhole, hhead, hp, hext⟩ := hs.define hf hsig hdefined hlength hl hview
      { func := (m'.blocks.get s.view.nextBlock).func, block := some s.view.nextBlock }
    rw [wp_bind, wp_func, wp_bind, hhead, wp_demand_some, wp_bind]
    exact ⟨rfl, av', _, hwhole, rfl, rfl, hhead, hp, hext⟩

end Ir

namespace Lowering

open Ir Midlevel.Tree

variable {α β : Type} {env : Env} {av : Avail} {b : BlockId} {σ τ υ : Site}
variable {s : Vars}
variable {params : List Value} {w : View} (v : Value)

/-! ### The scope of a body -/

theorem Runs.mapM {f : β → Lower α} {xs : List β} {I : Site → Prop} {P : α → Site → Prop}
    (hI : ∀ τ υ, τ.Onward υ av b → I τ → I υ) (hP : ∀ a τ υ, τ.Onward υ av b → P a τ → P a υ)
    (hf : ∀ x ∈ xs, ∀ τ, I τ → Runs env av b (f x) P τ) (h : I σ) :
    Runs env av b (xs.mapM f) (fun as τ => ∀ a ∈ as, P a τ) σ := by
  induction xs generalizing σ with
  | nil =>
    exact .pure (by simp)
  | cons x xs ih =>
    rw [mapM_cons]
    refine (hf x mem_cons_self σ h).bind fun a τ hτ ha => ?_
    refine (ih (forall_mem_cons.mp hf).2 (hI σ τ hτ h)).bind fun as υ hυ has => .pure ?_
    exact forall_mem_cons.mpr ⟨hP a τ υ hυ ha, has⟩

def Frame.Usable (w : View) (av : Avail) (b : BlockId) (f : Frame Accessor) : Prop :=
  ∀ x ∈ f, x.access.Usable w av b

theorem Site.Onward.frame (h : σ.Onward τ av b) {f : Frame Accessor} (hf : f.Usable σ.view av b) :
    f.Usable τ.view av b := fun x hx => h.accessor (hf x hx)

theorem usable_bindingsFrom {v : Value} (hv : w.Usable av b v) (n : Nat) (fields : List Member) :
    Frame.Usable w av b (bindingsFrom v n fields) := by
  induction fields generalizing n with
  | nil => exact fun _ h => absurd h not_mem_nil
  | cons f fields ih => exact forall_mem_cons.mpr ⟨hv, ih (n + 1)⟩

theorem runs_fieldBindings {self : Accessor} (h : self.Usable σ.view av b) (struct : TypeId) :
    Runs env av b (fieldBindings self struct) (fun f τ => f.Usable τ.view av b) σ := by
  refine .types ?_
  have hnone : Runs env av b (pure [] : Lower (Frame Accessor))
      (fun f τ => f.Usable τ.view av b) σ :=
    .pure fun _ h => absurd h not_mem_nil
  cases self with
  | object v t => exact .pure (usable_bindingsFrom h 0 _)
  | value v t => exact hnone
  | box v t => exact hnone
  | place p =>
    cases p with
    | slot v t => exact .pure (usable_bindingsFrom h 0 _)
    | field v n name t => exact hnone

theorem runs_selfParam {v : Value} (hv : σ.view.Usable av b v) :
    Runs env av b (selfParam v) (GetsAccess av b) σ := by
  exact .types (.typeOf (.ite (fun _ => .pure hv) fun _ =>
    (runs_slotAt hv).bind fun _ _ _ hp => .pure hp))

theorem runs_allocSelf (struct : TypeId) :
    Runs env av b (allocSelf struct) (GetsAccess av b) σ := by
  refine .types (.ite (fun _ => ?_) fun _ => ?_)
  · refine (Runs.construct (.allocObject _) usable_nil).bind fun i _ _ hi => ?_
    refine (Runs.build (advances_setName i _ hi.has)).bind fun _ _ h₁ _ => ?_
    have hobject : Accessor.Usable _ av b (.object (.inst i) false) := h₁.usable hi
    exact (Accessor.runs_count hobject .retain).bind fun _ _ h₂ _ => .pure (h₂.accessor hobject)
  · refine (Runs.construct (.alloc _) usable_nil).bind fun i _ _ hi => ?_
    refine (Runs.build (advances_setName i _ hi.has)).bind fun _ _ h₁ _ => ?_
    exact (runs_slotAt (h₁.usable hi)).bind fun _ _ _ hp => .pure hp

theorem runs_bindSelf (p : Pending) (hparams : ∀ v ∈ params, σ.view.Usable av b v)
    (hself : p.kind = .method ∨ p.kind = .deinitialiser → params ≠ []) :
    Runs env av b (bindSelf p params)
      (fun r τ => r.1.Usable τ.view av b ∧ ∀ v ∈ r.2, τ.view.Usable av b v) σ := by
  have howned {v : Value} {vs : List Value} {borrowed : Bool}
    (hvs : ∀ u ∈ v :: vs, σ.view.Usable av b u) :
      Runs env av b (do
        let self ← selfParam v
        let own := { name := "self", access := self, borrowed := borrowed : Binding Accessor }
        return (own :: (← fieldBindings self p.self), vs) : Lower (Frame Accessor × List Value))
      (fun r τ => r.1.Usable τ.view av b ∧ ∀ v ∈ r.2, τ.view.Usable av b v) σ := by
    obtain ⟨hv, hvs⟩ := forall_mem_cons.mp hvs
    refine (runs_selfParam hv).bind fun self _ h₁ hself => ?_
    refine (runs_fieldBindings hself p.self).bind fun fields _ h₂ hfields =>
      .pure ⟨?_, (h₁.trans h₂).all hvs⟩
    exact forall_mem_cons.mpr ⟨h₂.accessor hself, hfields⟩
  unfold bindSelf
  cases hkind : p.kind with
  | free => exact .pure ⟨fun _ h => absurd h not_mem_nil, hparams⟩
  | initialiser =>
    refine (runs_allocSelf p.self).bind fun self _ h₁ hself => ?_
    refine (runs_fieldBindings hself p.self).bind fun fields _ h₂ hfields =>
      .pure ⟨?_, (h₁.trans h₂).all hparams⟩
    exact forall_mem_cons.mpr ⟨h₂.accessor hself, hfields⟩
  | method =>
    cases params with
    | nil => exact absurd rfl (hself (.inl hkind))
    | cons v vs => exact howned hparams
  | deinitialiser =>
    cases params with
    | nil => exact absurd rfl (hself (.inr hkind))
    | cons v vs => exact howned hparams

theorem runs_named (hparams : ∀ v ∈ params, σ.view.Usable av b v) :
    Runs env av b (params.mapM fun v => do
      return { name := (← Lower.module).valueName v, access := ← accessorFor v false :
                 Binding Accessor })
      (fun f τ => Frame.Usable τ.view av b f) σ := by
  refine .mapM (fun _ _ h hI => h.all hI) (fun _ _ _ h hx => h.accessor hx)
    (fun v hv τ hI => ?_) hparams
  exact .module ((runs_accessorFor (hI v hv) false).bind fun _ _ _ ha => .pure ha)

/-! ### The end of a body -/

theorem Frame.Usable.remove {f rest : Frame Accessor} (hf : f.Usable w av b) {name : Text}
    {a : Accessor}
    (h : f.remove? name = some (a, rest)) : a.Usable w av b ∧ rest.Usable w av b := by
  have hgo : ∀ (f rest : Frame Accessor) (a : Accessor), f.Usable w av b →
      Frame.remove?.go name f = some (a, rest) → a.Usable w av b ∧ rest.Usable w av b := by
    intro f
    induction f with
    | nil =>
      intro rest a _ h
      cases h
    | cons x xs ih =>
      intro rest a hf h
      obtain ⟨hx, hxs⟩ := forall_mem_cons.mp hf
      rw [Frame.remove?.go] at h
      split at h
      · obtain ⟨rfl, rfl⟩ := Prod.mk.inj (some.inj h)
        exact ⟨hx, hxs⟩
      · obtain ⟨⟨a', rest'⟩, hrest, heq⟩ := map_eq_some_iff.mp h
        obtain ⟨rfl, rfl⟩ := Prod.mk.inj heq
        obtain ⟨ha, hrest⟩ := ih rest' a' hxs hrest
        exact ⟨ha, forall_mem_cons.mpr ⟨hx, hrest⟩⟩
  obtain ⟨⟨a', rest'⟩, hrest, heq⟩ := map_eq_some_iff.mp h
  obtain ⟨rfl, rfl⟩ := Prod.mk.inj heq
  obtain ⟨ha, hrest⟩ := hgo f.reverse rest' a' (fun x hx => hf x (mem_reverse.mp hx)) hrest
  exact ⟨ha, fun x hx => hrest x (mem_reverse.mp hx)⟩

theorem Vars.Usable.innermost (hs : s.Usable w av b) : Frame.Usable w av b s.inner := by
  cases s with
  | nil => exact fun _ h => absurd h not_mem_nil
  | cons f fs => exact hs f mem_cons_self

theorem runs_endWith {x : Build InstId}
    (hx : Advances av b x (fun _ t => (t.module.terminator b).isSome) σ.builder) :
    Runs env av b (discard (Lower.build x)) (fun _ τ => (τ.module.terminator b).isSome) σ :=
  (Runs.build hx).discarding

theorem runs_finishInit (hs : s.Usable σ.view av b) :
    Runs env av b (finishInit s) (fun _ τ => (τ.module.terminator b).isSome) σ := by
  unfold finishInit
  split
  · exact .fail _
  · next self rest hremove =>
    obtain ⟨hself, hrest⟩ := hs.innermost.remove hremove
    refine (Accessor.runs_count hself _).bind fun _ _ h₁ _ => ?_
    have hleft : Vars.Usable _ av b [rest] := forall_mem_cons.mpr ⟨h₁.frame hrest, nofun⟩
    refine (runs_leave hleft).bind fun _ _ h₂ _ => ?_
    refine (Accessor.runs_read ((h₁.trans h₂).accessor hself)).bind fun v _ _ hv => ?_
    exact runs_endWith (advances_ret fun u hu => some.inj hu ▸ hv)

/-- A body is written to its end, and the cursor can take no more. -/
def Site.Ends (σ : Site) (env : Env) (av : BlockId → Value → Prop) (τ : Site) : Prop :=
  ∃ av', σ.Later τ av av' ∧ τ.Settled env av' [] ∧ τ.builder.Idle

theorem Site.Here.ends {x : Lower Unit} (h : σ.Here env av [] b)
    (hx : Runs env av b x (fun _ τ => (τ.module.terminator b).isSome) σ) :
    wp (x.run env) (fun _ τ => σ.Ends env av τ) Fails σ := by
  refine h.run hx fun _ τ hl hτ hend => ⟨av, hl, hτ.toSettled, fun c hc => ⟨hτ.before, ?_⟩⟩
  rwa [← mem_unique hτ.block hc]

theorem wp_finishBody {K : Value → Prop} (h : σ.Open env av [] K)
    (hs : ∀ b, σ.builder.cursor.block = some b → s.Usable σ.view av b) (kind : BodyKind) :
    wp ((finishBody kind s).run env) (fun _ τ => σ.Ends env av τ) Fails σ := by
  refine Lower.wp_bind.mpr (wp_terminated (fun hstopped => ?_) fun b hb _ => ?_)
  · exact ⟨av, .refl σ av, h.toSettled, fun b hb => ⟨(h.here b hb).1.before, hstopped b hb⟩⟩
  · have hhere := (h.here b hb).1
    have hfunc : σ.module.HasValue (.func env.func) := hhere.tidy.sound.hasFunc_of_block hhere.func
    refine hhere.ends ?_
    refine .ite (fun hc => by cases hc) fun _ =>
      .ite (fun _ => runs_finishInit (hs b hb)) fun _ => ?_
    refine .read ((Runs.build (advances_resultType hfunc)).bind fun t _ h₁ _ =>
      .ite (fun _ => ?_) fun _ => ?_)
    · exact runs_endWith advances_trap
    · exact (runs_leave (h₁.vars (hs b hb))).bind fun _ _ _ _ => runs_endWith (advances_ret nofun)

theorem Site.Ends.of_later {av' : Avail} (h : τ.Ends env av' υ) (hl : σ.Later τ av av') :
    σ.Ends env av υ := by
  obtain ⟨av'', hl', h⟩ := h
  exact ⟨av'', hl.trans hl', h⟩

theorem Site.Here.wp_stmts (h : σ.Here env av [] b) (hs : s.Usable σ.view av b) (stmts : List Stmt)
    (kind : BodyKind) :
    wp ((do finishBody kind (← emitStmts s stmts)).run env)
    (fun _ τ => σ.Ends env av τ) Fails σ := by
  refine Lower.wp_bind.mpr (wp_imp (emitsWell stmts h.open fun c hc => ?_) fun s' τ hτ => ?_)
  · rwa [← mem_unique h.block hc]
  · obtain ⟨av', hl, hopen, hs'⟩ := hτ
    exact wp_imp (wp_finishBody hopen hs' kind) fun _ _ hυ => hυ.of_later hl

theorem Lower.wp_module {Q : Ir.Module → Site → Prop} {E : Fault → Site → Prop} (k : Q σ.module σ) :
    wp (Lower.module.run env) Q E σ := k

theorem wp_emitBody (p : Pending) (h : σ.Here env av [] b)
    (hhead : (σ.module.funcs.get env.func).blocks.head? = some b)
    (hself : p.kind = .method ∨ p.kind = .deinitialiser → (σ.module.blocks.get b).params ≠ []) :
    wp ((emitBody p).run env) (fun _ τ => σ.Ends env av τ) Fails σ := by
  have hparams : σ.module.funcParams env.func = (σ.module.blocks.get b).params := by
    rw [Module.funcParams, hhead]
  have husable : ∀ v ∈ (σ.module.blocks.get b).params.map Value.param, σ.view.Usable av b v := by
    intro v hv
    obtain ⟨q, hq, rfl⟩ := mem_map.mp hv
    exact ⟨h.tidy.sound.shape.params.made b q hq, .inr (.inr (.inl ⟨q, hq, rfl⟩))⟩
  refine Lower.wp_bind.mpr (Lower.wp_read (Lower.wp_bind.mpr (Lower.wp_module ?_)))
  rw [hparams]
  refine Lower.wp_bind.mpr (h.run (runs_bindSelf p husable fun hk => ?_) fun r σ₁ hl₁ h₁ hr => ?_)
  · exact fun hnil => hself hk (map_eq_nil_iff.mp hnil)
  obtain ⟨frame, rest⟩ := r
  refine Lower.wp_bind.mpr
    (h₁.run (P := fun f τ => Frame.Usable τ.view av b frame ∧ Frame.Usable τ.view av b f)
    (fun hat => ?_) fun named σ₂ hl₂ h₂ hnamed => ?_)
  · exact wp_imp (runs_named hr.2 hat) fun f τ ⟨hτ, hf⟩ => ⟨hτ, hτ.frame hr.1, hf⟩
  · have hscope : Vars.Usable σ₂.view av b [frame ++ named] := by
      refine forall_mem_cons.mpr ⟨fun x hx => ?_, nofun⟩
      exact (mem_append.mp hx).elim (hnamed.1 x) (hnamed.2 x)
    exact wp_imp (h₂.wp_stmts hscope p.decl.body p.kind) fun _ _ hτ => hτ.of_later (hl₁.trans hl₂)

/-! ### A second body -/

/-- `x` only looks at what is there. -/
def Looks (env : Env) (x : Lower α) : Prop := ∀ σ, wp (x.run env) (fun _ τ => τ = σ) Fails σ

theorem Looks.pure (a : α) : Looks env (Pure.pure a) := fun _ => rfl

theorem Looks.bind {x : Lower α} {f : α → Lower β} (hx : Looks env x) (hf : ∀ a, Looks env (f a)) :
    Looks env (x >>= f) := by
  intro σ
  refine Lower.wp_bind.mpr (wp_imp (hx σ) fun a τ hτ => ?_)
  subst hτ
  exact hf a τ

theorem Looks.ite {c : Prop} [Decidable c] {x y : Lower α} (hx : Looks env x) (hy : Looks env y) :
    Looks env (if c then x else y) := by
  split
  · exact hx
  · exact hy

theorem Looks.mapM {f : β → Lower α} (hf : ∀ x, Looks env (f x)) (xs : List β) :
    Looks env (xs.mapM f) := by
  induction xs with
  | nil =>
    exact .pure _
  | cons x xs ih =>
    rw [mapM_cons]
    exact (hf x).bind fun _ => ih.bind fun _ => .pure _

theorem looks_types : Looks env Lower.types := fun _ => rfl

theorem looks_module : Looks env Lower.module := fun _ => rfl

theorem looks_typeOf : Looks env (Lower.typeOf v) := fun _ => rfl

theorem looks_accessorFor (temporary : Bool) : Looks env (accessorFor v temporary) :=
  (looks_typeOf v).bind fun _ => looks_types.bind fun _ => .ite (.pure _) (.ite (.pure _) (.pure _))

theorem looks_slotAt : Looks env (slotAt v) :=
  looks_types.bind fun _ => (looks_typeOf v).bind fun _ => .pure _

theorem looks_selfParam : Looks env (selfParam v) :=
  looks_types.bind fun _ => (looks_typeOf v).bind fun _ =>
    .ite (.pure _) ((looks_slotAt v).bind fun _ => .pure _)

theorem looks_fieldBindings (self : Accessor) (struct : TypeId) :
    Looks env (fieldBindings self struct) := by
  refine looks_types.bind fun _ => ?_
  split <;> exact .pure _

theorem wp_bindSelf_idle (hidle : σ.builder.Idle) (hl : σ.module.Linked) (p : Pending)
    (hself : p.kind = .method ∨ p.kind = .deinitialiser → params ≠ []) :
    wp ((bindSelf p params).run env) (fun _ τ => τ = σ) Fails σ := by
  have howned {v : Value} {vs : List Value} {borrowed : Bool} : Looks env (do
      let self ← selfParam v
      let own := { name := "self", access := self, borrowed := borrowed : Binding Accessor }
      return (own :: (← fieldBindings self p.self), vs) : Lower (Frame Accessor × List Value)) :=
    (looks_selfParam v).bind fun self => (looks_fieldBindings self p.self).bind fun _ => .pure _
  unfold bindSelf
  cases hkind : p.kind with
  | free => exact Looks.pure _ σ
  | initialiser =>
    -- there is no place for the instance
    refine Lower.wp_bind.mpr ?_
    refine Lower.wp_bind.mpr (wp_imp (looks_types σ) fun types τ hτ => ?_)
    subst hτ
    split
    · exact Lower.wp_bind.mpr ((Lower.wp_build _).mpr (hidle.refuses hl (.allocObject _) .nil))
    · exact Lower.wp_bind.mpr ((Lower.wp_build _).mpr (hidle.refuses hl (.alloc _) .nil))
  | method =>
    cases params with
    | nil => exact absurd rfl (hself (.inl hkind))
    | cons v vs => exact howned σ
  | deinitialiser =>
    cases params with
    | nil => exact absurd rfl (hself (.inr hkind))
    | cons v vs => exact howned σ

theorem wp_terminated_idle (hidle : σ.builder.Idle) {Q : Bool → Site → Prop}
    {E : Fault → Site → Prop}
    (k : Q true σ) : wp (Lower.terminated.run env) Q E σ := by
  refine wp_terminated (fun _ => k) fun b hb hnot => ?_
  rw [(hidle b hb).2] at hnot
  cases hnot

theorem wp_emitBody_idle (hidle : σ.builder.Idle) (hl : σ.module.Linked) (p : Pending)
    (hself : p.kind = .method ∨ p.kind = .deinitialiser → σ.module.funcParams env.func ≠ []) :
    wp ((emitBody p).run env) (fun _ τ => τ = σ) Fails σ := by
  refine Lower.wp_bind.mpr (Lower.wp_read (Lower.wp_bind.mpr (Lower.wp_module ?_)))
  refine Lower.wp_bind.mpr (wp_imp (wp_bindSelf_idle hidle hl p fun hk => ?_) fun r τ hτ => ?_)
  · exact fun hnil => hself hk (map_eq_nil_iff.mp hnil)
  subst hτ
  obtain ⟨frame, rest⟩ := r
  have hnamed : Looks env (rest.mapM fun v => do
      return { name := (← Lower.module).valueName v, access := ← accessorFor v false :
                 Binding Accessor }) :=
    .mapM (fun v => looks_module.bind fun _ =>
      (looks_accessorFor v false).bind fun _ => .pure _) rest
  refine Lower.wp_bind.mpr (wp_imp (hnamed τ) fun named υ hυ => ?_)
  subst hυ
  have hstmts (s : Vars) : wp ((emitStmts s p.decl.body).run env) (fun _ τ => τ = υ) Fails υ := by
    cases p.decl.body with
    | nil =>
      rfl
    | cons st sts =>
      exact Lower.wp_bind.mpr (wp_terminated_idle hidle rfl)
  refine Lower.wp_bind.mpr (wp_imp (hstmts _) fun s τ hτ => ?_)
  subst hτ
  exact Lower.wp_bind.mpr (wp_terminated_idle hidle rfl)

end Lowering

end Midlevel
