import Midlevel.Proofs.Ir.Advances
import Midlevel.Proofs.Lowering.Frames

/-!
The lowering of expressions goes on in one block: it reads only what is known there, what it returns
can be read there, and it fails only with an error. One lemma for each function, in the order in
which they call each other; `Runs` is the form of all of them.
-/

namespace Midlevel.Lowering

open Ir Midlevel.Tree Ir.Build List Lower Option

variable {α β : Type} {env : Env} {av : Avail} {b : BlockId} {σ τ υ : Site}
variable {a : Accessor} {v : Value} {s : Vars} {w : View}
variable {c : BlockId} {av' : Avail} {w' : View}
variable {p : Place} {f : TypeId → Lower β} {l : Line} {vs : List Value} {t : BlockId}

/-! ### Sites -/

abbrev Site.view (σ : Site) : View := σ.builder.module.view

/-- The cursor stands at the end of a block, and addresses of fields are known in their blocks. -/
structure Site.At (σ : Site) (av : Avail) (b : BlockId) : Prop where
  builder : σ.builder.At av b
  fields : ∀ e ∈ σ.fields, e.2.1.index < σ.view.blocks ∧ σ.view.Usable av e.2.1 e.2.2

structure Site.Onward (σ τ : Site) (av : Avail) (b : BlockId) : Prop where
  start : σ.At av b
  here : τ.At av b
  builder : σ.builder.Onward τ.builder av b

theorem Site.At.onward (h : σ.At av b) : σ.Onward σ av b := ⟨h, h, h.builder.onward⟩

theorem Site.Onward.trans (h : σ.Onward τ av b) (h' : τ.Onward υ av b) : σ.Onward υ av b :=
  ⟨h.start, h'.here, h.builder.trans h'.builder⟩

theorem Site.Onward.usable (h : σ.Onward τ av b) (hv : σ.view.Usable av b v) :
    τ.view.Usable av b v := h.builder.usable h.start.builder h.start.builder.made hv

/-- Whether what an accessor refers to can be used at the end of a block. -/
def Place.Usable (w : View) (av : Avail) (b : BlockId) : Place → Prop
  | slot address _ => w.Usable av b address
  | field self _ _ _ => w.Usable av b self

def Accessor.Usable (w : View) (av : Avail) (b : BlockId) : Accessor → Prop
  | value v _ | box v _ | object v _ => w.Usable av b v
  | place p => p.Usable w av b

def Vars.Usable (w : View) (av : Avail) (b : BlockId) (s : Vars) : Prop :=
  ∀ f ∈ s, ∀ x ∈ f, x.access.Usable w av b

section

variable (h : ∀ v, w.Usable av b v → w'.Usable av' c v)
include h

theorem Place.Usable.mono (hp : p.Usable w av b) : p.Usable w' av' c := by
  cases p with
  | slot | field => exact h _ hp

theorem Accessor.Usable.mono (ha : a.Usable w av b) : a.Usable w' av' c := by
  cases a with
  | value | box | object => exact h _ ha
  | place p => exact Place.Usable.mono h ha

theorem Vars.Usable.mono (hs : s.Usable w av b) : s.Usable w' av' c :=
  fun f hf x hx => (hs f hf x hx).mono h

end

namespace Site.Onward

variable (h : σ.Onward τ av b)
include h

theorem place (hp : p.Usable σ.view av b) : p.Usable τ.view av b := hp.mono fun _ => h.usable

theorem accessor (ha : a.Usable σ.view av b) : a.Usable τ.view av b := ha.mono fun _ => h.usable

theorem vars (hs : s.Usable σ.view av b) : s.Usable τ.view av b := hs.mono fun _ => h.usable

end Site.Onward

/-! ### Programs that go on -/

/-- `x` goes on at the end of the block, and `P` holds of what it returns. -/
def Runs (env : Env) (av : Avail) (b : BlockId) (x : Lower α) (P : α → Site → Prop) (σ : Site) :
    Prop :=
  σ.At av b → wp (x.run env) (fun a τ => σ.Onward τ av b ∧ P a τ) Fails σ

abbrev Gets (av : Avail) (b : BlockId) (v : Value) (τ : Site) : Prop := τ.view.Usable av b v

abbrev GetsAccess (av : Avail) (b : BlockId) (a : Accessor) (τ : Site) : Prop :=
  a.Usable τ.view av b

abbrev GetsPlace (av : Avail) (b : BlockId) (p : Place) (τ : Site) : Prop :=
  p.Usable τ.view av b

abbrev GetsAll (av : Avail) (b : BlockId) (vs : List Value) (τ : Site) : Prop :=
  ∀ v ∈ vs, τ.view.Usable av b v

section Rules

variable {x : Lower α} {P Q : α → Site → Prop}
variable {R : β → Site → Prop}

namespace Runs

theorem bind {f : α → Lower β} (hx : Runs env av b x P σ)
    (hf : ∀ a τ, σ.Onward τ av b → P a τ → Runs env av b (f a) R τ) :
    Runs env av b (x >>= f) R σ := by
  intro hs
  refine wp_seq (hx hs) fun a τ ⟨hτ, hP⟩ => ?_
  exact wp_imp (hf a τ hτ hP hτ.here) fun _ _ ⟨hυ, hR⟩ => ⟨hτ.trans hυ, hR⟩

theorem mono (hx : Runs env av b x P σ) (hPQ : ∀ a τ, P a τ → Q a τ) : Runs env av b x Q σ :=
  fun hs => wp_imp (hx hs) fun a τ ⟨hτ, hP⟩ => ⟨hτ, hPQ a τ hP⟩

theorem pure {a : α} (h : P a σ) : Runs env av b (Pure.pure a) P σ := fun hs => ⟨hs.onward, h⟩

theorem fail (e : Error) : Runs env av b (Lower.fail e) P σ := fun _ => ⟨e, rfl⟩

theorem missing : Runs env av b missing P σ := Runs.fail _

theorem ite {c : Prop} [Decidable c] {y : Lower α} (hx : c → Runs env av b x P σ)
    (hy : ¬ c → Runs env av b y P σ) : Runs env av b (if c then x else y) P σ := by
  split
  · next h => exact hx h
  · next h => exact hy h

theorem guard {c : Prop} [Decidable c] {e : Error} {k : PUnit → Lower α}
    (hk : Runs env av b (k ⟨⟩) P σ) :
    Runs env av b (if c then Lower.fail e >>= k else k ⟨⟩) P σ :=
  .ite (fun _ _ => ⟨e, rfl⟩) fun _ => hk

theorem types {f : TypeTable → Lower β} (h : Runs env av b (f σ.module.types) R σ) :
    Runs env av b (types >>= f) R σ := h

theorem module {f : Ir.Module → Lower β} (h : Runs env av b (f σ.module) R σ) :
    Runs env av b (module >>= f) R σ := h

theorem typeOf (h : Runs env av b (f (σ.module.valueType v)) R σ) :
    Runs env av b (typeOf v >>= f) R σ := h

theorem read {f : Env → Lower β} (h : Runs env av b (f env) R σ) :
    Runs env av b ((MonadReader.read : Lower Env) >>= f) R σ := h

theorem get {f : Site → Lower β} (h : Runs env av b (f σ) R σ) :
    Runs env av b ((MonadState.get : Lower Site) >>= f) R σ := h

theorem currentBlock {f : Option BlockId → Lower β} (h : Runs env av b (f (some b)) R σ) :
    Runs env av b (Lower.build Build.currentBlock >>= f) R σ := by
  intro hs
  have hrun := h hs
  rw [← hs.builder.block] at hrun
  exact hrun

theorem func {f : FuncId} {k : Func → Lower β} (h : Runs env av b (k (σ.module.funcs.get f)) R σ) :
    Runs env av b (Lower.build (Build.func f) >>= k) R σ := h

theorem build {x : Build α} {P : Post α} (hx : Advances av b x P σ.builder) :
    Runs env av b (Lower.build x) (fun a τ => P a τ.builder) σ := by
  intro hs
  refine (wp_build x).mpr (wp_imp (hx hs.builder) fun a t ⟨ht, hP⟩ =>
    ⟨⟨hs, ⟨ht.here, fun e he => ?_⟩, ht⟩, hP⟩)
  obtain ⟨hlt, hused⟩ := hs.fields e he
  exact ⟨ht.blocks.symm ▸ hlt, ht.usable hs.builder hlt hused⟩

theorem construct {x : Build InstId} (hx : Constructor l x)
    (hreads : ∀ v, some v ∈ l.reads → σ.view.Usable av b v) :
    Runs env av b (Lower.build x) (fun i τ => τ.view.Usable av b (.inst i)) σ :=
  .build (hx.advances hreads)

theorem effect {x : Build InstId} (hx : Constructor l x)
    (hreads : ∀ v, some v ∈ l.reads → σ.view.Usable av b v) :
    Runs env av b (Lower.build x) Any σ := (Runs.construct hx hreads).mono fun _ _ _ => trivial

theorem discarding {R : Site → Prop} (hx : Runs env av b x (fun _ τ => R τ) σ) :
    Runs env av b (Functor.discard x) (fun _ τ => R τ) σ := by
  have hmap : (Functor.discard x : Lower PUnit) = x >>= fun _ => Pure.pure ⟨⟩ := by
    show (fun _ => PUnit.unit) <$> x = _
    rw [map_eq_pure_bind]
  exact hx.bind fun _ _ _ h => .pure h

theorem discard (hx : Runs env av b x P σ) : Runs env av b (Functor.discard x) Any σ :=
  (hx.mono fun _ _ _ => trivial).discarding

theorem naming (place : Text) (hx : Runs env av b x P σ) : Runs env av b (naming place x) P σ := by
  intro hs
  show wp (tryCatch (x.run env) _) _ _ _
  rw [wp_tryCatch]
  refine wp_mono (hx hs) (fun _ _ h => h) ?_
  rintro _ _ ⟨e, rfl⟩
  exact ⟨_, rfl⟩

theorem forM {xs : List β} {f : β → Lower PUnit} {I : Site → Prop}
    (hI : ∀ τ υ, τ.Onward υ av b → I τ → I υ)
    (hf : ∀ x ∈ xs, ∀ τ, I τ → Runs env av b (f x) Any τ) (h : I σ) :
    Runs env av b (xs.forM f) Any σ := by
  induction xs generalizing σ with
  | nil => exact .pure trivial
  | cons x xs ih =>
    refine (hf x mem_cons_self σ h).bind fun _ τ hτ _ => ?_
    exact ih (forall_mem_cons.mp hf).2 (hI σ τ hτ h)

end Runs

end Rules

/-! ### Types -/

mutual

theorem names_resolveType : (t : TypeRef) → Names (resolveType t)
  | ⟨code, name, elems⟩ => by
    unfold resolveType
    have hunknown : Names (because .unknownType (TypeRef.text ⟨code, name, elems⟩) :
      Build TypeId) := .fail _
    split
    · exact .pure _
    · split
      · exact .pure _
      · exact hunknown
    · refine Moves.types.bind fun types => ?_
      split
      · exact hunknown
      · exact Moves.types.bind fun _ =>
          .ite (names_onTypes fun t => t.extends_reference _) (.pure _)
    · exact (names_resolveTypes elems).bind fun ts => names_onTypes fun t => t.extends_tuple ts
    · exact hunknown

theorem names_resolveTypes : (ts : List TypeRef) → Names (resolveTypes ts)
  | [] => by
    unfold resolveTypes
    exact .pure _
  | t :: ts => by
    unfold resolveTypes
    exact (names_resolveType t).bind fun _ => (names_resolveTypes ts).bind fun _ => .pure _

end

theorem names_nominalType (t : TypeRef) : Names (nominalType t) := by
  refine .ite (.fail _) (Moves.types.bind fun types => ?_)
  split
  · exact .pure _
  · exact .fail _

theorem names_within {x : Build α} (place : Text) (hx : Names x) : Names (within place x) := by
  intro s
  show wp (tryCatch x _) _ _ _
  rw [wp_tryCatch]
  refine wp_mono (hx s) (fun _ _ h => h) ?_
  rintro _ _ ⟨e, rfl⟩
  exact ⟨_, rfl⟩

theorem names_resolveParams (params : List Tree.Param) : Names (resolveParams params) :=
  .mapM fun p _ => names_within _ (names_resolveType p.type)

theorem runs_loweredParams (t : TypeId) : Runs env av b (loweredParams t) Any σ :=
  .build (names_onTypes fun types => types.extends_loweredParams t).advances

/-! ### Accessors -/

theorem runs_accessorFor (hv : σ.view.Usable av b v) (temporary : Bool) :
    Runs env av b (accessorFor v temporary) (GetsAccess av b) σ := by
  exact .typeOf (.types (.ite (fun _ => .pure hv) fun _ =>
    .ite (fun _ => .pure hv) fun _ => .pure hv))

theorem runs_slotAt (hv : σ.view.Usable av b v) : Runs env av b (slotAt v) (GetsPlace av b) σ :=
  .types (.typeOf (.pure hv))

theorem usable_nil : ∀ u, some u ∈ ([] : Args) → w.Usable av b u := by simp

theorem usable_some (hv : w.Usable av b v) : ∀ u, some v = some u → w.Usable av b u :=
  fun _ hu => some.inj hu ▸ hv

theorem usable_one (hv : w.Usable av b v) : ∀ u, some u ∈ [some v] → w.Usable av b u :=
  fun u hu => usable_some hv u (mem_singleton.mp hu).symm

theorem usable_two {v' : Value} (hv : w.Usable av b v) (hv' : w.Usable av b v') :
    ∀ u, some u ∈ [some v, some v'] → w.Usable av b u := by
  intro u hu
  rcases mem_cons.mp hu with hu | hu
  · rwa [some.inj hu]
  · exact usable_one hv' u hu

theorem runs_ofObject (c : Change) (hv : σ.view.Usable av b v) :
    Runs env av b (Lower.build (c.ofObject v)) Any σ := by
  cases c with
  | retain => exact .effect (.retain _) (usable_one hv)
  | release | releaseUnowned => exact .effect (.release _ _) (usable_one hv)

theorem runs_ofBox (c : Change) (hv : σ.view.Usable av b v) :
    Runs env av b (Lower.build (c.ofBox v)) Any σ := by
  cases c with
  | retain => exact .effect (.existentialRetain _) (usable_one hv)
  | release | releaseUnowned => exact .effect (.existentialRelease _ _) (usable_one hv)

/-- What a box was made from can be used wherever the box can be used, however far away it
was made. -/
theorem usable_of_payload {s : Builder} (hs : s.At av b) {steps : Nat} {u : Value}
    (hv : s.view.Usable av b v) (hu : payload s.module steps v = some (some u)) :
    s.view.Usable av b u := by
  induction steps generalizing v with
  | zero => cases hu
  | succ steps ih =>
    cases v with
    | func | global | param => cases hu
    | inst i =>
      have hread {x : Value} (hx : s.module.operandAt i 0 = some x) : s.view.Usable av b x := by
        have hmem := Module.mem_reads_of_operandAt hx
        refine ⟨hs.tidy.sound.has_of_reads hmem, ?_⟩
        rcases hv.known with hconst | hend
        · exact hconst.elim
        · exact hs.tidy.ordered.atEnd_reads hend hmem
      unfold payload at hu
      split at hu
      · next x _ hx => exact ih (hread hx) hu
      · next x _ hx =>
        have hu := some.inj hu
        split at hu
        · rw [← some.inj hu]
          exact hread hx
        · cases hu
      · cases hu

theorem runs_countBoxed (c : Change) (hv : σ.view.Usable av b v) :
    Runs env av b (countBoxed c v) Any σ := by
  refine .module fun hs => ?_
  split
  · next u hu => exact (runs_ofObject c (usable_of_payload hs.builder hv hu)).discard hs
  · exact Runs.pure trivial hs
  · exact (runs_ofBox c hv).discard hs

theorem runs_countRegister (c : Change) (ha : a.Usable σ.view av b) :
    Runs env av b (countRegister c a) Any σ := by
  cases a with
  | object v t => exact (runs_ofObject c ha).discard
  | box v t => exact runs_countBoxed c ha
  | value | place => exact .pure trivial

section

variable (hv : σ.view.Usable av b v)
include hv

theorem runs_load : Runs env av b (Lower.build (Build.load (some v)))
    (fun i τ => τ.view.Usable av b (.inst i)) σ :=
  .construct (.load _) (usable_one hv)

theorem runs_store {address : Value} (ha : σ.view.Usable av b address) :
    Runs env av b (discard (Lower.build (Build.store (some v) (some address)))) Any σ :=
  (Runs.construct (.store _ _) (usable_two hv ha)).discard

theorem runs_baseOf : Runs env av b (baseOf v) (Gets av b) σ := by
  refine .types (.typeOf ?_)
  split
  · exact .ite (fun _ => (runs_load hv).bind fun _ _ _ hi => .pure hi) fun _ => .pure hv
  · exact .pure hv

end

theorem runs_fieldAddress {base : Value} (hbase : σ.view.Usable av b base) (name : Text) :
    Runs env av b (fieldAddress base name) (Gets av b) σ :=
  (Runs.construct (.structElementPtr _ _) (usable_one hbase)).bind fun _ _ _ hi => .pure hi

namespace Place

theorem runs_addressed {index : Nat} {address : Value} (ha : σ.view.Usable av b address) :
    Runs env av b (modify fun s =>
      { s with fields := (index, b, address) :: s.fields } : Lower PUnit)
      (fun _ τ => τ.view.Usable av b address) σ := by
  intro hs
  refine ⟨⟨hs, ⟨hs.builder, fun e he => ?_⟩, hs.builder.onward⟩, ha⟩
  rcases mem_cons.mp he with rfl | he
  · exact ⟨hs.builder.made, ha⟩
  · exact hs.fields e he

theorem runs_locate (hp : p.Usable σ.view av b) :
    Runs env av b p.locate (fun r τ => τ.view.Usable av b r.1) σ := by
  cases p with
  | slot address elem => exact .pure hp
  | field self index name type =>
    have hend (address : Value) {τ : Site} (ha : τ.view.Usable av b address) : Runs env av b (do
        return (address, ((← types).pointee? (← typeOf address)).getD .none) :
          Lower (Value × TypeId))
        (fun r τ => τ.view.Usable av b r.1) τ := .types (.typeOf (.pure ha))
    refine .currentBlock (.get fun hs => ?_)
    dsimp only
    split
    · next i c address hfind =>
      -- the address that is known was computed in this block
      have hc : c = b := by
        have hfound := List.find?_some hfind
        simp only [Bool.and_eq_true, decide_eq_true_eq, some.injEq] at hfound
        exact hfound.2
      have hused := (hs.fields _ (mem_of_find?_eq_some hfind)).2
      subst hc
      exact (Runs.pure hused).bind (fun _ _ _ h => hend _ h) hs
    · refine Runs.bind (runs_baseOf hp) (fun base τ _ hbase => ?_) hs
      refine (runs_fieldAddress hbase name).bind fun address υ _ ha => ?_
      exact (runs_addressed ha).bind fun _ _ _ ha => (Runs.pure ha).bind fun _ _ _ h => hend _ h

section

variable (hp : p.Usable σ.view av b)
include hp

theorem runs_address : Runs env av b p.address (Gets av b) σ :=
  (runs_locate hp).bind fun _ _ _ h => .pure h

theorem runs_read : Runs env av b p.read (Gets av b) σ :=
  (runs_address hp).bind fun _ _ _ h => (runs_load h).bind fun _ _ _ h => .pure h

theorem runs_write (hv : σ.view.Usable av b v) : Runs env av b (p.write v) Any σ :=
  (runs_address hp).bind fun _ _ hτ h => runs_store (hτ.usable hv) h

theorem runs_count (c : Change) : Runs env av b (p.count c) Any σ := by
  refine (runs_locate hp).bind fun r τ _ hr => .types (.ite (fun _ => ?_) fun _ => .pure trivial)
  refine (runs_load hr).bind fun i υ _ hi => (runs_accessorFor hi false).bind fun a _ _ ha => ?_
  exact runs_countRegister c ha

end

end Place

namespace Accessor

theorem runs_type {R : β → Site → Prop} (a : Accessor)
    (h : ∀ t, Runs env av b (f t) R σ) : Runs env av b (a.type >>= f) R σ := by
  cases a with
  | value | box | object => exact .typeOf (h _)
  | place p => exact h p.type

section

variable (ha : a.Usable σ.view av b) (expected : TypeId)
include ha

theorem runs_read : Runs env av b a.read (Gets av b) σ := by
  cases a with
  | value | box | object => exact .pure ha
  | place p => exact Place.runs_read ha

theorem runs_count (c : Change) : Runs env av b (a.count c) Any σ := by
  cases a with
  | value | box | object => exact runs_countRegister c ha
  | place p => exact Place.runs_count ha c

theorem runs_readAs : Runs env av b (a.readAs expected) (Gets av b) σ := by
  refine (runs_read ha).bind fun v τ _ hv => .typeOf (.types (.ite (fun _ => .pure hv) fun _ => ?_))
  exact (Runs.construct (.existentialBox _ _) (usable_one hv)).bind fun _ _ _ hi => .pure hi

theorem runs_retained : Runs env av b (a.retained expected) (Gets av b) σ :=
  (runs_count ha _).bind fun _ _ hτ _ => runs_readAs (hτ.accessor ha) expected

theorem runs_reference :
    Runs env av b a.reference? (fun r τ => ∀ v, r = some v → τ.view.Usable av b v) σ := by
  cases a with
  | value | box => exact .pure nofun
  | object v t => exact .pure (usable_some ha)
  | place p => exact (Place.runs_address ha).bind fun _ _ _ hv => .pure (usable_some hv)

theorem runs_spilled : Runs env av b a.spilled (Gets av b) σ := by
  refine (runs_reference ha).bind fun r τ hτ hr => ?_
  cases r with
  | some v => exact .pure (hr v rfl)
  | none =>
    refine (runs_read (hτ.accessor ha)).bind fun v υ _ hv => .typeOf ?_
    refine (Runs.construct (.alloc _) usable_nil).bind fun slot _ hslot hs => ?_
    exact (runs_store (hslot.usable hv) hs).bind fun _ _ h _ => .pure (h.usable hs)

theorem runs_base : Runs env av b a.base? (fun r τ => ∀ v, r = some v →
    τ.view.Usable av b v) σ := by
  refine (runs_reference ha).bind fun r τ _ hr => ?_
  cases r with
  | some v => exact (runs_baseOf (hr v rfl)).bind fun _ _ _ hbase => .pure (usable_some hbase)
  | none => exact .pure nofun

end

end Accessor

theorem runs_boxedProperty (ha : a.Usable σ.view av b) (name : Text) :
    Runs env av b (boxedProperty a name) (GetsPlace av b) σ :=
  (Accessor.runs_read ha).bind fun _ _ _ hv =>
    (Runs.construct (.existentialPropertyPtr _ _) (usable_one hv)).bind fun _ _ _ hi =>
      runs_slotAt hi

/-! ### Expressions -/

theorem usable_registers (hvs : ∀ v ∈ vs, w.Usable av b v) : ∀ v, some v ∈ registers vs →
    w.Usable av b v := by
  intro v hv
  obtain ⟨u, hu, heq⟩ := mem_map.mp hv
  rw [← some.inj heq]
  exact hvs u hu

theorem usable_cons {vs : Args} (hv : w.Usable av b v)
    (hvs : ∀ u, some u ∈ vs → w.Usable av b u) : ∀ u, some u ∈ some v :: vs → w.Usable av b u := by
  intro u hu
  rcases mem_cons.mp hu with hu | hu
  · rwa [some.inj hu]
  · exact hvs u hu

theorem usable_func {f : FuncId} (hf : w.Has (.func f)) : w.Usable av b (.func f) :=
  ⟨hf, .inl trivial⟩

theorem Site.Onward.all (h : σ.Onward τ av b) (hvs : ∀ v ∈ vs, σ.view.Usable av b v) :
    ∀ v ∈ vs, τ.view.Usable av b v := fun v hv => h.usable (hvs v hv)

theorem runs_result {x : Build InstId} (hx : Constructor l x)
    (hreads : ∀ v, some v ∈ l.reads → σ.view.Usable av b v) (temporary : Bool) :
    Runs env av b (result x temporary) (GetsAccess av b) σ :=
  (Runs.construct hx hreads).bind fun _ _ _ hi => runs_accessorFor hi temporary

theorem runs_resolveType (t : TypeRef) : Runs env av b (Lower.build (resolveType t)) Any σ :=
  .build (names_resolveType t).advances

theorem runs_emitInt (type : TypeRef) (value : Int64) :
    Runs env av b (emitInt type value) (GetsAccess av b) σ := by
  refine (runs_resolveType type).bind fun t τ _ _ => .read (.ite (fun _ => ?_) fun _ => ?_)
  · exact runs_result (.intLiteral _ _) usable_nil _
  · refine (Runs.construct (.intLiteral _ _) usable_nil).bind fun i _ _ hi => ?_
    exact runs_result (.struct _ _) (usable_one hi) _

theorem runs_emitBool (type : TypeRef) (value : Bool) :
    Runs env av b (emitBool type value) (GetsAccess av b) σ := by
  refine (runs_resolveType type).bind fun t τ _ _ => .read ?_
  refine (Runs.construct (.boolLiteral _) usable_nil).bind fun i _ _ hi =>
    .ite (fun _ => ?_) fun _ => ?_
  · exact runs_accessorFor hi _
  · exact runs_result (.struct _ _) (usable_one hi) _

theorem Vars.Usable.find (hs : s.Usable w av b) {name : Text} (ha : s.find? name = some a) :
    a.Usable w av b := by
  obtain ⟨f, hf, hfind⟩ := exists_of_findSome?_eq_some ha
  obtain ⟨x, hx, rfl⟩ := map_eq_some_iff.mp hfind
  exact hs f hf x (mem_reverse.mp (mem_of_find?_eq_some hx))

theorem runs_emitVarRef (hs : s.Usable σ.view av b) (name : Text) :
    Runs env av b (emitVarRef s name) (GetsAccess av b) σ := by
  unfold emitVarRef
  split
  · next a ha => exact .pure (hs.find ha)
  · exact .fail _

theorem runs_receiver (ha : a.Usable σ.view av b) : Runs env av b (receiver a) (Gets av b) σ := by
  exact .types (a.runs_type fun _ => .ite (fun _ => Accessor.runs_retained ha _) fun _ =>
    Accessor.runs_spilled ha)

theorem runs_emitField (ha : a.Usable σ.view av b) (name : Text) :
    Runs env av b (emitField a name) (GetsAccess av b) σ := by
  refine .types (a.runs_type fun t => .ite (fun _ => ?_) fun _ => ?_)
  · exact (runs_boxedProperty ha name).bind fun _ _ _ hp => .pure hp
  refine (Accessor.runs_base ha).bind fun base τ hτ hbase => ?_
  cases base with
  | some base =>
    refine (runs_fieldAddress (hbase base rfl) name).bind fun address _ _ h => ?_
    exact (runs_slotAt h).bind fun _ _ _ hp => .pure hp
  | none =>
    refine (Accessor.runs_read (hτ.accessor ha)).bind fun v _ _ hv =>
      .typeOf (.types (.ite (fun _ => ?_) fun _ => ?_))
    · exact .types ((Runs.fail _ (P := fun _ _ => False)).bind fun _ _ _ h => h.elim)
    · exact runs_result (.structExtract _ _) (usable_one hv) _

theorem runs_emitInstance (struct : TypeId) (fields : List Member) {values : List Value}
    (hvs : ∀ v ∈ values, σ.view.Usable av b v) :
    Runs env av b (emitInstance struct fields values) (GetsAccess av b) σ := by
  refine .types (.ite (fun _ => runs_result (.struct _ _) (usable_registers hvs) _) fun _ => ?_)
  refine (Runs.construct (.allocObject _) usable_nil).bind fun object τ hτ hobject => ?_
  -- the object and the values stay usable while the fields are filled
  let I (υ : Site) : Prop := υ.view.Usable av b (.inst object) ∧ ∀ v ∈ values, υ.view.Usable av b v
  have hstep : ∀ fv ∈ fields.zip values, ∀ υ, I υ → Runs env av b (do
      let p ← fieldAddress (.inst object) fv.1.name
      discard (Lower.build (store (some fv.2) (some p)))) Any υ := by
    rintro ⟨f, v⟩ hfv υ ⟨ho, hv⟩
    exact (runs_fieldAddress ho f.name).bind fun _ _ h hp =>
      runs_store (h.usable (hv v (of_mem_zip hfv).2)) hp
  have hloop := Runs.forM (fun _ _ h hI => ⟨h.usable hI.1, h.all hI.2⟩) hstep ⟨hobject, hτ.all hvs⟩
  exact hloop.bind fun _ _ h _ => runs_accessorFor (h.usable hobject) true

theorem runs_checkArity (n k : Nat) : Runs env av b (checkArity n k) Any σ :=
  .ite (fun _ => .fail _) fun _ => .pure trivial

mutual

theorem runs_emitExpr {s : Vars} : (e : Expr) → {σ : Site} → s.Usable σ.view av b →
    Runs env av b (emitExpr s e) (GetsAccess av b) σ
  | ⟨code, type, int, bool, text, name, callee, object, args, index⟩, σ, hs => by
    unfold emitExpr
    split
    · exact runs_emitInt type int
    · exact runs_emitBool type bool
    · exact runs_result (.stringLiteral _ _) usable_nil _
    · exact runs_emitVarRef hs name
    · split
      · split
        · exact .fail _
        · exact (runs_emitValues args hs).bind fun _ _ _ hvs =>
            runs_result (.primitive _ _) (usable_registers hvs) _
      · refine (Runs.build (advances_resolve callee)).bind fun f τ hτ hf => .func ?_
        refine (runs_loweredParams _).bind fun params υ hυ _ => ?_
        have hargs := runs_checkedArgs args params (args.length) params.length
          ((hτ.trans hυ).vars hs)
        refine (hargs.naming _).bind fun vs _ h hvs => ?_
        have hf := (hυ.trans h).builder.prolongs.has (.func f) hf
        exact runs_result (.call _ _) (usable_cons (usable_func hf) (usable_registers hvs)) _
    · split
      · exact .missing
      · next o =>
        refine (runs_emitExpr o hs).bind fun a τ hτ ha =>
          .types (a.runs_type fun t => .ite (fun _ => ?_) fun _ => ?_)
        · refine (Accessor.runs_read ha).bind fun box _ h₁ hbox => ?_
          refine (Runs.construct (.existentialWitness _ _) (usable_one hbox)).bind
            fun w _ h₂ hw => ?_
          refine (Runs.build (advances_setName w name hw.has)).bind fun _ _ h₃ _ => ?_
          have hbox' := (h₂.trans h₃).usable hbox
          refine (Runs.construct (.existentialProject _) (usable_one hbox')).bind
            fun self _ h₄ hself => .typeOf ?_
          refine (runs_loweredParams _).bind fun params υ h₅ _ => ?_
          have hυ := ((((hτ.trans h₁).trans h₂).trans h₃).trans h₄).trans h₅
          have hargs := runs_checkedArgs args (params.drop 1) args.length
            (params.length - 1) (hυ.vars hs)
          refine (hargs.naming _).bind fun vs _ h₆ hvs => ?_
          refine runs_result (.apply _ _) (usable_cons ?_ (usable_cons ?_ (usable_registers hvs))) _
          · exact (((h₃.trans h₄).trans h₅).trans h₆).usable hw
          · exact (h₅.trans h₆).usable hself
        · refine (Runs.build (advances_resolve callee)).bind fun f _ h₁ hf => .func ?_
          refine (Runs.build (advances_signature hf)).bind fun sig _ h₂ _ => .guard ?_
          refine (runs_receiver ((h₁.trans h₂).accessor ha)).bind fun self υ h₃ hself => ?_
          have hυ := ((hτ.trans h₁).trans h₂).trans h₃
          have hargs := runs_checkedArgs args sig.params args.length sig.params.length (hυ.vars hs)
          refine (hargs.naming _).bind fun vs _ h₄ hvs => ?_
          have hf := ((h₂.trans h₃).trans h₄).builder.prolongs.has (.func f) hf
          have hvs := usable_cons (h₄.usable hself) (usable_registers hvs)
          exact runs_result (.call _ _) (usable_cons (usable_func hf) hvs) _
    · split
      · exact .missing
      · next o => exact (runs_emitExpr o hs).bind fun _ _ _ ha => runs_emitField ha name
    · exact (runs_emitValues args hs).bind fun _ _ _ hvs =>
        runs_result (.tuple _) (usable_registers hvs) _
    · split
      · exact .missing
      · next o =>
        exact (runs_emitExpr o hs).bind fun _ _ _ ha => (Accessor.runs_read ha).bind fun _ _ _ hv =>
          runs_result (.tupleExtract _ _) (usable_one hv) _
    · refine (Runs.build (names_nominalType type).advances).bind fun struct _ hτ _ =>
        .types (.guard ?_)
      exact (runs_emitArgs args _ (hτ.vars hs)).bind fun _ _ _ hvs => runs_emitInstance _ _ hvs
    · exact .fail _

theorem runs_emitValues {s : Vars} : (es : List Expr) → {σ : Site} → s.Usable σ.view av b →
    Runs env av b (emitValues s es) (GetsAll av b) σ
  | [], σ, hs => by
    unfold emitValues
    exact .pure nofun
  | e :: es, σ, hs => by
    unfold emitValues
    refine (runs_emitExpr e hs).bind fun a _ h₁ ha =>
      (Accessor.runs_read ha).bind fun v _ h₂ hv => ?_
    refine (runs_emitValues es ((h₁.trans h₂).vars hs)).bind fun vs _ h₃ hvs => .pure ?_
    exact forall_mem_cons.mpr ⟨h₃.usable hv, hvs⟩

theorem runs_emitArgs {s : Vars} : (es : List Expr) → (ts : List TypeId) → {σ : Site} →
    s.Usable σ.view av b →
    Runs env av b (emitArgs s es ts) (GetsAll av b) σ
  | e :: es, t :: ts, σ, hs => by
    unfold emitArgs
    refine (runs_emitExpr e hs).bind fun a _ h₁ ha =>
      (Accessor.runs_retained ha t).bind fun v _ h₂ hv => ?_
    refine (runs_emitArgs es ts ((h₁.trans h₂).vars hs)).bind fun vs _ h₃ hvs => .pure ?_
    exact forall_mem_cons.mpr ⟨h₃.usable hv, hvs⟩
  | [], _, σ, hs => by
    unfold emitArgs
    exact .pure nofun
  | _ :: _, [], σ, hs => by
    unfold emitArgs
    exact .pure nofun

theorem runs_checkedArgs {s : Vars} (es : List Expr) (ts : List TypeId) (n k : Nat) {σ : Site}
    (hs : s.Usable σ.view av b) : Runs env av b (do
      checkArity n k
      emitArgs s es ts) (GetsAll av b) σ := (runs_checkArity n k).bind fun _ _ h _ =>
      runs_emitArgs es ts (h.vars hs)

end

theorem runs_emitCondition (hs : s.Usable σ.view av b) (e : Expr) :
    Runs env av b (emitCondition s e) (Gets av b) σ := by
  refine (runs_emitExpr e hs).bind fun a _ _ ha => (Accessor.runs_read ha).bind fun v _ _ hv => ?_
  refine .typeOf (.read (.ite (fun _ => .pure hv) fun _ => ?_))
  refine (Runs.construct (.structExtract _ _) (usable_one hv)).bind fun c _ _ hc => ?_
  exact (Runs.build (advances_setName c _ hc.has)).bind fun _ _ h _ => .pure (h.usable hc)

theorem runs_emitBound (hs : s.Usable σ.view av b) (e : Expr) :
    Runs env av b (emitBound s e) (Gets av b) σ := by
  refine (runs_emitExpr e hs).bind fun a _ _ ha => (Accessor.runs_read ha).bind fun v _ _ hv => ?_
  refine .typeOf (.read (.ite (fun _ => .pure hv) fun _ => ?_))
  exact (Runs.construct (.structExtract _ _) (usable_one hv)).bind fun _ _ _ hc => .pure hc

theorem runs_emitPlace : (e : Expr) → {σ : Site} → s.Usable σ.view av b →
    Runs env av b (emitPlace s e) (GetsPlace av b) σ
  | ⟨code, type, int, bool, text, name, callee, object, args, index⟩, σ, hs => by
    unfold emitPlace
    split
    · split
      · exact .fail _
      · next p hp => exact .pure (hs.find hp)
      · exact .fail _
    · split
      · exact .missing
      · next o =>
        refine (runs_emitExpr o hs).bind fun a τ _ ha =>
          .types (a.runs_type fun t => .ite (fun _ => ?_) fun _ => ?_)
        · exact runs_boxedProperty ha name
        refine (Accessor.runs_base ha).bind fun base _ _ hbase => ?_
        cases base with
        | none => exact .fail _
        | some base =>
          exact (runs_fieldAddress (hbase base rfl) name).bind fun _ _ _ h => runs_slotAt h
    · split
      · exact .missing
      · next o =>
        refine (runs_emitPlace o hs).bind fun p _ _ hp =>
          (Place.runs_address hp).bind fun _ _ _ ha => ?_
        exact (Runs.construct (.tupleElementPtr _ _) (usable_one ha)).bind fun _ _ _ hi =>
          runs_slotAt hi
    · exact .fail _

/-! ### Simple statements -/

theorem runs_releaseAll {owned : List Accessor} (hs : ∀ a ∈ owned, a.Usable σ.view av b) :
    Runs env av b (releaseAll owned) Any σ :=
  .forM (I := fun τ => ∀ a ∈ owned, a.Usable τ.view av b) (fun _ _ h hI a ha =>
    h.accessor (hI a ha))
    (fun a ha _ hI => Accessor.runs_count (hI a ha) _) hs

namespace Vars.Usable

variable (hs : s.Usable w av b)
include hs

theorem owned (except : Option Accessor) : ∀ a ∈ s.owned except, a.Usable w av b := by
  intro a ha
  obtain ⟨f, hf, hmem⟩ := mem_flatMap.mp ha
  obtain ⟨x, hx, rfl⟩ := mem_map.mp hmem
  exact hs f hf x (mem_of_mem_filter hx)

theorem inner : ∀ a ∈ s.inner.owned none, a.Usable w av b := by
  cases s with
  | nil => nofun
  | cons f fs =>
    intro a ha
    obtain ⟨x, hx, rfl⟩ := mem_map.mp ha
    exact hs f mem_cons_self x (mem_of_mem_filter hx)

theorem enter : Vars.Usable w av b s.enter := forall_mem_cons.mpr ⟨nofun, hs⟩

theorem insert {x : Binding Accessor} (hx : x.access.Usable w av b) :
    Vars.Usable w av b (s.insert x) := by
  cases s with
  | nil =>
    refine forall_mem_cons.mpr ⟨forall_mem_cons.mpr ⟨hx, nofun⟩, nofun⟩
  | cons f fs =>
    obtain ⟨hf, hfs⟩ := forall_mem_cons.mp hs
    refine forall_mem_cons.mpr ⟨fun y hy => ?_, hfs⟩
    rcases mem_append.mp hy with hy | hy
    · exact hf y hy
    · rw [mem_singleton.mp hy]
      exact hx

end Vars.Usable

section

variable (hs : s.Usable σ.view av b)
include hs

theorem runs_leave : Runs env av b (leave s) Any σ := runs_releaseAll hs.inner

theorem runs_emitVar (st : Stmt) :
    Runs env av b (emitVar s st) (fun s' τ => s'.Usable τ.view av b) σ := by
  unfold emitVar
  split
  · exact .missing
  next e _ =>
  refine (runs_emitExpr e hs).bind fun a τ hτ ha => ?_
  have hrest (declared : TypeId) {υ : Site} (hυ : τ.Onward υ av b) : Runs env av b (do
      let v ← a.retained declared
      if st.mutable then
        let slot ← Lower.build (alloc declared)
        Lower.build (setName (.inst slot) st.name)
        emit (store (some v) (some (.inst slot)))
        return s.insert { name := st.name, access := .place (← slotAt (.inst slot)) }
      else
        let named ← Lower.build (named (some v) st.name)
        return s.insert { name := st.name, access := ← accessorFor (.inst named) false })
      (fun s' τ => Vars.Usable τ.view av b s') υ := by
    refine (Accessor.runs_retained (hυ.accessor ha) declared).bind fun v _ h₁ hv =>
      .ite (fun _ => ?_) fun _ => ?_
    · refine (Runs.construct (.alloc _) usable_nil).bind fun slot _ h₂ hslot => ?_
      refine (Runs.build (advances_setName slot _ hslot.has)).bind fun _ _ h₃ _ => ?_
      refine (runs_store ((h₂.trans h₃).usable hv) (h₃.usable hslot)).bind fun _ _ h₄ _ => ?_
      refine (runs_slotAt ((h₃.trans h₄).usable hslot)).bind fun p _ h₅ hp => .pure ?_
      have hall := (((((hτ.trans hυ).trans h₁).trans h₂).trans h₃).trans h₄).trans h₅
      exact (hall.vars hs).insert hp
    · refine (Runs.construct (.named _ _) (usable_one hv)).bind fun named _ h₂ hnamed => ?_
      refine (runs_accessorFor hnamed false).bind fun a' _ h₃ ha' => .pure ?_
      have hall := (((hτ.trans hυ).trans h₁).trans h₂).trans h₃
      exact (hall.vars hs).insert ha'
  cases st.type with
  | none => exact a.runs_type fun t hs => hrest t hs.onward hs
  | some t => exact (runs_resolveType t).bind fun t _ hυ _ => hrest t hυ

theorem runs_emitAssign (target value : Expr) :
    Runs env av b (emitAssign s target value) Any σ := by
  refine (runs_emitPlace target hs).bind fun p _ h₁ hp => ?_
  refine (runs_emitExpr value (h₁.vars hs)).bind fun a _ h₂ ha => ?_
  refine (Accessor.runs_retained ha p.type).bind fun v _ h₃ hv =>
    .read (.ite (fun _ => ?_) fun _ => ?_)
  · refine (Place.runs_count ((h₂.trans h₃).place hp) _).bind fun _ _ h₄ _ => ?_
    exact Place.runs_write (((h₂.trans h₃).trans h₄).place hp) (h₄.usable hv)
  · exact Place.runs_write ((h₂.trans h₃).place hp) hv

theorem runs_emitDiscarded (e : Expr) : Runs env av b (emitDiscarded s e) Any σ := by
  refine (runs_emitExpr e hs).bind fun a _ _ ha => .ite (fun _ => ?_) fun _ => .pure trivial
  exact (Accessor.runs_count ha _).bind fun _ _ h _ => Accessor.runs_count (h.accessor ha) _

end

theorem runs_ret {value : Option Value} (hv : ∀ v, value = some v → σ.view.Usable av b v) :
    Runs env av b (emit (Build.ret value)) Any σ := (Runs.build (advances_ret hv)).discard

theorem runs_branchTo {args : List Value} (hargs : ∀ v ∈ args, σ.view.Usable av b v)
    (ht : ∀ v, av t v → σ.view.AtEnd av b v) :
    Runs env av b (branchTo t args) (fun _ τ => τ.view.Leads b t) σ :=
  (Runs.build (advances_br hargs ht)).discarding

theorem runs_branchOn {cond : Value} {u : BlockId} (hcond : σ.view.Usable av b cond)
    (ht : ∀ v, av t v → σ.view.AtEnd av b v) (hu : ∀ v, av u v → σ.view.AtEnd av b v) :
    Runs env av b (branchOn cond t u) (fun _ τ => τ.view.Leads b t ∧ τ.view.Leads b u) σ :=
  (Runs.build (advances_condBr hcond ht hu)).discarding

theorem runs_emitReturn (hs : s.Usable σ.view av b) (hfunc : σ.view.Has (.func env.func))
    (e : Option Expr) :
    Runs env av b (emitReturn s e) Any σ := by
  cases e with
  | none =>
    exact (runs_releaseAll (hs.owned none)).bind fun _ _ _ _ => runs_ret nofun
  | some e =>
    refine (runs_emitExpr e hs).bind fun a τ h₁ ha => ?_
    refine (runs_releaseAll ((h₁.vars hs).owned (some a))).bind fun _ υ h₂ _ => ?_
    have hrest {ρ : Site} (h₃ : υ.Onward ρ av b) : Runs env av b (do
        let v ← a.readAs (← Lower.build (resultType (← read).func))
        emit (ret (some v))) Any ρ := by
      refine .read ((Runs.build (advances_resultType ?_)).bind fun t _ h₄ _ => ?_)
      · exact ((h₁.trans h₂).trans h₃).builder.prolongs.has _ hfunc
      exact (Accessor.runs_readAs (((h₂.trans h₃).trans h₄).accessor ha) t).bind fun _ _ _ hv =>
        runs_ret (usable_some hv)
    refine .ite (fun _ => ?_) fun _ hs => hrest hs.onward hs
    exact (Accessor.runs_count (h₂.accessor ha) _).bind fun _ _ h₃ _ => hrest h₃

end Midlevel.Lowering
