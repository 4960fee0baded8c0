import Mathlib.Order.Defs.Unbundled
import Midlevel.Proofs.Observers

/-!
What a program cannot have done to a module, whatever it answers.

Many facts about a program say only that some relation `R` holds between the module it found and the
module it left: every function is still there, every type still means what it meant, an invariant
that held still holds. If `R` is a preorder such a fact is proved step by step, without a word about
what the steps compute. `Frames R x` is that fact, and this file has one rule for every way in which
programs are put together; the states of the three kinds of programs differ only in what surrounds
the module. The rules are instances, so that a program is framed once its parts are.
-/

namespace Midlevel

open Ir List

variable {ε σ β : Type} {s : σ} {E : ε → σ → Prop} {bs : List β} {Q : β → σ → Prop} {c : Prop}

abbrev Lowering.Site.module (σ : Lowering.Site) : Ir.Module := σ.builder.module

/-- A state with a builder in it. -/
class Modular (σ : Type) where
  builder : σ → Builder

instance : Modular Builder := ⟨id⟩

instance : Modular Lowering.Site := ⟨Lowering.Site.builder⟩

instance : Modular Pass.Workspace := ⟨Pass.Workspace.builder⟩

/-- What a relation looks at in a builder: its module, or all of it. -/
class Aspect (τ : Type) where
  of : Builder → τ

instance : Aspect Ir.Module := ⟨Builder.module⟩

instance : Aspect Builder := ⟨id⟩

/-- What a relation looks at in a state. -/
abbrev Modular.aspect {σ : Type} (τ : Type) [Modular σ] [Aspect τ] (s : σ) : τ :=
  Aspect.of (Modular.builder s)

theorem wp_forM_of_checks {f : β → Prog ε σ PUnit}
    {P : β → Prop} (h : ∀ b ∈ bs, wp (f b) (fun _ t => t = s ∧ P b) E s) :
    wp (bs.forM f) (fun _ t => t = s ∧ ∀ b ∈ bs, P b) E s := by
  induction bs with
  | nil => exact ⟨rfl, by simp⟩
  | cons b bs ih =>
    refine wp_seq (h b mem_cons_self) fun _ t ⟨ht, hb⟩ => ?_
    subst ht
    exact wp_imp (ih (forall_mem_cons.mp h).2) fun _ _ ⟨hu, hall⟩ =>
      ⟨hu, forall_mem_cons.mpr ⟨hb, hall⟩⟩

theorem wp_bind_of_forall {α : Type} {x : Prog ε σ α} {f : α → Prog ε σ β}
    (h : ∀ a t, wp (f a) Q Any t) : wp (x >>= f) Q Any s := by
  rw [wp_bind]
  unfold wp at h ⊢
  rcases x.run.run s with ⟨_ | a, t⟩
  · trivial
  · exact h a t

section

variable {α γ τ : Type} [Modular σ] [Aspect τ]
variable {f : α → Prog ε σ β}
variable {s : σ}

/-- Whatever becomes of `x`, the module it leaves is related to the module it found. -/
class Frames (R : τ → τ → Prop) (x : ExceptT ε (StateM σ) α) : Prop where
  frame : ∀ s, R (Modular.aspect τ s) (Modular.aspect τ (x.run.run s).2)

variable {R : τ → τ → Prop} {x : Prog ε σ α}

theorem frames_iff_wp : Frames R x ↔
    ∀ s : σ, wp x (fun _ t => R (Modular.aspect τ s) (Modular.aspect τ t))
    (fun _ t => R (Modular.aspect τ s) (Modular.aspect τ t)) s := by
  refine Iff.trans ⟨fun h => h.frame, fun h => ⟨h⟩⟩ (forall_congr' fun s => ?_)
  unfold wp
  rcases x.run.run s with ⟨_ | _, t⟩ <;> exact Iff.rfl

theorem Frames.wp_and (h : Frames R x) {Q : α → σ → Prop} {E : ε → σ → Prop} (hx : wp x Q E s) :
    wp x (fun a t => R (Modular.aspect τ s) (Modular.aspect τ t) ∧ Q a t) E s :=
  wp_mono (Midlevel.wp_and (frames_iff_wp.mp h s) hx) (fun _ _ h => h) fun _ _ h => h.2

theorem Frames.of_unchanged [IsPreorder τ R]
    (h : ∀ s : σ, Modular.aspect τ (x.run.run s).2 = Modular.aspect τ s) : Frames R x where
  frame s := by
    rw [h]
    exact refl_of R _

instance Frames.pure [IsPreorder τ R] (a : α) : Frames R (Pure.pure a : Prog ε σ α) :=
  .of_unchanged fun _ => rfl

instance Frames.throw [IsPreorder τ R] (e : ε) : Frames R (MonadExcept.throw e : Prog ε σ α) :=
  .of_unchanged fun _ => rfl

instance Frames.get [IsPreorder τ R] : Frames R (MonadState.get : Prog ε σ σ) :=
  .of_unchanged fun _ => rfl

theorem Frames.bind [IsPreorder τ R] (hx : Frames R x) (hf : ∀ a, Frames R (f a)) :
    Frames R (x >>= f) where
  frame s := by
    have hs := hx.frame s
    rw [run_bind]
    rcases hrun : x.run.run s with ⟨_ | a, t⟩
    · rw [hrun] at hs
      exact hs
    · rw [hrun] at hs
      exact trans_of R hs ((hf a).frame t)

instance [IsPreorder τ R] {f : α → Prog ε σ β} [hx : Frames R x] [hf : ∀ a, Frames R (f a)] :
    Frames R (x >>= f) := hx.bind hf

theorem Frames.next [IsPreorder τ R] [hx : Frames R x] (hf : ∀ a, Frames R (f a)) :
    Frames R (x >>= f) := hx.bind hf

/-- What is known before a step and survives related modules is known after it. -/
theorem wp_bind_keeping {P : τ → Prop} (hP : ∀ m m', R m m' → P m → P m') [h : Frames R x]
    {Q : β → σ → Prop}
    (hs : P (Modular.aspect τ s)) (hf : ∀ a t, P (Modular.aspect τ t) → wp (f a) Q Any t) :
    wp (x >>= f) Q Any s := by
  rw [wp_bind]
  exact wp_mono (frames_iff_wp.mp h s) (fun a t hR => hf a t (hP _ _ hR hs)) fun _ _ _ => trivial

theorem wp_bind_of_frames {P : τ → Prop} (hP : ∀ m m', R m m' → P m → P m')
    (hx : wp x (fun _ t => P (Modular.aspect τ t)) Any s) (hf : ∀ a, Frames R (f a)) :
    wp (x >>= f) (fun _ t => P (Modular.aspect τ t)) Any s := by
  exact wp_seq hx fun a t ht => wp_mono (frames_iff_wp.mp (hf a) t) (fun _ _ hR => hP _ _ hR ht)
    fun _ _ _ => trivial

instance Frames.map [IsPreorder τ R] [hx : Frames R x] (f : α → β) : Frames R (f <$> x) := by
  rw [map_eq_pure_bind]
  infer_instance

instance Frames.discard [IsPreorder τ R] [hx : Frames R x] : Frames R (Functor.discard x) := .map _

theorem Frames.tryCatch [IsPreorder τ R] {f : ε → Prog ε σ α} (hx : Frames R x)
    (hf : ∀ e, Frames R (f e)) : Frames R (MonadExcept.tryCatch x f) where
  frame s := by
    have hs := hx.frame s
    show R _ (Modular.aspect τ ((tryCatchThe ε x f).run.run s).2)
    have hrun := run_tryCatch (x := x) (s := s) f
    change (tryCatchThe ε x f).run.run s = _ at hrun
    rw [hrun]
    rcases hrun : x.run.run s with ⟨e | a, t⟩
    · rw [hrun] at hs
      exact trans_of R hs ((hf e).frame t)
    · rw [hrun] at hs
      exact hs

@[instance] theorem Frames.located [IsPreorder τ R] {x : Prog Fault σ Unit} [hx : Frames R x]
    (place : Text) :
    Frames R (Midlevel.located place x) :=
  hx.tryCatch fun
    | .error _ => .throw _
    | .crash _ => .throw _

@[instance] theorem Frames.ite [Decidable c] {y : Prog ε σ α} [h : Frames R x] [g : Frames R y] :
    Frames R (if c then x else y) := by
  split
  · exact h
  · exact g

theorem Frames.ite_bind [IsPreorder τ R] [Decidable c] {y : Prog ε σ β} [Frames R x]
    (hy : Frames R y) : Frames R (if c then x >>= fun _ => y else y) :=
  .ite (h := .next fun _ => hy) (g := hy)

theorem Frames.forM_of_mem [IsPreorder τ R] {bs : List β} {f : β → Prog ε σ PUnit}
    (h : ∀ b ∈ bs, Frames R (f b)) : Frames R (bs.forM f) := by
  induction bs with
  | nil => exact .pure _
  | cons b bs ih =>
    exact (h b mem_cons_self).bind fun _ => ih (forall_mem_cons.mp h).2

instance Frames.forM [IsPreorder τ R] {bs : List β} {f : β → Prog ε σ PUnit}
    [h : ∀ b, Frames R (f b)] : Frames R (bs.forM f) := .forM_of_mem fun b _ => h b

instance Frames.mapM [IsPreorder τ R] {bs : List β} {f : β → Prog ε σ γ}
    [h : ∀ b, Frames R (f b)] : Frames R (bs.mapM f) := by
  induction bs with
  | nil =>
    rw [mapM_nil]
    infer_instance
  | cons b bs ih =>
    rw [mapM_cons]
    infer_instance

end

/-! ### The kinds of programs -/

section Kinds

variable {τ : Type} [Aspect τ] {R : τ → τ → Prop} {α : Type}

instance Frames.transform {x : Build α} [h : Frames R x] : Frames R (Pass.Transform.build x) :=
  frames_iff_wp.mpr fun w => (Pass.Transform.wp_build x).mpr (frames_iff_wp.mp h w.builder)

end Kinds

/-! ### Lowering -/

namespace Lowering.Lower

variable {τ : Type} [Aspect τ] {R : τ → τ → Prop} {α γ : Type} {x : Lower α}

/-- The frames of a program that also reads its setting. -/
class Frames (R : τ → τ → Prop) (x : Lower α) : Prop where
  frame : ∀ env, Midlevel.Frames R (x.run env)

@[simp] theorem wp_build {Q : α → Site → Prop} {E : Fault → Site → Prop} {env : Env} {s : Site}
    (x : Build α) : wp ((build x).run env) Q E s ↔
      wp x (fun a b => Q a { s with builder := b })
      (fun f b => E f { s with builder := b }) s.builder := by
  unfold build
  rw [ReaderT.run_bind, wp_bind]
  show wp (get : ExceptT Fault (StateM Site) Site) _ _ _ ↔ _
  rw [wp_get]
  unfold wp
  rcases x.run.run s.builder with ⟨_ | a, b⟩ <;> rfl

@[simp] theorem wp_alone {Q : α → Builder → Prop} {E : Fault → Builder → Prop}
    {s : Builder} (env : Env)
    (x : Lower α) : wp (x.alone env) Q E s ↔
      wp (x.run env) (fun a t => Q a t.builder) (fun f t => E f t.builder) { builder := s } := by
  unfold wp
  rw [show (x.alone env).run.run s = (_, _) from rfl]
  rcases (x.run env).run.run { builder := s } with ⟨_ | a, t⟩ <;> rfl

@[instance] theorem frames_alone [h : x.Frames R] (env : Env) : Midlevel.Frames R (x.alone env) :=
  frames_iff_wp.mpr fun s => (wp_alone env x).mpr (frames_iff_wp.mp (h.frame env) { builder := s })

instance Frames.build {x : Build α} [h : Midlevel.Frames R x] : (Lower.build x).Frames R :=
  ⟨fun _ => frames_iff_wp.mpr fun s => (wp_build x).mpr (frames_iff_wp.mp h s.builder)⟩

@[instance] theorem Frames.ite [Decidable c] {y : Lower α} [h : x.Frames R] [g : y.Frames R] :
    (if c then x else y).Frames R := by
  split
  · exact h
  · exact g

variable [IsPreorder τ R]

theorem Frames.of_unchanged
    (h : ∀ env s, Modular.aspect τ ((x.run env).run.run s).2 = Modular.aspect τ s) : x.Frames R :=
  ⟨fun env => .of_unchanged (h env)⟩

instance Frames.pure (a : α) : (Pure.pure a : Lower α).Frames R := .of_unchanged fun _ _ => rfl

instance Frames.throw (f : Fault) : (MonadExcept.throw f : Lower α).Frames R :=
  .of_unchanged fun _ _ => rfl

theorem Frames.bind {f : α → Lower β} (hx : x.Frames R) (hf : ∀ a, (f a).Frames R) :
    (x >>= f).Frames R :=
  ⟨fun env => (hx.frame env).bind fun a => (hf a).frame env⟩

instance {f : α → Lower β} [hx : x.Frames R] [hf : ∀ a, (f a).Frames R] : (x >>= f).Frames R :=
  hx.bind hf

theorem Frames.next {f : α → Lower β} [hx : x.Frames R] (hf : ∀ a, (f a).Frames R) :
    (x >>= f).Frames R := hx.bind hf

instance Frames.map [hx : x.Frames R] (f : α → β) : (f <$> x).Frames R := by
  rw [map_eq_pure_bind]
  infer_instance

instance Frames.discard [hx : x.Frames R] : (Functor.discard x).Frames R := .map _

instance Frames.forM {bs : List β} {f : β → Lower PUnit} [h : ∀ b, (f b).Frames R] :
    (bs.forM f).Frames R := by
  induction bs with
  | nil => exact .pure _
  | cons b bs ih =>
    show (f b >>= fun _ => bs.forM f).Frames R
    infer_instance

instance Frames.mapM {bs : List β} {f : β → Lower γ} [h : ∀ b, (f b).Frames R] :
    (bs.mapM f).Frames R := by
  induction bs with
  | nil =>
    rw [mapM_nil]
    infer_instance
  | cons b bs ih =>
    rw [mapM_cons]
    infer_instance

@[instance] theorem Frames.naming (place : Text) [hx : x.Frames R] :
    (Lower.naming place x).Frames R :=
  ⟨fun env => (hx.frame env).tryCatch fun
    | .error _ => .throw _
    | .crash _ => .throw _⟩

end Lowering.Lower

end Midlevel
