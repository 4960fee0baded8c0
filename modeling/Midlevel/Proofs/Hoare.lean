import Midlevel.Pass.Basic

/-!
How programs with failures and a state are reasoned about here.

`wp x Q E s` says what becomes of `x` when it starts in `s`: either it answers `a` in a state `t`
with `Q a t`, or it fails with `e` in a state `t` with `E e t`. A failure keeps the state it
happened in, so both ways out speak about a state. Every step of a program has a rule that is an
equivalence; the rules are `simp` lemmas, so `simp only` runs a straight-line program, and what is
left is a statement about the states between the steps. Loops have one rule with an invariant on
what is done already.
-/

namespace Midlevel

variable {ε σ α β : Type}

/-- Programs that can fail and change a state. -/
abbrev Prog (ε σ : Type) := ExceptT ε (StateM σ)

/-- Run from `s`, `x` answers within `Q` or fails within `E`. -/
def wp (x : ExceptT ε (StateM σ) α) (Q : α → σ → Prop) (E : ε → σ → Prop) (s : σ) : Prop :=
  match x.run.run s with
  | (.ok a, t) => Q a t
  | (.error e, t) => E e t

/-- Any failure will do. -/
abbrev Any (_ : ε) (_ : σ) : Prop := True

section Rules

variable {x : Prog ε σ α} {Q Q' : α → σ → Prop} {E E' : ε → σ → Prop} {s : σ}

theorem wp_mono (h : wp x Q E s) (hQ : ∀ a t, Q a t → Q' a t) (hE : ∀ e t, E e t → E' e t) :
    wp x Q' E' s := by
  unfold wp at h ⊢
  split at h
  · exact hQ _ _ h
  · exact hE _ _ h

theorem wp_imp (h : wp x Q E s) (hQ : ∀ a t, Q a t → Q' a t) : wp x Q' E s :=
  wp_mono h hQ fun _ _ he => he

/-- What is known of the two ways out may be used in either of them. -/
theorem wp_and (h : wp x Q E s) (h' : wp x Q' E' s) :
    wp x (fun a t => Q a t ∧ Q' a t) (fun e t => E e t ∧ E' e t) s := by
  unfold wp at h h' ⊢
  rcases hrun : x.run.run s with ⟨_ | a, t⟩
  · rw [hrun] at h h'
    exact ⟨h, h'⟩
  · rw [hrun] at h h'
    exact ⟨h, h'⟩

theorem wp_iff_of_ok {a : α} {t : σ} (h : x.run.run s = (.ok a, t)) : wp x Q E s ↔ Q a t := by
  unfold wp
  rw [h]

theorem wp_iff_of_error {e : ε} {t : σ} (h : x.run.run s = (.error e, t)) : wp x Q E s ↔ E e t := by
  unfold wp
  rw [h]

theorem of_wp {P : Except ε α × σ → Prop}
    (h : wp x (fun a t => P (.ok a, t)) (fun e t => P (.error e, t)) s) :
    P (x.run.run s) := by
  rcases hx : x.run.run s with ⟨e | a, t⟩
  · exact (wp_iff_of_error hx).mp h
  · exact (wp_iff_of_ok hx).mp h

theorem exists_run_of_wp (h : wp x Q (fun _ _ => False) s) :
    ∃ a t, x.run.run s = (.ok a, t) ∧ Q a t := by
  rcases hrun : x.run.run s with ⟨e | a, t⟩
  · exact ((wp_iff_of_error hrun).mp h).elim
  · exact ⟨a, t, rfl, (wp_iff_of_ok hrun).mp h⟩

/-- What holds wherever `x` answers holds of what its answer was made into. -/
theorem of_map_run {f : α → σ → β} {P : β → Prop} {b : β}
    (h : (x.run.run s).1.map (f · (x.run.run s).2) = .ok b)
    (hx : wp x (fun a t => P (f a t)) E s) : P b := by
  rcases hrun : x.run.run s with ⟨e | a, t⟩
  · rw [hrun] at h
    cases h
  · rw [hrun] at h
    exact Except.ok.inj h ▸ (wp_iff_of_ok hrun).mp hx

@[simp] theorem wp_pure (a : α) : wp (pure a) Q E s ↔ Q a s := Iff.rfl

theorem run_bind (y : Prog ε σ β) (f : β → Prog ε σ α) :
    (y >>= f).run.run s = match y.run.run s with
      | (.ok b, t) => (f b).run.run t
      | (.error e, t) => (.error e, t) := by
  rw [ExceptT.run_bind, StateT.run_bind]
  rcases y.run.run s with ⟨_ | _, t⟩ <;> rfl

@[simp] theorem wp_bind (y : Prog ε σ β) (f : β → Prog ε σ α) :
    wp (y >>= f) Q E s ↔ wp y (fun b t => wp (f b) Q E t) E s := by
  unfold wp
  rw [run_bind]
  rcases y.run.run s with ⟨_ | b, t⟩ <;> rfl

theorem wp_seq {y : Prog ε σ β} {f : β → Prog ε σ α} {P : β → σ → Prop} (hy : wp y P E s)
    (hf : ∀ b t, P b t → wp (f b) Q E t) : wp (y >>= f) Q E s := (wp_bind y f).mpr (wp_imp hy hf)

@[simp] theorem wp_map (f : β → α) (y : Prog ε σ β) : wp (f <$> y) Q E s ↔
    wp y (fun b t => Q (f b) t) E s := by
  rw [map_eq_pure_bind, wp_bind]
  rfl

@[simp] theorem wp_get {Q : σ → σ → Prop} : wp (get : Prog ε σ σ) Q E s ↔ Q s s := Iff.rfl

@[simp] theorem wp_modify {Q : PUnit → σ → Prop} (f : σ → σ) :
    wp (modify f : Prog ε σ PUnit) Q E s ↔ Q ⟨⟩ (f s) := Iff.rfl

@[simp] theorem wp_modifyGet (f : σ → α × σ) : wp (modifyGet f : Prog ε σ α) Q E s ↔
    Q (f s).1 (f s).2 := Iff.rfl

theorem run_tryCatch (f : ε → Prog ε σ α) : (tryCatch x f).run.run s = match x.run.run s with
      | (.ok a, t) => (.ok a, t)
      | (.error e, t) => (f e).run.run t := by
  show StateT.run (match (x.run.run s).1 with | .ok a => pure (.ok a) | .error e => (f e).run)
    (x.run.run s).2 = _
  rcases x.run.run s with ⟨_ | _, t⟩ <;> rfl

@[simp] theorem wp_tryCatch (f : ε → Prog ε σ α) : wp (tryCatch x f) Q E s ↔
    wp x Q (fun e t => wp (f e) Q E t) s := by
  unfold wp
  rw [run_tryCatch]
  rcases x.run.run s with ⟨_ | a, t⟩ <;> rfl

theorem wp_ite (c : Prop) [Decidable c] (x y : Prog ε σ α) :
    wp (if c then x else y) Q E s ↔ (c → wp x Q E s) ∧ (¬ c → wp y Q E s) := by
  split
  · next h => exact ⟨fun hx => ⟨fun _ => hx, fun hn => absurd h hn⟩, fun hx => hx.1 h⟩
  · next h => exact ⟨fun hy => ⟨fun hc => absurd hc h, fun _ => hy⟩, fun hy => hy.2 h⟩

end Rules

/-! ### Loops -/

section Loops

variable {E : ε → σ → Prop} {s : σ} {f : β → Prog ε σ PUnit}
variable {Q : PUnit → σ → Prop}

@[simp] theorem wp_forM_cons (b : β) (bs : List β) :
    wp (forM (b :: bs) f) Q E s ↔ wp (f b) (fun _ t => wp (forM bs f) Q E t) E s := by
  rw [List.forM_cons, wp_bind]

/-- The invariant speaks about the members that are done already. -/
theorem wp_forM_of_invariant (I : List β → σ → Prop) {bs : List β}
    (hstep : ∀ done b rest, bs = done ++ b :: rest → ∀ t, I done t →
      wp (f b) (fun _ u => I (done ++ [b]) u) E t) (hinit : I [] s) (hdone : ∀ t, I bs t → Q ⟨⟩ t) :
    wp (forM bs f) Q E s := by
  suffices h : ∀ rest done t, bs = done ++ rest → I done t → wp (forM rest f) Q E t from
    h bs [] s rfl hinit
  intro rest
  induction rest with
  | nil =>
    intro done t hbs hI
    rw [List.append_nil] at hbs
    exact hdone t (hbs ▸ hI)
  | cons b rest ih =>
    intro done t hbs hI
    rw [wp_forM_cons]
    refine wp_mono (hstep done b rest hbs t hI) ?_ fun _ _ he => he
    intro _ u hu
    exact ih (done ++ [b]) u (by rw [hbs, List.append_assoc]; rfl) hu

theorem wp_forM_of_each (I : σ → Prop) {bs : List β}
    (hstep : ∀ b ∈ bs, ∀ t, I t → wp (f b) (fun _ u => I u) E t) (hinit : I s)
    (hdone : ∀ t, I t → Q ⟨⟩ t) :
    wp (forM bs f) Q E s := by
  refine wp_forM_of_invariant (fun _ => I) ?_ hinit hdone
  intro done b rest hbs t hI
  exact hstep b (by rw [hbs]; simp) t hI

/-- A loop whose steps all answer answers too, and every step is run after those before it. -/
theorem exists_run_forM {I : σ → Prop} {R : β → σ → σ → Prop} {bs : List β}
    (hstep : ∀ b ∈ bs, ∀ t, I t → wp (f b) (fun _ u => I u ∧ R b t u) (fun _ _ => False) t)
    (hs : I s) :
    ∃ t, (bs.forM f).run.run s = (.ok ⟨⟩, t) ∧ ∀ before b after, bs = before ++ b :: after →
      ∃ u v, (before.forM f).run.run s = (.ok ⟨⟩, u) ∧ (f b).run.run u = (.ok ⟨⟩, v) ∧ R b u v := by
  induction bs generalizing s with
  | nil => exact ⟨s, rfl, by simp⟩
  | cons b bs ih =>
    obtain ⟨_, v, hv, hI, hR⟩ := exists_run_of_wp (hstep b List.mem_cons_self s hs)
    have hrun (cs : List β) : ((b :: cs).forM f).run.run s = (cs.forM f).run.run v := by
      show ((f b >>= fun _ => cs.forM f)).run.run s = _
      rw [run_bind, hv]
    obtain ⟨t, ht, hall⟩ := ih (fun c hc => hstep c (List.mem_cons_of_mem _ hc)) hI
    refine ⟨t, (hrun bs).trans ht, fun before c after heq => ?_⟩
    cases before with
    | nil =>
      obtain ⟨rfl, -⟩ := List.cons.inj heq
      exact ⟨s, v, rfl, hv, hR⟩
    | cons d before =>
      obtain ⟨rfl, hbs⟩ := List.cons.inj heq
      obtain ⟨u, w, hu, hw⟩ := hall before c after hbs
      exact ⟨u, w, (hrun before).trans hu, hw⟩

end Loops

/-! ### Steps of the builder -/

namespace Ir.Module

variable (m : Module)

def withTypes (types : TypeTable) : Module := { m with types }

def updateFunc (f : FuncId) (g : Func → Func) : Module :=
  { m with funcs := m.funcs.update f g }

def updateBlock (b : BlockId) (g : Block → Block) : Module :=
  { m with blocks := m.blocks.update b g }

def updateInst (i : InstId) (g : Inst → Inst) : Module :=
  { m with insts := m.insts.update i g }

def updateEdge (e : EdgeId) (g : Edge → Edge) : Module :=
  { m with edges := m.edges.update e g }

end Ir.Module

/-- What holds of an answer and the builder it comes with. -/
abbrev Ir.Post (α : Type) := α → Ir.Builder → Prop

namespace Ir.Build

variable {Q : Post α} {E : Post Fault} {s : Builder} (b : BlockId)

@[simp] theorem wp_fail (e : Error) : wp (fail e : Build α) Q E s ↔ E (.error e) s := Iff.rfl

@[simp] theorem wp_crash (c : Crash) : wp (crash c : Build α) Q E s ↔ E (.crash c) s := Iff.rfl

@[simp] theorem wp_demand_some (a : α) : wp (demand (some a)) Q E s ↔ Q a s := Iff.rfl

@[simp] theorem wp_module {Q : Post Module} : wp module Q E s ↔ Q s.module s := Iff.rfl

@[simp] theorem wp_types {Q : Post TypeTable} : wp types Q E s ↔ Q s.module.types s := Iff.rfl

@[simp] theorem wp_cursor {Q : Post Cursor} : wp cursor Q E s ↔ Q s.cursor s := Iff.rfl

@[simp] theorem wp_func {Q : Post Func} (f : FuncId) : wp (func f) Q E s ↔
    Q (s.module.funcs.get f) s := Iff.rfl

@[simp] theorem wp_block {Q : Post Block} : wp (block b) Q E s ↔ Q (s.module.blocks.get b) s :=
  Iff.rfl

@[simp] theorem wp_inst {Q : Post Inst} (i : InstId) : wp (inst i) Q E s ↔
    Q (s.module.insts.get i) s := Iff.rfl

@[simp] theorem wp_edge {Q : Post Edge} (e : EdgeId) : wp (edge e) Q E s ↔
    Q (s.module.edges.get e) s := Iff.rfl

@[simp] theorem wp_typeOf {Q : Post TypeId} (v : Value) : wp (typeOf v) Q E s ↔
    Q (s.module.valueType v) s := Iff.rfl

@[simp] theorem wp_modifyModule {Q : Post Unit} (f : Module → Module) :
    wp (modifyModule f) Q E s ↔ Q () { s with module := f s.module } := Iff.rfl

@[simp] theorem wp_modifyFunc {Q : Post Unit} (f : FuncId) (g : Func → Func) :
    wp (modifyFunc f g) Q E s ↔ Q () { s with module := s.module.updateFunc f g } := Iff.rfl

@[simp] theorem wp_modifyBlock {Q : Post Unit} (g : Block → Block) :
    wp (modifyBlock b g) Q E s ↔ Q () { s with module := s.module.updateBlock b g } := Iff.rfl

@[simp] theorem wp_modifyInst {Q : Post Unit} (i : InstId) (g : Inst → Inst) :
    wp (modifyInst i g) Q E s ↔ Q () { s with module := s.module.updateInst i g } := Iff.rfl

@[simp] theorem wp_modifyEdge {Q : Post Unit} (e : EdgeId) (g : Edge → Edge) :
    wp (modifyEdge e g) Q E s ↔ Q () { s with module := s.module.updateEdge e g } := Iff.rfl

theorem wp_forM_module {Q : Post Unit} {f : β → Build Unit} {xs : List β}
    (I : List β → Module → Prop) (hinit : I [] s.module)
    (hstep : ∀ done x rest, xs = done ++ x :: rest → ∀ m, I done m → wp (f x)
      (fun _ t => ∃ m', t = { s with module := m' } ∧ I (done ++ [x]) m') E { s with module := m })
    (k : ∀ m, I xs m → Q () { s with module := m }) : wp (forM xs f) Q E s := by
  refine wp_forM_of_invariant (fun done t => ∃ m, t = { s with module := m } ∧ I done m) ?_
    ⟨s.module, rfl, hinit⟩ ?_
  · rintro done x rest hxs t ⟨m, rfl, hm⟩
    exact hstep done x rest hxs m hm
  · rintro t ⟨m, rfl, hm⟩
    exact k m hm

@[simp] theorem wp_setCursor {Q : Post Unit} (c : Cursor) :
    wp (setCursor c) Q E s ↔ Q () { s with cursor := c } := Iff.rfl

@[simp] theorem wp_clearCursor {Q : Post Unit} : wp clearCursor Q E s ↔
    Q () { s with cursor := {} } := Iff.rfl

@[simp] theorem wp_positionAtEnd {Q : Post Unit} : wp (positionAtEnd b) Q E s ↔
      Q () { s with cursor := { func := (s.module.blocks.get b).func, block := some b } } := Iff.rfl

@[simp] theorem wp_onTypes (f : TypeTable → α × TypeTable) : wp (onTypes f) Q E s ↔
      Q (f s.module.types).1 { s with module := s.module.withTypes (f s.module.types).2 } := Iff.rfl

/-- The outcome of `x` as a value; only a crash still fails. -/
@[simp] theorem wp_attempt {Q : Post (Except Error α)} (x : Build α) : wp (attempt x) Q E s ↔
      wp x (fun a t => Q (.ok a) t) (fun f t => match f with
          | .error e => Q (.error e) t
          | .crash c => E (.crash c) t) s := by
  have hrun : (attempt x).run.run s =
      match x.run.run s with
      | (.ok a, t) => (.ok (.ok a), t)
      | (.error (.error e), t) => (.ok (.error e), t)
      | (.error (.crash c), t) => (.error (.crash c), t) := by
    unfold attempt
    rw [run_bind, run_tryCatch, run_bind]
    rcases x.run.run s with ⟨(_ | _) | a, t⟩ <;> rfl
  unfold wp
  rw [hrun]
  rcases x.run.run s with ⟨(_ | _) | a, t⟩ <;> rfl

@[simp] theorem wp_keepingCursor (x : Build α) :
    wp (keepingCursor x) Q E s ↔ wp x (fun a t => Q a { t with cursor := s.cursor })
        (fun f t => E f { t with cursor := s.cursor }) s := by
  have hrun : (keepingCursor x).run.run s =
      match x.run.run s with
      | (.ok a, t) => (.ok a, { t with cursor := s.cursor })
      | (.error f, t) => (.error f, { t with cursor := s.cursor }) := by
    unfold keepingCursor
    rw [run_bind]
    show StateT.run (ExceptT.run (tryCatch _ _ >>= _)) s = _
    rw [run_bind, run_tryCatch, run_bind]
    rcases x.run.run s with ⟨_ | a, t⟩ <;> rfl
  unfold wp
  rw [hrun]
  rcases x.run.run s with ⟨_ | a, t⟩ <;> rfl

end Ir.Build

/-! ### Steps of a pass -/

abbrev Pass.Workspace.module (w : Pass.Workspace) : Ir.Module := w.builder.module

namespace Pass.Transform

variable {Q : α → Workspace → Prop} {E : Fault → Workspace → Prop} {w : Workspace}

@[simp] theorem wp_build (x : Ir.Build α) :
    wp (build x) Q E w ↔ wp x (fun a b => Q a { w with builder := b })
    (fun f b => E f { w with builder := b })
        w.builder := by
  unfold build
  rw [wp_bind, wp_get]
  unfold wp
  rcases x.run.run w.builder with ⟨_ | a, b⟩ <;> rfl

@[simp] theorem wp_module {Q : Ir.Module → Workspace → Prop} : wp module Q E w ↔ Q w.module w :=
  Iff.rfl

@[simp] theorem wp_count {Q : Unit → Workspace → Prop} (change : Stats → Stats) :
    wp (count change) Q E w ↔ Q () { w with stats := change w.stats } := Iff.rfl

@[simp] theorem wp_demand_some (a : α) : wp (demand (some a)) Q E w ↔ Q a w := Iff.rfl

end Pass.Transform

/-- A test of what an outcome holds, which can be run. -/
def checked (r : Except ε α) (p : α → Bool) : Bool :=
  match r with
  | .ok a => p a
  | .error _ => false

theorem exists_of_checked {r : Except ε α} {p : α → Bool} (h : checked r p = true) :
    ∃ a, r = .ok a ∧ p a = true := by
  cases r with
  | error e => cases h
  | ok a => exact ⟨a, rfl, h⟩

theorem eq_nil_of_checked {r : Except ε (List α)} (h : checked r List.isEmpty = true) :
    r = .ok [] := by
  obtain ⟨xs, hxs, hnil⟩ := exists_of_checked h
  rw [hxs, List.isEmpty_iff.mp hnil]

theorem exists_run_of_checked {x : Prog ε σ α} {s : σ}
    (h : checked (x.run.run s).1 (fun _ => true) = true) :
    ∃ a, x.run.run s = (.ok a, (x.run.run s).2) := by
  obtain ⟨a, ha, -⟩ := exists_of_checked h
  exact ⟨a, Prod.ext ha rfl⟩

theorem exists_of_decided {r : Except ε α} {P : α → Prop} [DecidablePred P]
    (h : checked r (fun a => decide (P a)) = true) : ∃ a, r = .ok a ∧ P a := by
  obtain ⟨a, ha, hP⟩ := exists_of_checked h
  exact ⟨a, ha, of_decide_eq_true hP⟩

theorem exists_func_of_checked {r : Except ε Ir.Module} {name : Text}
    {P : Ir.Module → Ir.FuncId → Prop}
    [∀ m f, Decidable (P m f)]
    (h : checked r (fun m => (m.funcNamed? name).any fun f => decide (P m f)) = true) :
    ∃ m f, r = .ok m ∧ m.funcNamed? name = some f ∧ P m f := by
  obtain ⟨m, hm, hany⟩ := exists_of_checked h
  obtain ⟨f, hf, hP⟩ := (Option.any_eq_true ..).mp hany
  exact ⟨m, f, hm, hf, of_decide_eq_true hP⟩

end Midlevel
