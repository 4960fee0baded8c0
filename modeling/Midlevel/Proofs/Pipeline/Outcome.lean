import Midlevel.Proofs.Pipeline.Steps

/-!
What a compilation comes to when nobody watches.

`frontEnd` and `lowered` are the stages of a job as functions of the input and the options alone,
without events, spans or phases. A job whose listener does not fail goes through exactly these,
whatever else observes it; the lemmas are one for each stage, in the order in which a job runs them.
-/

namespace Midlevel.Pipeline

open Trace

/-! ### The stages as functions -/

/-- What is left of an input before its listing. -/
structure Product where
  name : Text
  module : Ir.Module
  stats : Pass.Stats
  dump : Text

def passes (o : Options) : Pass.Manager :=
  { Pass.Manager.standard with verify := o.verify, disabled := o.disabled }

def printed (m : Ir.Module) : Except Fault Text :=
  match m.verify with
  | .error c => .error (.crash c)
  | .ok (some e) => .error (.error e)
  | .ok none => m.dump.mapError .crash

/-- The passes over a generated module, and the text of what they leave. -/
def optimised (o : Options) (m : Ir.Module) : Except Fault Product := do
  let (stats, module) ← (passes o).optimise o.level m
  return { name := m.name, module, stats, dump := ← printed module }

/-- How a fault in a stage stops a job. -/
def stopped (stage : Stage) : Fault → Stop
  | .error e => .failed stage (.error e)
  | .crash c => .crashed c

def loaded (input data : Text) : Except Stop Tree.Module :=
  match Tree.Module.decode? data with
  | some tree => .ok tree
  | none => .error (.failed .load (.error (.within input (.cause .malformedTree))))

def frontEnd (o : Options) (input data : Text) : Except Stop Product := do
  let tree ← loaded input data
  let m ← (Lowering.generate tree { library := o.library } .off 0).1.mapError (stopped .generate)
  (optimised o m).mapError (stopped .optimise)

def lowered (o : Options) (m : Ir.Module) : Except Fault Text :=
  ((Listing.lower 0).run.run { builder := { module := m }, target := o.target }).1.map
    (·.render o.target)

/-! ### A job goes through them -/

section Stages

variable {α : Type} {w : Work} {Q : α → Work → Prop} {E : Stop → Work → Prop}

def Quiet (w : Work) : Prop := w.watch.trap = none

/-- Only the tracer and the timer differ. -/
structure Observers.Same (o o' : Observers) : Prop where
  trap : o'.trap = o.trap
  events : o'.events = o.events

/-- What is settled of a result when its job ends. -/
def Result.standing (r : Result) : Text × Option Problem × Bool := (r.input, r.problem, r.cached)

/-- How it is told that an input goes through stages. -/
def working (input : Text) (stages : List Stage) : List Event :=
  stages.map fun stage => { input, stage, status := .working }

/-- `w'` is `w` after those stages were told, before anything has come of them. -/
structure Entered (w : Work) (stages : List Stage) (w' : Work) : Prop where
  quiet : Quiet w'
  events : w'.watch.events = (working w.result.input stages).reverse ++ w.watch.events
  standing : w'.result.standing = w.result.standing

/-- The first stages were told. -/
abbrev Reached (w w' : Work) : Prop := ∃ n, Entered w (Stage.all.take n) w'

namespace Entered

variable {w' : Work} {stages : List Stage} (h : Entered w stages w')
include h

theorem watched {watch : Observers} {result : Result} (hwatch : w'.watch.Same watch)
    (hresult : result.standing = w'.result.standing) : Entered w stages { watch, result } :=
  ⟨hwatch.trap.trans h.quiet, hwatch.events.trans h.events, hresult.trans h.standing⟩

theorem input_eq : w'.result.input = w.result.input := congrArg Prod.fst h.standing

theorem trans {w'' : Work} {stages' : List Stage} (h' : Entered w' stages' w'') :
    Entered w (stages ++ stages') w'' := by
  refine ⟨h'.quiet, h'.events.trans ?_, h'.standing.trans h.standing⟩
  rw [h.events, h.input_eq]
  simp [working]

end Entered

theorem wp_tell {Q : Unit → Work → Prop} (hw : Quiet w) (stage : Stage) (status : Status)
    (h : Q () { w with watch :=
      { w.watch with events := { input := w.result.input, stage, status } :: w.watch.events } }) :
    wp (Job.emit stage status) Q E w := by
  unfold Job.emit
  have htell : w.watch.tell { input := w.result.input, stage, status } =
      (none, { w.watch with events := { input := w.result.input, stage, status } ::
                              w.watch.events }) := by
    unfold Observers.tell
    dsimp only
    rw [show w.watch.trap = none from hw]
  rw [wp_bind, wp_get, htell]
  exact h

theorem wp_enter {x : Job α} (hw : Quiet w) (stage : Stage)
    (h : ∀ w', Entered w [stage] w' → w'.result = w.result → wp x Q E w') :
    wp (Job.emit stage .working >>= fun _ => x) Q E w := by
  rw [wp_bind]
  exact wp_tell hw _ _ (h _ ⟨hw, rfl, rfl⟩ rfl)

theorem wp_attempt {stage : Stage} {x : Except Fault α} (hok : ∀ a, x = .ok a → Q a w)
    (herror : ∀ f, x = .error f → E (stopped stage f) w) : wp (Job.attempt stage x) Q E w := by
  rcases x with (e | c) | a
  · exact herror _ rfl
  · exact herror _ rfl
  · exact hok a rfl

/-- `P` holds of the work, whatever traces and times it. -/
def Unwatched (P : Work → Prop) (w : Work) : Prop :=
  ∀ watch, w.watch.Same watch → P { w with watch }

theorem wp_timed {name note : Text} {x : Job α}
    (h : ∀ watch, w.watch.Same watch →
      wp x (fun a => Unwatched (Q a)) (fun s => Unwatched (E s)) { w with watch }) :
    wp (Job.timed name note x) Q E w := by
  have hstart : w.watch.Same (w.watch.startPhase name).2 := by
    unfold Observers.startPhase
    split <;> exact ⟨rfl, rfl⟩
  unfold Job.timed
  rw [wp_bind]
  show wp (tryCatch _ _ >>= _ : Job α) Q E { w with watch := (w.watch.startPhase name).2 }
  rw [wp_bind, wp_tryCatch, wp_bind]
  refine wp_mono (h _ hstart) (fun a t ht => ?_) ?_
  · exact ht _ ⟨rfl, rfl⟩
  · rintro (⟨stage, p⟩ | c) t ht
    · exact ht _ ⟨rfl, rfl⟩
    · exact ht t.watch ⟨rfl, rfl⟩

/-! ### The front end -/

variable {o : Options} {data : Text} {parent : UInt64}

theorem wp_load (hw : Quiet w) : wp (load data)
    (fun tree w' => loaded w.result.input data = .ok tree ∧ Entered w [.load] w' ∧
      w'.result = w.result)
    (fun s w' => loaded w.result.input data = .error s ∧ Entered w [.load] w') w := by
  refine wp_enter hw _ fun w₁ h₁ hresult => ?_
  unfold loaded
  rw [wp_bind, wp_get, ← hresult]
  refine wp_timed fun watch hwatch => ?_
  rcases Tree.Module.decode? data with _ | tree
  · exact fun watch' hwatch' => ⟨rfl, (h₁.watched hwatch rfl).watched hwatch' rfl⟩
  · exact fun watch' hwatch' => ⟨rfl, (h₁.watched hwatch rfl).watched hwatch' rfl, rfl⟩

theorem wp_generate (hw : Quiet w) (tree : Tree.Module) : wp (generate o parent tree)
    (fun m w' => (Lowering.generate tree { library := o.library } .off 0).1 = .ok m ∧
      Entered w [.generate] w' ∧
      w'.result = { w.result with module := m.name })
    (fun s w' => ∃ f, (Lowering.generate tree { library := o.library } .off 0).1 = .error f ∧
      s = stopped .generate f ∧
      Entered w [.generate] w') w := by
  refine wp_enter hw _ fun w₁ h₁ hresult => ?_
  rw [wp_bind]
  refine wp_timed fun watch hwatch => ?_
  rw [wp_bind, wp_get]
  have hsame := (Lowering.generate_eq tree { library := o.library } .off 0).trans
    (Lowering.generate_eq tree _ watch.tracer parent).symm
  rcases hgen : Lowering.generate tree { library := o.library } watch.tracer parent with
    ⟨outcome, tracer⟩
  rw [hgen] at hsame
  rw [hsame]
  have h₂ : Entered w [.generate] { w₁ with watch := { watch with tracer } } :=
    h₁.watched ⟨hwatch.trap, hwatch.events⟩ rfl
  rw [← hresult]
  refine wp_attempt (fun m hm watch' hwatch' => ?_) fun f hf watch' hwatch' => ?_
  · exact ⟨hm, h₂.watched hwatch' rfl, rfl⟩
  · exact ⟨f, hf, rfl, h₂.watched hwatch' rfl⟩

theorem optimised_eq {m module : Ir.Module} {stats : Pass.Stats}
    (h : (passes o).optimise o.level m = .ok (stats, module)) :
    optimised o m = (printed module).map fun dump => { name := m.name, module, stats, dump } := by
  unfold optimised
  rw [h]
  show (printed module >>= _) = _
  rcases printed module with f | dump <;> rfl

theorem name_of_optimised {m : Ir.Module} {p : Product} (h : optimised o m = .ok p) :
    p.name = m.name := by
  rcases hopt : (passes o).optimise o.level m with f | ⟨stats, module⟩
  · unfold optimised at h
    rw [hopt] at h
    cases h
  · rw [optimised_eq hopt] at h
    rcases hdump : printed module with f | dump
    · rw [hdump] at h
      cases h
    · rw [hdump] at h
      cases h
      rfl

theorem wp_optimise (hw : Quiet w) (m : Ir.Module) : wp (optimise o parent m)
    (fun m' w' => ∃ p, optimised o m = .ok p ∧ m' = p.module ∧ Entered w [.optimise] w' ∧
      w'.result = { w.result with stats := p.stats, dump := p.dump })
    (fun s w' => ∃ f, optimised o m = .error f ∧ s = stopped .optimise f ∧
      Entered w [.optimise] w') w := by
  refine wp_enter hw _ fun w₁ h₁ hresult => ?_
  rw [wp_bind, wp_get]
  have hopt : (passes o).optimise o.level m = _ :=
    Pass.optimise_eq { Pass.Manager.standard with verify := o.verify,
                                                  disabled := o.disabled } o.level m
  rw [← Pass.casts_run _ _ parent { work := { builder := { module := m } },
                                    tracer := w₁.watch.tracer, timer := w₁.watch.timer }]
    at hopt
  revert hopt
  generalize StateT.run (ExceptT.run (Pass.Manager.run _ o.level parent)) _ = r
  obtain ⟨outcome, run⟩ := r
  intro (hopt : _ = outcome.map fun _ => (run.work.stats, run.work.builder.module))
  have h₂ {result : Result} (hr : result.standing = w₁.result.standing) : Entered w [.optimise]
      { watch := { w₁.watch with tracer := run.tracer, timer := run.timer }, result } :=
        h₁.watched ⟨rfl, rfl⟩ hr
  dsimp only
  rw [wp_bind, wp_modify, wp_bind, Job.modifyResult, wp_modify, wp_bind]
  refine wp_attempt (fun _ hok => ?_) fun f hf => ?_
  · subst hok
    rw [optimised_eq hopt]
    unfold printed
    rcases run.work.builder.module.verify with c | _ | e
    · exact ⟨.crash c, rfl, rfl, h₂ rfl⟩
    · rw [wp_bind]
      refine wp_attempt (fun dump hdump => ?_) fun f hf => ?_
      · rw [hdump, ← hresult]
        exact ⟨_, rfl, rfl, h₂ rfl, rfl⟩
      · rw [hf]
        exact ⟨f, rfl, rfl, h₂ rfl⟩
    · exact ⟨.error e, rfl, rfl, h₂ rfl⟩
  · subst hf
    refine ⟨f, ?_, rfl, h₂ rfl⟩
    unfold optimised
    rw [hopt]
    rfl

def front (o : Options) (data : Text) (parent : UInt64) : Job Ir.Module := do
  let tree ← load data
  let m ← generate o parent tree
  optimise o parent m

theorem wp_front (hw : Quiet w) : wp (front o data parent)
    (fun m w' => ∃ p, frontEnd o w.result.input data = .ok p ∧ m = p.module ∧
      Entered w [.load, .generate, .optimise] w' ∧
      w'.result = { w.result with module := p.name, stats := p.stats, dump := p.dump })
    (fun s w' => frontEnd o w.result.input data = .error s ∧ Reached w w') w := by
  unfold front frontEnd
  rw [wp_bind]
  refine wp_mono (wp_load hw) ?_ ?_
  · rintro tree w₁ ⟨hload, h₁, hresult₁⟩
    rw [hload, wp_bind]
    refine wp_mono (wp_generate h₁.quiet tree) ?_ ?_
    · rintro m w₂ ⟨hgen, h₂, hresult₂⟩
      refine wp_mono (wp_optimise h₂.quiet m) ?_ ?_
      · rintro m' w₃ ⟨p, hopt, rfl, h₃, hresult₃⟩
        refine ⟨p, ?_, rfl, (h₁.trans h₂).trans h₃, ?_⟩
        · show Except.mapError _ _ >>= _ = _
          rw [hgen]
          show Except.mapError _ _ = _
          rw [hopt]
          rfl
        · rw [hresult₃, hresult₂, hresult₁, name_of_optimised hopt]
      · rintro s w' ⟨f, hopt, rfl, hw'⟩
        refine ⟨?_, 3, (h₁.trans h₂).trans hw'⟩
        show Except.mapError _ _ >>= _ = _
        rw [hgen]
        show Except.mapError _ _ = _
        rw [hopt]
        rfl
    · rintro s w' ⟨f, hgen, rfl, hw'⟩
      refine ⟨?_, 2, h₁.trans hw'⟩
      show Except.mapError _ _ >>= _ = _
      rw [hgen]
      rfl
  · rintro s w' ⟨hload, hw'⟩
    rw [hload]
    exact ⟨rfl, 1, hw'⟩

theorem wp_lower (hw : Quiet w) (m : Ir.Module) : wp (lower o parent m)
    (fun _ w' => ∃ listing, lowered o m = .ok listing ∧ Entered w [.lower] w' ∧
      w'.result = { w.result with listing })
    (fun s w' => ∃ f, lowered o m = .error f ∧ s = stopped .lower f ∧ Entered w [.lower] w' ∧
      w'.result = w.result) w := by
  refine wp_enter hw _ fun w₁ h₁ hresult => ?_
  rw [wp_bind]
  refine wp_timed fun watch hwatch => ?_
  rw [wp_bind, wp_get]
  have hruns := (Listing.casts_lower 0 { builder := { module := m }, target := o.target }).trans
    (Listing.casts_lower parent { builder := { module := m }, target := o.target,
                                  tracer := watch.tracer }).symm
  unfold lowered
  dsimp only
  revert hruns
  generalize StateT.run (ExceptT.run (Listing.lower parent)) _ = r
  generalize StateT.run (ExceptT.run (Listing.lower 0)) _ = r₀
  obtain ⟨outcome, run⟩ := r
  obtain ⟨outcome₀, run₀⟩ := r₀
  intro hruns
  obtain rfl : outcome₀ = outcome := congrArg Prod.fst hruns
  have h₂ : Entered w [.lower] { w₁ with watch := { watch with tracer := run.tracer } } :=
    h₁.watched ⟨hwatch.trap, hwatch.events⟩ rfl
  rw [wp_bind, wp_modify, wp_bind, ← hresult]
  refine wp_attempt (fun out hok => ?_) fun f hf => ?_
  · subst hok
    exact fun watch' hwatch' => ⟨_, rfl, h₂.watched hwatch' rfl, rfl⟩
  · subst hf
    exact fun watch' hwatch' => ⟨f, rfl, rfl, h₂.watched hwatch' rfl, rfl⟩

/-- Listings are made on demand, and for the cache. -/
def lists (o : Options) : Bool := o.listing || o.store.isSome

/-- The work on an input that is not served from the cache. -/
def remaining (o : Options) (data : Text) (parent : UInt64) (hit : Option Cache.Entry) :
    Job Next := do
  let m ← front o data parent
  compareWith hit
  if lists o then lower o parent m
  let r := (← get).result
  return .store (if hit.isSome then none else some (.new r.module o.level.name r.dump r.listing))

theorem compileWith_none : compileWith o data parent (.ok none) = remaining o data parent none := by
  unfold compileWith remaining front
  simp only [bind_assoc]
  rfl

/-! ### The end of a job -/

def resultOf (input : Text) : Except Stop Unit × Work → Result
  | (.ok (), w) => w.result
  | (.error (.failed _ p), w) => { w.result with problem := some p }
  | (.error (.crashed c), _) => crashResult input c

theorem result_settle_error {span : Span} (hw : Quiet w) (input : Text) (s : Stop) :
    resultOf input ((settle span (.error s)).run.run w) = resultOf input (.error s, w) := by
  rcases s with ⟨stage, p⟩ | c
  · refine of_wp (P := fun r => resultOf input r = _) ?_
    unfold settle ending fail
    rw [wp_tryCatch, wp_bind, wp_bind, Job.modifyResult, wp_modify, wp_bind]
    exact wp_tell (w := { w with result := { w.result with problem := some p } }) hw _ _ rfl
  · rfl

theorem result_afterStore {span : Span} (hw : Quiet w) (input : Text) :
    resultOf input (afterStore span (.ok ()) w) = w.result := by
  unfold afterStore
  exact of_wp (P := fun r => resultOf input ((settle span r.1).run.run r.2) = w.result)
    (wp_tell hw _ _ rfl)

end Stages

end Midlevel.Pipeline
