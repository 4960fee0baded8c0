import Mathlib.Data.List.FinRange
import Midlevel.Layout.Basic
import Midlevel.Proofs.Files.Map
import Midlevel.Proofs.Pipeline.Outcome

/-!
What is told of an input while it is worked on.

Jobs tell their events one by one, and those of different jobs come in any order. While a job is at
work it has told its first stages in order and nothing else, and every way out adds one last event
that says how it ended. Since all events of a job name its input, the order in which jobs take turns
cannot be seen in what is told of one input.
-/

namespace Midlevel.Pipeline

open Trace Files List

variable (o : Options) (parent : UInt64)

/-- How an event ends the story of a result. -/
structure Ends (r : Result) (e : Event) : Prop where
  input : e.input = r.input
  terminal : e.status = .cached ∨ e.status = .done ∨ e.status = .error
  error : e.status = .error ↔ r.problem ≠ none
  cached : e.status = .cached ↔ r.cached = true

/-- What a job tells: stages in order, and how it ended. -/
def Story (input : Text) (r : Result) (es : List Event) : Prop :=
  r.input = input ∧ ∃ n e, es = working input (Stage.all.take n) ++ [e] ∧ Ends r e

/-! ### At work -/

section Job

variable {input data : Text} {watch : Observers} {w : Work} {o : Options} {parent : UInt64}
  (found : Except Cache.Failure (Option Cache.Entry))

abbrev opening (watch : Observers) (input : Text) : Work := { watch, result := { input } }

def Concluded (watch : Observers) (input : Text) (w : Work) : Prop :=
  Quiet w ∧ ∃ es, Story input w.result es ∧ w.watch.events = es.reverse ++ watch.events

/-- Where a job is before it stores its entry, if it has one. -/
def Paused (watch : Observers) (input : Text) : Next → Work → Prop
  | .served => Concluded watch input
  | .store _ => Reached (opening watch input)

namespace Reached

variable (h : Reached (opening watch input) w)
include h

theorem problem_eq : w.result.problem = none := by
  obtain ⟨_, h⟩ := h
  exact congrArg (·.2.1) h.standing

theorem cached_eq : w.result.cached = false := by
  obtain ⟨_, h⟩ := h
  exact congrArg (·.2.2) h.standing

theorem wp_last {E : Stop → Work → Prop} {r : Result} {stage : Stage} {status : Status}
    (hr : r.input = w.result.input)
    (he : Ends r { input := r.input, stage, status }) :
    wp (Job.emit stage status) (fun _ => Concluded watch input) E { w with result := r } := by
  obtain ⟨n, h⟩ := h
  refine wp_tell ?_ _ _ ⟨?_, working input (Stage.all.take n) ++ [_],
    ⟨hr.trans h.input_eq, n, _, rfl, he⟩, ?_⟩
  · exact h.quiet
  · exact h.quiet
  · rw [reverse_append]
    exact congrArg _ h.events

theorem wp_error {E : Stop → Work → Prop} (stage : Stage) (p : Problem) :
    wp (Job.emit stage .error) (fun _ => Concluded watch input) E
    { w with result := { w.result with problem := some p } } :=
  wp_last h rfl ⟨rfl, .inr (.inr rfl), by simp, by simp [cached_eq h]⟩

end Reached

theorem wp_remaining (hit : Option Cache.Entry) (hw : Entered (opening watch input) [] w) :
    wp (remaining o data parent hit) (Paused watch input)
    (fun _ => Reached (opening watch input)) w := by
  refine (wp_bind ..).mpr (wp_mono (wp_front hw.quiet) ?_ fun _ _ ⟨_, n, h⟩ => ⟨n, hw.trans h⟩)
  rintro m w₁ ⟨p, -, rfl, h, -⟩
  have h₁ := hw.trans h
  have hcompare : wp (compareWith hit) (fun _ => (· = w₁)) (fun _ => (· = w₁)) w₁ := by
    unfold compareWith
    rcases hit with _ | e
    · rfl
    · rw [wp_bind, wp_get]
      split <;> rfl
  refine (wp_bind ..).mpr (wp_mono hcompare ?_ fun _ _ hsame => ⟨3, hsame ▸ h₁⟩)
  rintro - _ rfl
  dsimp only
  rw [wp_ite]
  refine ⟨fun _ => ?_, fun _ => ⟨3, h₁⟩⟩
  refine (wp_bind ..).mpr (wp_mono (wp_lower h₁.quiet p.module) ?_ fun _ _ ⟨_, _, _, h, _⟩ =>
    ⟨4, h₁.trans h⟩)
  exact fun _ _ ⟨_, _, h, _⟩ => ⟨4, h₁.trans h⟩

/-- All the stages are told in order, as far as the job gets. -/
theorem wp_compileWith (hw : Entered (opening watch input) [] w) :
    wp (compileWith o data parent found) (Paused watch input)
    (fun _ => Reached (opening watch input)) w := by
  have hstart : Reached (opening watch input) w := ⟨0, hw⟩
  rcases found with f | hit
  · exact hstart
  · have hremaining : wp (remaining o data parent hit) _ _ w := wp_remaining hit hw
    unfold remaining front at hremaining
    simp only [bind_assoc] at hremaining
    rcases hit with _ | e
    · exact hremaining
    · unfold compileWith
      dsimp only
      split
      · next e _ _ =>
        rw [wp_bind, Job.modifyResult, wp_modify, wp_bind]
        exact hstart.wp_last rfl ⟨rfl, .inl rfl, by simp [hstart.problem_eq], by simp⟩
      · exact hremaining

/-! ### The end of a job -/

/-- How a job can have ended. -/
def Finished (watch : Observers) (input : Text) : Except Stop Unit × Work → Prop
  | (.ok (), w) => Concluded watch input w
  | (.error (.crashed _), w) => Reached (opening watch input) w
  | (.error (.failed ..), _) => False

/-- How a job can stand once its lookup was answered. -/
def Underway (watch : Observers) (input : Text) : Halfway → Prop
  | .ended r => Finished watch input r
  | .storing _ _ w => Reached (opening watch input) w

theorem finished_error (span : Span) (s : Stop) (h : Reached (opening watch input) w) :
    Finished watch input ((settle span (.error s)).run.run w) := by
  rcases s with ⟨stage, p⟩ | c
  · refine of_wp (P := Finished watch input) ?_
    unfold settle ending fail
    rw [wp_tryCatch, wp_bind, wp_bind, Job.modifyResult, wp_modify, wp_bind]
    exact h.wp_error stage p
  · obtain ⟨n, h⟩ := h
    exact ⟨n, h.quiet, h.events, h.standing⟩

theorem finished_afterStore (span : Span) (stored : Except Cache.Failure Unit)
    (h : Reached (opening watch input) w) :
    Finished watch input (afterStore span stored w) := by
  unfold afterStore
  rcases stored with f | _
  · exact finished_error span _ h
  · refine of_wp (P := fun r => Finished watch input ((settle span r.1).run.run r.2)) ?_
    exact h.wp_last rfl ⟨rfl, .inr (.inl rfl), by simp [h.problem_eq], by simp [h.cached_eq]⟩

theorem underway_afterLookup (hwatch : watch.trap = none) :
    Underway watch input (afterLookup o data parent found (opening watch input)) := by
  have hbegun : Entered (opening watch input) [] (begun parent (opening watch input)).2 :=
    ⟨hwatch, rfl, rfl⟩
  refine of_wp (P := fun r => Underway watch input (halfway _ r))
    (wp_mono (wp_compileWith found hbegun) ?_ fun s _ h => finished_error _ s h)
  rintro (_ | e) w h
  · exact h
  · exact h

end Job

/-! ### Jobs on a disk -/

/-- What becomes of the observers and the files when `x` runs. -/
def onFiles {F α : Type} (x : StateT Observers (StateM F) α) (watch : Observers) (files : F) :
    (α × Observers) × F :=
  (x.run watch).run files

section Disk

variable {F : Type} [Files (StateM F)] {input : Text} {watch : Observers}

theorem finished_compile (data : Text) (parent : UInt64) (hwatch : watch.trap = none) (files : F) :
    Finished watch input
    (((compile o data parent : DiskJob (StateM F) Unit).run.run (opening watch input)).run
    files).1 := by
  rw [compile_eq_steps, StateT.run_bind]
  rcases (lookup o (keyOf o data) : StateM F _).run files with ⟨found, files'⟩
  show Finished watch input (StateT.run (m := Id) _ files').1
  dsimp only
  have hunderway : Underway watch input (afterLookup o data parent found _) :=
    underway_afterLookup found hwatch
  rcases hafter : afterLookup o data parent found (opening watch input) with r | ⟨span, e, w⟩
  · rw [hafter] at hunderway
    exact hunderway
  · rw [hafter] at hunderway
    exact finished_afterStore span _ hunderway

theorem finished_readAndCompile (hwatch : watch.trap = none) (files : F) : Finished watch input
      (((readAndCompile o parent input : DiskJob (StateM F) Unit).run.run (opening watch input)).run
      files).1 := by
  unfold readAndCompile
  rw [run_bind_disk, run_onDisk]
  simp only [bind_assoc, pure_bind]
  rw [StateT.run_bind]
  rcases (Files.read input : StateM F _).run files with ⟨e | data, files'⟩
  · show Finished watch input (StateT.run (m := Id) _ files').1
    dsimp only
    rw [run_bind_disk, run_pure_, pure_bind]
    show Finished watch input
      (StateT.run (m := Id) (((pure_ (Job.emit .load .error) : DiskJob (StateM F) Unit).run.run
      { watch, result := { input, problem := some (.error e.toError) } })) files').1
    rw [run_pure_]
    have hstart : Reached (opening watch input) (opening watch input) := ⟨0, hwatch, rfl, rfl⟩
    exact of_wp (P := Finished watch input) (hstart.wp_error ..)
  · exact finished_compile o data parent hwatch files'

/-- What `runJob` makes of the end of a job. -/
def reported (input : Text) : Except Stop Unit × Work → Result × Observers
  | (.ok (), w) => (w.result, w.watch)
  | (.error (.failed _ p), w) => ({ w.result with problem := some p }, w.watch)
  | (.error (.crashed c), w) => (crashResult input c,
      { w.watch with events := { input, stage := .optimise, status := .error } :: w.watch.events })

theorem Finished.story {r : Except Stop Unit × Work} (h : Finished watch input r) :
    ∃ es, Story input (reported input r).1 es ∧ (reported input r).2.events = es.reverse ++
      watch.events ∧
      (reported input r).2.trap = none := by
  obtain ⟨(⟨stage, p⟩ | c) | _, w⟩ := r
  · exact h.elim
  · obtain ⟨n, hw⟩ := h
    refine ⟨working input (Stage.all.take n) ++ [{ input, stage := .optimise, status := .error }],
      ⟨rfl, n, _, rfl, rfl, .inr (.inr rfl), ?_, ?_⟩, ?_, hw.quiet⟩
    · simp [reported, crashResult]
    · simp [reported, crashResult]
    · rw [reverse_append]
      exact congrArg _ hw.events
  · obtain ⟨hquiet, es, hstory, hevents⟩ := h
    exact ⟨es, hstory, hevents, hquiet⟩

theorem onFiles_runJob (input : Text) (watch : Observers) (files : F) :
    onFiles (runJob o false parent input) watch files =
      let r := ((readAndCompile o parent input : DiskJob (StateM F) Unit).run.run
      (opening watch input)).run files
      (reported input r.1, r.2) := by
  unfold onFiles runJob
  simp only [Bool.false_eq_true, if_false, StateT.run_bind, StateT.run_get, pure_bind]
  rw [show StateT.run (liftM _) watch = _ from StateT.run_lift _ watch, StateT.run_bind]
  generalize StateT.run (m := Id)
    ((ExceptT.run (readAndCompile o parent input)).run (opening watch input)) files = r
  rcases r with ⟨⟨(⟨stage, p⟩ | c) | _, w⟩, files'⟩ <;> rfl

/-- A job tells one story, whatever its files hold and whoever else uses them. -/
theorem story_runJob (input : Text) {watch : Observers} (hwatch : watch.trap = none)
    (files : F) : ∃ r watch' files' es, onFiles (runJob o false parent input) watch files =
      ((r, watch'), files') ∧
      Story input r es ∧ watch'.events = es.reverse ++ watch.events ∧ watch'.trap = none := by
  obtain ⟨es, hes⟩ := (finished_readAndCompile o parent hwatch files).story
  exact ⟨_, _, _, es, onFiles_runJob o parent input watch files, hes⟩

end Disk

/-! ### Jobs that take turns -/

/-- An input, what came of it and what its job told. -/
structure Told where
  input : Text
  result : Result
  events : List Event

/-- What a job can tell, whatever its files hold and whoever else uses them. -/
def Told.Possible (o : Options) (t : Told) : Prop :=
  ∃ (F : Type) (_ : Files (StateM F)) (files files' : F) (parent : UInt64)
    (watch watch' : Observers), watch.trap = none ∧ onFiles (runJob o false parent t.input) watch files =
      ((t.result, watch'), files') ∧
    watch'.events = t.events.reverse ++ watch.events

def queued (input : Text) : Event := { input, stage := .load, status := .queued }

/-- A run on several inputs at once. All inputs are announced; then their jobs run, each tells its
events in order, and who is next is open. -/
structure Concurrent {F : Type} (o : Options) (inputs : List Text) (watch : Observers) (files : F)
    (jobs : List Told)
    (turns : List (Fin jobs.length × Event)) (watch' : Observers) : Prop where
  inputs_eq : jobs.map (·.input) = inputs
  possible : ∀ t ∈ jobs, t.Possible o
  events : ∀ k, (turns.filter (·.1 = k)).map Prod.snd = (jobs.get k).events
  log : ∃ announced, onFiles (announce inputs) watch files = ((none, announced), files) ∧
    watch'.events = (turns.map Prod.snd).reverse ++ announced.events

/-- Of each input that occurs once it is told that it is queued, and then the story of its
result. -/
def Stories (inputs : List Text) (results : List Result) (told : List Event) : Prop :=
  results.length = inputs.length ∧ ∀ (i : Nat) input r, inputs[i]? = some input →
    results[i]? = some r →
    (∀ j : Nat, inputs[j]? = some input → j = i) →
      ∃ es, told.filter (·.input = input) = queued input :: es ∧ Story input r es

theorem Told.Possible.story {o : Options} {t : Told} (h : t.Possible o) :
    Story t.input t.result t.events := by
  obtain ⟨F, _, files, files', parent, watch, watch', hwatch, hrun, hevents⟩ := h
  obtain ⟨r, watch₁, files₁, es, hrun', hstory, htold, -⟩ :=
    story_runJob o parent t.input hwatch files
  cases hrun.symm.trans hrun'
  obtain rfl : es = t.events := by simpa using htold.symm.trans hevents
  exact hstory

theorem Story.input_eq {input : Text} {r : Result} {es : List Event} (h : Story input r es)
    {e : Event} (he : e ∈ es) :
    e.input = input := by
  obtain ⟨hinput, n, last, rfl, hends⟩ := h
  rcases mem_append.mp he with he | he
  · obtain ⟨stage, -, rfl⟩ := mem_map.mp he
    rfl
  · rw [mem_singleton.mp he, hends.input, hinput]

theorem filter_finRange {n : Nat} (i : Fin n) : (finRange n).filter (· = i) = [i] := by
  rw [filter_eq, (nodup_finRange n).count, if_pos (mem_finRange i)]
  rfl

/-! ### The pipeline itself -/

section Run

variable {F : Type} {watch : Observers} (jobs : List Told) (inputs : List Text)

theorem onFiles_bind {α β : Type} (x : StateT Observers (StateM F) α)
    (f : α → StateT Observers (StateM F) β)
    (watch : Observers) (files : F) : onFiles (x >>= f) watch files =
      onFiles (f (onFiles x watch files).1.1) (onFiles x watch files).1.2
      (onFiles x watch files).2 := rfl

theorem onFiles_announce (hwatch : watch.trap = none) (files : F) :
    onFiles (announce inputs) watch files =
      ((none, { watch with events := (inputs.map queued).reverse ++ watch.events }), files) := by
  induction inputs generalizing watch with
  | nil => rfl
  | cons input inputs ih =>
    have htell : onFiles
      (modifyGet (·.tell { input, stage := .load, status := .queued })) watch files =
        ((none, { watch with events := queued input :: watch.events }), files) := by
      show (watch.tell (queued input), files) = _
      unfold Observers.tell
      dsimp only
      rw [hwatch]
    unfold announce
    rw [onFiles_bind, htell]
    refine (@ih { watch with events := queued input :: watch.events } hwatch).trans ?_
    simp

theorem Concurrent.stories {o : Options} {jobs : List Told}
    {turns : List (Fin jobs.length × Event)} {files : F}
    {watch' : Observers} (hwatch : watch.trap = none)
    (h : Concurrent o inputs watch files jobs turns watch') :
    ∃ told, watch'.events = told.reverse ++ watch.events ∧ Stories inputs
    (jobs.map (·.result)) told := by
  obtain ⟨announced, hannounced, hlog⟩ := h.log
  rw [onFiles_announce inputs hwatch] at hannounced
  obtain rfl := congrArg (·.1.2) hannounced
  refine ⟨inputs.map queued ++ turns.map Prod.snd, by simp [hlog], by simp [← h.inputs_eq], ?_⟩
  intro i input r hinput hr honce
  obtain ⟨hi, rfl⟩ : ∃ hi : i < jobs.length, jobs[i].input = input := by
    simpa [← h.inputs_eq, getElem?_eq_some_iff] using hinput
  obtain rfl : jobs[i].result = r := by simpa [hi] using hr
  have honce (k : Fin jobs.length) (hk : (jobs.get k).input = jobs[i].input) : k = ⟨i, hi⟩ :=
    Fin.ext (honce k (by simpa [← h.inputs_eq] using hk))
  have hstory (k : Fin jobs.length) := (h.possible _ (get_mem jobs k)).story
  refine ⟨jobs[i].events, ?_, hstory ⟨i, hi⟩⟩
  have hqueued : (inputs.map queued).filter (·.input = jobs[i].input) = [queued jobs[i].input] := by
    have hall : inputs.map queued = (finRange jobs.length).map fun k =>
        queued (jobs.get k).input := by
      rw [← h.inputs_eq, map_map]
      nth_rewrite 1 [← map_get_finRange jobs]
      rw [map_map]
      rfl
    have hsame : ∀ k ∈ finRange jobs.length,
        decide ((queued (jobs.get k).input).input = jobs[i].input) =
            decide (k = ⟨i, hi⟩) := fun k _ =>
      decide_eq_decide.mpr ⟨honce k, fun hk => hk ▸ rfl⟩
    rw [hall, filter_map]
    exact congrArg _ ((filter_congr hsame).trans (filter_finRange _))
  have hturns : (turns.map Prod.snd).filter (·.input = jobs[i].input) = jobs[i].events := by
    refine .trans ?_ (h.events ⟨i, hi⟩)
    rw [filter_map]
    refine congrArg _ (filter_congr fun x hx => decide_eq_decide.mpr ?_)
    have hin : x.2 ∈ (jobs.get x.1).events := by
      rw [← h.events]
      exact mem_map_of_mem (mem_filter.mpr ⟨hx, decide_eq_true rfl⟩)
    rw [(hstory x.1).input_eq hin]
    exact ⟨honce x.1, fun hk => hk ▸ rfl⟩
  rw [filter_append, hqueued, hturns]
  rfl

variable [Files (StateM F)]

theorem onFiles_jobs (o : Options) (parent : UInt64) (hwatch : watch.trap = none) (files : F) :
    ∃ jobs : List Told, ∃ watch' files', onFiles (inputs.mapM (runJob o false parent)) watch files =
        ((jobs.map (·.result), watch'), files') ∧ jobs.map (·.input) = inputs ∧
        (∀ t ∈ jobs, t.Possible o) ∧
      watch'.events = (jobs.flatMap (·.events)).reverse ++ watch.events := by
  induction inputs generalizing watch files with
  | nil => exact ⟨[], watch, files, rfl, rfl, by simp, rfl⟩
  | cons input inputs ih =>
    obtain ⟨r, watch₁, files₁, es, hrun, hstory, hevents, htrap⟩ :=
      story_runJob o parent input hwatch files
    obtain ⟨jobs, watch₂, files₂, hruns, hinputs, hpossible, hlog⟩ := ih htrap files₁
    refine ⟨⟨input, r, es⟩ :: jobs, watch₂, files₂, ?_, by simp [hinputs], ?_, ?_⟩
    · rw [mapM_cons, onFiles_bind, hrun, onFiles_bind, hruns]
      rfl
    · rw [forall_mem_cons]
      exact ⟨⟨F, _, files, files₁, parent, watch, watch₁, hwatch, hrun, hevents⟩, hpossible⟩
    · simp [hlog, hevents]

/-- One job after the other. -/
def inTurn (jobs : List Told) : List (Fin jobs.length × Event) :=
  (finRange jobs.length).flatMap fun k => (jobs.get k).events.map (k, ·)

theorem filter_inTurn (k : Fin jobs.length) : ((inTurn jobs).filter (·.1 = k)).map Prod.snd =
    (jobs.get k).events:= by
  have hskip (ks : List (Fin jobs.length)) :
      ((ks.flatMap fun j => (jobs.get j).events.map (j, ·)).filter (·.1 = k)).map Prod.snd =
        (ks.filter (· = k)).flatMap fun j => (jobs.get j).events := by
    induction ks with
    | nil => rfl
    | cons j ks ih =>
      rw [flatMap_cons, filter_append, map_append, ih]
      by_cases hj : j = k <;> simp [hj, filter_map, Function.comp_def]
  rw [inTurn, hskip, filter_finRange, flatMap_singleton]

theorem map_inTurn : (inTurn jobs).map Prod.snd = jobs.flatMap (·.events) := by
  have hall := congrArg (flatMap (·.events)) (map_get_finRange jobs)
  rw [← hall, flatMap_map, inTurn, map_flatMap]
  simp [Function.comp_def]

/-- The pipeline takes one input after the other. -/
theorem run_concurrent (o : Options) (hwatch : watch.trap = none) (files : F) :
    ∃ jobs watch' files', onFiles (run inputs o false) watch files =
    ((.ok (jobs.map (·.result)), watch'), files') ∧
      Concurrent o inputs watch files jobs (inTurn jobs) watch' := by
  let span := (watch.tracer.begin .driver "pipeline" 0).1
  let watch₁ := { watch with tracer := (watch.tracer.begin .driver "pipeline" 0).2 }
  let watch₂ := { watch₁ with events := (inputs.map queued).reverse ++ watch.events }
  have hannounce := onFiles_announce inputs (show watch₁.trap = none from hwatch) files
  obtain ⟨jobs, watch', files', hruns, hinputs, hpossible, hlog⟩ :=
    onFiles_jobs inputs o span.anchor (show watch₂.trap = none from hwatch) files
  refine ⟨jobs, { watch' with tracer := watch'.tracer.finish span
                                (Text.ofNat inputs.length ++ " inputs") }, files', ?_,
    hinputs, hpossible, filter_inTurn jobs, _, onFiles_announce inputs hwatch files, ?_⟩
  · have hbegin : onFiles (beginSpan .driver "pipeline" 0) watch files =
      ((span, watch₁), files) := rfl
    unfold run
    rw [onFiles_bind, hbegin, onFiles_bind, hannounce]
    have hmap : onFiles (Except.ok <$> inputs.mapM (runJob o false span.anchor)) watch₂ files =
        (((.ok (jobs.map (·.result)) : Except Crash _), watch'), files') := by
      rw [map_eq_pure_bind, onFiles_bind, hruns]
      rfl
    show onFiles ((Except.ok <$> inputs.mapM (runJob o false span.anchor)) >>= _) watch₂ files = _
    rw [onFiles_bind, hmap]
    rfl
  · show watch'.events = _
    rw [hlog, map_inTurn]

/-- A run that nobody stops gives every input a result, and of each input that occurs once it tells
that it is queued and then the story of its result. It tells the same way when the jobs take turns
in any other order. -/
theorem progress_tells_story (o : Options) (hwatch : watch.trap = none) (files : F) :
    (∃ results watch' files' told, onFiles (run inputs o false) watch files =
      ((.ok results, watch'), files') ∧
      watch'.events = told.reverse ++ watch.events ∧ Stories inputs results told) ∧
    ∀ jobs turns watch', Concurrent o inputs watch files jobs turns watch' →
      ∃ told, watch'.events = told.reverse ++ watch.events ∧ Stories inputs
      (jobs.map (·.result)) told := by
  refine ⟨?_, fun jobs turns watch' h => h.stories inputs hwatch⟩
  obtain ⟨jobs, watch', files', hrun, h⟩ := run_concurrent inputs o hwatch files
  obtain ⟨told, hevents, hstories⟩ := h.stories inputs hwatch
  exact ⟨_, watch', files', told, hrun, hevents, hstories⟩

end Run

/-- Two inputs that cannot be read. -/
theorem missing_inputs_tell_stories :
    let o : Options := { level := .high, target := .x86_64Linux }
    (onFiles (run ["a", "b"] o false) {} FileMap.empty).1.2.events.reverse =
      [queued "a", queued "b", { input := "a", stage := .load, status := .error },
        { input := "b", stage := .load, status := .error }] ∧
    ∃ results watch' files' told, onFiles (run ["a", "b"] o false) {} FileMap.empty =
      ((.ok results, watch'), files') ∧
      watch'.events = told.reverse ∧ Stories ["a", "b"] results told := by
  intro o
  refine ⟨by decide +kernel, ?_⟩
  obtain ⟨results, watch', files', told, hrun, hevents, hstories⟩ :=
    (progress_tells_story ["a", "b"] o (show ({} : Observers).trap = none from rfl) FileMap.empty).1
  exact ⟨results, watch', files', told, hrun, by simpa using hevents, hstories⟩

end Midlevel.Pipeline
