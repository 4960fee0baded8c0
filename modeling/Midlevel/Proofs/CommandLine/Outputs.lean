import Midlevel.CommandLine.Compile
import Midlevel.Proofs.Pipeline.Stories

/-!
Where results are written. The file of a result is named after the last part of its input, so inputs
of one name share a file, and what is left in it is the result that was written last.
-/

namespace Midlevel.CommandLine

open Files Session
open Pipeline (Options Result Observers)

variable {F : Type} {content : F → Text → Option Text}

def Emit.pathIn (e : Emit) (dir : Text) (r : Result) : Text := Path.join [dir, e.fileName r.input]

/-- The session goes on as `s'`, and the disk has become `d'`. -/
def Ends {α : Type} (x : InSession (StateM F) α) (s : Session) (d : F) (a : α) (s' : Session)
    (d' : F) : Prop :=
  StateT.run (x.run.run s) d = ((.ok a, s'), d')

/-- The disk that is left behind, by failures too. -/
def diskAfter {α : Type} (x : InSession (StateM F) α) (s : Session) (d : F) : F :=
  (StateT.run (x.run.run s) d).2

section Ends

variable {α β : Type} {x : InSession (StateM F) α} {f : α → InSession (StateM F) β}
variable {s s₁ s₂ : Session} {d d₁ d₂ : F} {a : α} {b : β}

theorem Ends.run_bind (hx : Ends x s d a s₁ d₁) :
    StateT.run ((x >>= f).run.run s) d = StateT.run ((f a).run.run s₁) d₁ := by
  unfold Ends at hx
  rw [ExceptT.run_bind, StateT.run_bind, StateT.run_bind, hx]
  rfl

theorem Ends.bind (hx : Ends x s d a s₁ d₁) (hf : Ends (f a) s₁ d₁ b s₂ d₂) :
    Ends (x >>= f) s d b s₂ d₂ := hx.run_bind.trans hf

theorem Ends.diskAfter_bind (hx : Ends x s d a s₁ d₁) :
    diskAfter (x >>= f) s d = diskAfter (f a) s₁ d₁ := congrArg Prod.snd hx.run_bind

theorem ends_get (s : Session) (d : F) : Ends get s d s s d := rfl

theorem ends_need (a : α) (s : Session) (d : F) : Ends (need (.ok a)) s d a s d := rfl

theorem ends_onFiles {x : StateM F α} (s : Session) (h : x.run d = (a, d₁)) :
    Ends (onFiles x) s d a s d₁ :=
  congrArg (fun y : α × F => ((Except.ok y.1, s), y.2)) h

end Ends

/-- What `results` leave in `dir`: the file of a result has its text unless a later result has the
same file, and other files stay as they are. -/
structure Written (content : F → Text → Option Text) (e : Emit) (dir : Text)
    (results : List Result) (d d' : F) : Prop where
  own : ∀ pre r post, results = pre ++ r :: post → r.problem = none →
    (∀ r' ∈ post, r'.problem = none → e.pathIn dir r' ≠ e.pathIn dir r) →
      content d' (e.pathIn dir r) = some (e.textOf r)
  others : ∀ p, (∀ r ∈ results, r.problem = none → e.pathIn dir r ≠ p) →
    content d' p = content d p

variable [Files (StateM F)]

theorem ends_writeFile (hmap : MapLike content) (e : Emit) (dir : Text) (r : Result) (s : Session)
    (d : F) : ∃ d', Ends (writeFile dir e r) s d () s d' ∧
      content d' = overwrite (content d) (e.pathIn dir r) (e.textOf r) := by
  obtain ⟨d₁, hdirs, hsame⟩ := hmap.makeDirs d dir
  obtain ⟨d₂, hwrite, hcontent⟩ := hmap.write d₁ (e.pathIn dir r) (e.textOf r)
  exact ⟨d₂, (ends_onFiles s hdirs).bind ((ends_onFiles s hwrite).bind rfl), hsame ▸ hcontent⟩

theorem ends_writeResults (hmap : MapLike content) {e : Emit} (he : e ≠ .nothing) {dir : Text}
    (hdir : dir ≠ []) (results : List Result) (s : Session) (d : F) :
    ∃ d', Ends (writeResults e dir results) s d () s d' ∧
      Written content e dir results d d' := by
  unfold writeResults
  simp only [if_neg he, if_neg hdir]
  induction results generalizing d with
  | nil => exact ⟨d, rfl, by simp, fun _ _ => rfl⟩
  | cons r rs ih =>
    rw [List.forIn_cons]
    by_cases hr : r.problem = none
    · obtain ⟨d₁, hfile, hcontent⟩ := ends_writeFile hmap e dir r s d
      obtain ⟨d', hrest, hown, hothers⟩ := ih d₁
      refine ⟨d', ?_, fun pre r' post hsplit hr' hlater => ?_, fun p hp => ?_⟩
      · simp only [hr, Option.isNone_none, if_true, bind_assoc, pure_bind]
        exact hfile.bind hrest
      · cases pre with
        | nil =>
          obtain ⟨rfl, rfl⟩ := List.cons.inj hsplit
          rw [hothers _ hlater, hcontent, overwrite, if_pos rfl]
        | cons _ pre => exact hown pre r' post (List.cons.inj hsplit).2 hr' hlater
      · rw [List.forall_mem_cons] at hp
        rw [hothers p hp.2, hcontent, overwrite, if_neg (hp.1 hr).symm]
    · obtain ⟨d', hrest, hown, hothers⟩ := ih d
      refine ⟨d', ?_, fun pre r' post hsplit hr' => ?_,
        fun p hp => hothers p (List.forall_mem_cons.mp hp).2⟩
      · simpa only [Option.isNone_iff_eq_none, if_neg hr, bind_assoc, pure_bind] using hrest
      · cases pre with
        | nil => exact absurd ((List.cons.inj hsplit).1 ▸ hr') hr
        | cons _ pre => exact hown pre r' post (List.cons.inj hsplit).2 hr'

/-! ### The commands -/

/-- Who listens to the pipeline. -/
def Session.observers (s : Session) : Observers where
  tracer := s.tracer
  timer := if s.given.toggle "timings" then some {} else none

/-- The pipeline gives every input a result and leaves the disk `d'`. -/
structure Compiles (s : Session) (o : Options) (inputs : List Text) (d : F)
    (results : List Result) (d' : F) : Prop where
  inputs_eq : results.map (·.input) = inputs
  run : ∃ watch, Pipeline.onFiles (Pipeline.run inputs o false) s.observers d =
    ((.ok results, watch), d')

theorem exists_compiles (s : Session) (o : Options) (inputs : List Text) (d : F) :
    ∃ results d', Compiles s o inputs d results d' := by
  obtain ⟨jobs, watch, d', hrun, hjobs⟩ :=
    Pipeline.run_concurrent inputs o (show s.observers.trap = none from rfl) d
  refine ⟨_, d', ?_, watch, hrun⟩
  rw [← hjobs.inputs_eq, List.map_map]
  exact List.map_congr_left fun t ht => (hjobs.possible t ht).story.1

omit [Files (StateM F)] in
theorem exists_ends_showTrace (s : Session) (d : F) : ∃ s', Ends showTrace s d () s' d := by
  unfold showTrace Ends
  rw [(ends_get s d).run_bind]
  split <;> exact ⟨_, rfl⟩

omit [Files (StateM F)] in
theorem exists_ends_reportProblems (results : List Result) (s : Session) (d : F) :
    ∃ s', Ends (reportProblems results) s d () s' d := by
  unfold reportProblems
  dsimp only
  split <;> exact ⟨_, rfl⟩

omit [Files (StateM F)] in
theorem diskAfter_complaint {P : F → Prop} {c : Prop} [Decidable c] {text : Text} {s : Session}
    {d : F} {f : Unit → InSession (StateM F) Unit} (h : ∀ s, P (diskAfter (f ()) s d)) :
    P (diskAfter (if c then complain text >>= f else f ()) s d) := by
  split
  · exact h { s with console := s.console.complain text }
  · exact h s

/-- Results are all that a command writes once the pipeline has run. -/
theorem written_execute (hmap : MapLike content) {e : Emit} (he : e ≠ .nothing) {dir : Text}
    (hdir : dir ≠ []) {s : Session} (hgiven : s.given.text? "output" = some dir) {o : Options}
    {inputs : List Text} {d d₁ : F} {results : List Result}
    (h : Compiles s o inputs d results d₁) (title : Text) :
    Written content e dir results d₁ (diskAfter (execute title inputs e o) s d) := by
  obtain ⟨watch, hrun⟩ := h.run
  have hpipeline := ends_onFiles s hrun
  have hset : Ends (modify fun s => { s with tracer := watch.tracer }) s d₁ ()
      { s with tracer := watch.tracer } d₁ := rfl
  obtain ⟨s₁, htrace⟩ := exists_ends_showTrace { s with tracer := watch.tracer } d₁
  unfold execute
  rw [(ends_get s d).diskAfter_bind]
  show Written content e dir results d₁ (diskAfter
    (onFiles ((Pipeline.run inputs o false).run s.observers) >>= _) s d)
  rw [hpipeline.diskAfter_bind, hset.diskAfter_bind, htrace.diskAfter_bind, hgiven,
    Option.getD_some]
  refine diskAfter_complaint (P := Written content e dir results d₁) fun s₂ => ?_
  obtain ⟨d₂, hwrite, hwritten⟩ := ends_writeResults hmap he hdir results s₂ d₁
  obtain ⟨s₃, hreport⟩ := exists_ends_reportProblems results s₂ d₂
  rw [show Except.mapError _ (.ok results) = .ok results from rfl,
    (ends_need results s₂ d₁).diskAfter_bind, hwrite.diskAfter_bind, hreport.diskAfter_bind]
  -- What follows only talks, or fails with the number of failures.
  cases watch.timer <;> dsimp only <;> split <;> exact hwritten

theorem ends_openCache (hmap : MapLike content) (s : Session) (d : F) :
    ∃ store d', Ends openCache s d store s d' ∧ content d' = content d := by
  obtain ⟨d', hdirs, hsame⟩ := hmap.makeDirs d s.settings.cache.dir
  have hopen : (Cache.Store.openAt s.settings.cache.dir : StateM F _).run d =
      (.ok ⟨s.settings.cache.dir⟩, d') := by
    unfold Cache.Store.openAt
    rw [StateT.run_bind, hdirs]
    rfl
  exact ⟨_, d', (ends_get s d).bind ((ends_onFiles s hopen).bind rfl), hsame⟩

section Commands

variable (hmap : MapLike content) {e : Emit} (he : e ≠ .nothing) {dir : Text} (hdir : dir ≠ [])
variable {s : Session} (hgiven : s.given.text? "output" = some dir) (inputs : List Text) (d : F)
include hmap he hdir hgiven

theorem written_dump {o : Options} (ho : compileOptions s.given s.settings = .ok (e, o)) :
    ∃ results d₁, Compiles s { o with level := .off } inputs d results d₁ ∧
      Written content e dir results d₁ (diskAfter (dump inputs) s d) := by
  obtain ⟨results, d₁, h⟩ := exists_compiles s { o with level := .off } inputs d
  refine ⟨results, d₁, h, ?_⟩
  unfold dump
  rw [(ends_get s d).diskAfter_bind, (ends_get s d).diskAfter_bind, ho,
    (ends_need (e, o) s d).diskAfter_bind]
  exact written_execute hmap he hdir hgiven h "dump"

/-- Opening the cache comes first, and is not seen in any file. -/
theorem written_optimise {settings : Config.Settings} {o : Options}
    (hsettings : Session.checked (withOptimiserFlags s.given s.settings) = .ok settings)
    (ho : compileOptions s.given settings = .ok (e, o)) :
    ∃ store d₀ results d₁, content d₀ = content d ∧
      Compiles s { o with store, checkReproducible := s.given.toggle "check-reproducible" }
        inputs d₀ results d₁ ∧
      Written content e dir results d₁ (diskAfter (optimise inputs) s d) := by
  have hruns (store : Option Cache.Store) (d₀ : F) := exists_compiles s
    { o with store, checkReproducible := s.given.toggle "check-reproducible" } inputs d₀
  unfold optimise
  rw [(ends_get s d).diskAfter_bind, (ends_get s d).diskAfter_bind, hsettings,
    (ends_need settings s d).diskAfter_bind, ho, (ends_need (e, o) s d).diskAfter_bind]
  dsimp only
  by_cases hcache : (settings.cache.enabled && !s.given.toggle "no-cache") = true
  · obtain ⟨store, d₀, hopen, hsame⟩ := ends_openCache hmap s d
    obtain ⟨results, d₁, h⟩ := hruns (some store) d₀
    refine ⟨some store, d₀, results, d₁, hsame, h, ?_⟩
    rw [if_pos hcache, map_eq_pure_bind, bind_assoc, hopen.diskAfter_bind, pure_bind]
    exact written_execute hmap he hdir hgiven h "opt"
  · obtain ⟨results, d₁, h⟩ := hruns none d
    refine ⟨none, d, results, d₁, rfl, h, ?_⟩
    rw [if_neg hcache, pure_bind]
    exact written_execute hmap he hdir hgiven h "opt"

end Commands

/-- Results are written to their files, and that is all that a command with a directory for them
writes once its pipeline has run. -/
theorem results_written (hmap : MapLike content) {e : Emit} (he : e ≠ .nothing) {dir : Text}
    (hdir : dir ≠ []) (s : Session) (d : F) :
    (∀ results, ∃ d', Ends (writeResults e dir results) s d () s d' ∧
      Written content e dir results d d') ∧
    (s.given.text? "output" = some dir → ∀ inputs,
      (∀ o, compileOptions s.given s.settings = .ok (e, o) →
        ∃ results d₁, Compiles s { o with level := .off } inputs d results d₁ ∧
          Written content e dir results d₁ (diskAfter (dump inputs) s d)) ∧
      ∀ settings o, Session.checked (withOptimiserFlags s.given s.settings) = .ok settings →
        compileOptions s.given settings = .ok (e, o) →
        ∃ store d₀ results d₁, content d₀ = content d ∧
          Compiles s { o with store, checkReproducible := s.given.toggle "check-reproducible" }
            inputs d₀ results d₁ ∧
          Written content e dir results d₁ (diskAfter (optimise inputs) s d)) :=
  ⟨fun results => ends_writeResults hmap he hdir results s d, fun hgiven inputs =>
    ⟨fun _ ho => written_dump hmap he hdir hgiven inputs d ho,
      fun _ _ hsettings ho => written_optimise hmap he hdir hgiven inputs d hsettings ho⟩⟩

/-- A session with a directory for results. -/
def outputting : Session where
  given := [("output", .text "out")]

def outputOptions : Options := { level := .high, target := .x86_64Linux }

theorem compileOptions_outputting :
    compileOptions outputting.given outputting.settings = .ok (.ir, outputOptions) := rfl

/-- A program and a library. -/
def twoInputs (a b : Text) : FileMap where
  content p := ([(a, { name := "a" }), (b, { name := "b", library := true })].lookup p).map
    Tree.Module.encode

/-- Both inputs compile, and what is printed of them differs. -/
theorem two_compiled {a b : Text} {results : List Result} {d₁ : FileMap}
    (h : Compiles outputting { outputOptions with level := .off } [a, b] (twoInputs a b)
      results d₁)
    (hchecked : Midlevel.checked (Pipeline.onFiles (Pipeline.run [a, b]
        { outputOptions with level := .off } false) outputting.observers (twoInputs a b)).1.1
      (fun rs => rs.all (·.problem.isNone) && decide (rs.map (·.dump.length)).Nodup) = true) :
    ∃ r r', results = [r, r'] ∧ r.input = a ∧ r'.input = b ∧ r.problem = none ∧
      r'.problem = none ∧ r.dump ≠ r'.dump := by
  obtain ⟨hinputs, watch, hrun⟩ := h
  rw [hrun] at hchecked
  obtain ⟨r, rs, rfl, hr, hrs⟩ := List.map_eq_cons_iff.mp hinputs
  obtain ⟨r', _, rfl, hr', hnil⟩ := List.map_eq_cons_iff.mp hrs
  obtain rfl := List.map_eq_nil_iff.mp hnil
  obtain ⟨⟨hfine, hfine'⟩, hlength⟩ : (r.problem = none ∧ r'.problem = none) ∧
      r.dump.length ≠ r'.dump.length := by
    simpa [Midlevel.checked] using hchecked
  exact ⟨r, r', rfl, hr, hr', hfine, hfine', fun h => hlength (congrArg List.length h)⟩

theorem pathIn_of_input {r : Result} {input path : Text} (h : r.input = input)
    (hpath : Path.join ["out", Emit.ir.fileName input] = path) :
    Emit.ir.pathIn "out" r = path := by
  rw [Emit.pathIn, h, hpath]

theorem distinct_stems_kept : ∃ r r' : Result, r.dump ≠ r'.dump ∧ (∃ d₁,
      Compiles outputting { outputOptions with level := .off } ["a/x.tast", "b/y.tast"]
        (twoInputs "a/x.tast" "b/y.tast") [r, r'] d₁) ∧
    let d := diskAfter (dump ["a/x.tast", "b/y.tast"]) outputting (twoInputs "a/x.tast" "b/y.tast")
    d.content "out/x.vir" = some r.dump ∧ d.content "out/y.vir" = some r'.dump := by
  obtain ⟨results, d₁, h, hown, -⟩ := ((results_written mapLike_fileMap (e := .ir) (by decide)
    (by decide : ("out" : Text) ≠ []) outputting (twoInputs "a/x.tast" "b/y.tast")).2 rfl
    ["a/x.tast", "b/y.tast"]).1 _ compileOptions_outputting
  obtain ⟨r, r', rfl, hr, hr', hfine, hfine', hne⟩ := two_compiled h (by decide +kernel)
  have hpath : Emit.ir.pathIn "out" r = "out/x.vir" := pathIn_of_input hr (by decide +kernel)
  have hpath' : Emit.ir.pathIn "out" r' = "out/y.vir" := pathIn_of_input hr' (by decide +kernel)
  have hx := hown [] r [r'] rfl hfine
  have hy := hown [r] r' [] rfl hfine' (by simp)
  rw [hpath] at hx
  rw [hpath'] at hy
  refine ⟨r, r', hne, ⟨d₁, h⟩, hx fun r'' hr'' _ => ?_, hy⟩
  rw [List.mem_singleton.mp hr'', hpath']
  decide +kernel

/-- Of two inputs with the same last part, the later one is left. -/
theorem same_stem_overwritten : ∃ r r' : Result, r.dump ≠ r'.dump ∧ (∃ d₁,
      Compiles outputting { outputOptions with level := .off } ["a/x.tast", "b/x.tast"]
        (twoInputs "a/x.tast" "b/x.tast") [r, r'] d₁) ∧
    (diskAfter (dump ["a/x.tast", "b/x.tast"]) outputting
      (twoInputs "a/x.tast" "b/x.tast")).content "out/x.vir" = some r'.dump := by
  obtain ⟨results, d₁, h, hown, -⟩ := written_dump mapLike_fileMap (e := .ir) (by decide)
    (by decide : ("out" : Text) ≠ []) rfl ["a/x.tast", "b/x.tast"]
    (twoInputs "a/x.tast" "b/x.tast") compileOptions_outputting
  obtain ⟨r, r', rfl, hr, hr', hfine, hfine', hne⟩ := two_compiled h (by decide +kernel)
  have hlast := hown [r] r' [] rfl hfine' (by simp)
  have hpath : Emit.ir.pathIn "out" r' = "out/x.vir" := pathIn_of_input hr' (by decide +kernel)
  rw [hpath] at hlast
  exact ⟨r, r', hne, ⟨d₁, h⟩, hlast⟩

end Midlevel.CommandLine
