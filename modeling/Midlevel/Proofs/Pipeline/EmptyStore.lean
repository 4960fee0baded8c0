import Midlevel.Layout.Basic
import Midlevel.Proofs.Files.Map
import Midlevel.Proofs.Pipeline.Outcome

/-!
What a cache changes before it has anything.

With a store a job lowers its module even when nobody asked for the listing, since the listing is
part of the entry. So the first run with a store comes to the same as a run that lists, in every
respect, and it comes to the same as a run that does neither unless lowering fails: a module that
the passes accept is then lost to a failure of a stage that the run without a store never enters.
-/

namespace Midlevel.Pipeline

open Trace Files

variable (o : Options) (s : Cache.Store)

section Missing

variable {F : Type} [Files (StateM F)]
variable {o : Options}
variable {files : F}

/-- The cache does not have the key and takes every entry for it. Without a store that is
always so. -/
def Misses (o : Options) (key : Cache.Digest) (files : F) : Prop :=
  ∃ files', (lookup o key : StateM F _).run files = (.ok none, files') ∧
    ∀ e, ((remember o key e : StateM F _).run files').1 = .ok ()

theorem misses_of_no_store (h : o.store = none) (key : Cache.Digest) (files : F) :
    Misses o key files := by
  refine ⟨files, ?_, fun e => ?_⟩
  · unfold lookup
    rw [h]
    rfl
  · unfold remember
    rw [h]
    rfl

theorem misses_of_absent {content : F → Text → Option Text} (hmap : MapLike content)
    {s : Cache.Store}
    (h : o.store = some s) {key : Cache.Digest} (habsent : content files (s.pathOf key) = none) :
    Misses o key files := by
  obtain ⟨files', hget, -⟩ := hmap.get_eq s key files
  rw [habsent] at hget
  refine ⟨files', ?_, fun e => ?_⟩
  · unfold lookup
    rw [h]
    exact hget
  · unfold remember
    rw [h]
    rcases e with _ | e
    · rfl
    · obtain ⟨_, hput, -⟩ := hmap.put_eq s key files' e
      exact congrArg Prod.fst hput

def resultOn (o : Options) (data : Text) (parent : UInt64) (input : Text) (watch : Observers)
    (files : F) : Result :=
  resultOf input (((compile o data parent : DiskJob (StateM F) Unit).run.run
    { watch, result := { input } }).run files).1

/-! ### The parts of a run that misses -/

/-- The end of a run whose entry is taken. -/
def taken : Halfway → Except Stop Unit × Work
  | .ended r => r
  | .storing span _ w => afterStore span (.ok ()) w

/-- A run whose key is missing and whose entry is taken. -/
def missRun (o : Options) (data : Text) (parent : UInt64) (w : Work) : Except Stop Unit × Work :=
  taken (afterLookup o data parent (.ok none) w)

theorem run_compile_of_misses {data : Text} (h : Misses o (keyOf o data) files)
    (parent : UInt64) (w : Work) :
    (((compile o data parent : DiskJob (StateM F) Unit).run.run w).run files).1 =
      missRun o data parent w := by
  obtain ⟨files', hlookup, hstored⟩ := h
  rw [compile_eq_steps, StateT.run_bind, hlookup]
  unfold missRun
  show (StateT.run (m := Id) _ files').1 = _
  rcases afterLookup o data parent (.ok none) w with r | ⟨span, e, w⟩
  · rfl
  · exact congrArg (afterStore span · w) (hstored e)

theorem resultOn_of_misses {data : Text} (h : Misses o (keyOf o data) files) (parent : UInt64)
    (input : Text)
    (watch : Observers) : resultOn o data parent input watch files =
      resultOf input (missRun o data parent { watch, result := { input } }) := by
  unfold resultOn
  rw [run_compile_of_misses h]

end Missing

theorem result_missRun {o : Options} {data : Text} {parent : UInt64} {w : Work} {input : Text}
    {r : Result} (h : wp
    (do
      let m ← front o data (begun parent w).1.anchor
      if lists o then lower o (begun parent w).1.anchor m)
    (fun _ w' => Quiet w' ∧ w'.result = r)
    (fun s w' => Quiet w' ∧ resultOf input (.error s, w') = r)
    (begun parent w).2) : resultOf input (missRun o data parent w) = r := by
  have herror (s : Stop) (w' : Work) (h : Quiet w' ∧ resultOf input (.error s, w') = r) :
      resultOf input ((settle (begun parent w).1 (.error s)).run.run w') = r :=
        (result_settle_error h.1 input s).trans h.2
  have hstore (w' : Work) (h : Quiet w' ∧ w'.result = r) :
      resultOf input (afterStore (begun parent w).1 (.ok ()) w') = r :=
        (result_afterStore h.1 input).trans h.2
  unfold missRun afterLookup
  rw [compileWith_none]
  refine of_wp (P := fun x => resultOf input (taken (halfway _ x)) = r) ?_
  refine (wp_bind ..).mpr (wp_mono ((wp_bind ..).mp h) (fun m w₁ h => ?_) herror)
  rw [show compareWith none = pure () from rfl, pure_bind]
  rw [wp_ite] at h ⊢
  exact ⟨fun hl => (wp_bind ..).mpr (wp_mono (h.1 hl) (fun _ w' => hstore w') herror),
    fun hl => hstore w₁ (h.2 hl)⟩

/-! ### Runs with and without a store -/

/-- A result without its listing, and the listing if there is one. -/
def withListing (r : Result) : Except Fault Text → Result
  | .ok listing => { r with listing }
  | .error (.error e) => { r with problem := some (.error e) }
  | .error (.crash c) => crashResult r.input c

/-- Two results say the same of their input, up to the listing. -/
def SameOutcome (r r' : Result) : Prop :=
  r.problem = r'.problem ∧ r.module = r'.module ∧ r.dump = r'.dump

/-- A run with a store goes as far as one without, and then lowers what that one ends with. -/
theorem missRun_stored (data : Text) (parent : UInt64) (input : Text)
    {watch : Observers} (hwatch : watch.trap = none) :
    let stored := resultOf input (missRun { o with listing := false, store := some s } data parent
      { watch, result := { input } })
    let plain := resultOf input (missRun { o with listing := false, store := none } data parent
      { watch, result := { input } })
    (∃ s, frontEnd o input data = .error s ∧ plain.problem ≠ none ∧ stored = plain) ∨
      ∃ p, frontEnd o input data = .ok p ∧ plain.problem = none ∧ plain.module = p.name ∧
        plain.dump = p.dump ∧
        stored = withListing plain (lowered o p.module) := by
  intro stored plain
  let start : Work := { watch, result := { input } }
  have hfront : wp (front o data (begun parent start).1.anchor) _ _ (begun parent start).2 :=
    wp_front hwatch
  rcases hrun : (front o data (begun parent start).1.anchor).run.run (begun parent start).2
    with ⟨stop | m, w⟩
  · obtain ⟨hend, n, hw⟩ := (wp_iff_of_error hrun).mp hfront
    have hplain : plain = resultOf input (.error stop, w) :=
      result_missRun ((wp_bind _ _).mpr ((wp_iff_of_error hrun).mpr ⟨hw.quiet, rfl⟩))
    have hstored : stored = resultOf input (.error stop, w) :=
      result_missRun ((wp_bind _ _).mpr ((wp_iff_of_error hrun).mpr ⟨hw.quiet, rfl⟩))
    refine .inl ⟨stop, hend, ?_, hstored.trans hplain.symm⟩
    rw [hplain]
    rcases stop with ⟨stage, p⟩ | c <;> exact Option.some_ne_none _
  · obtain ⟨p, hend, rfl, hw, hresult⟩ := (wp_iff_of_ok hrun).mp hfront
    have hplain : plain = { input, module := p.name, stats := p.stats, dump := p.dump } :=
      result_missRun ((wp_bind _ _).mpr ((wp_iff_of_ok hrun).mpr ⟨hw.quiet, hresult⟩))
    refine .inr ⟨p, hend, by rw [hplain], by rw [hplain], by rw [hplain], ?_⟩
    rw [hplain]
    refine result_missRun ((wp_bind _ _).mpr ((wp_iff_of_ok hrun).mpr ?_))
    refine wp_mono (wp_lower (o := o) hw.quiet p.module) ?_ ?_
    · rintro _ w' ⟨listing, hlowered, hw', hresult'⟩
      rw [hlowered, hresult', hresult]
      exact ⟨hw'.quiet, rfl⟩
    · rintro _ w' ⟨f, hlowered, rfl, hw', hresult'⟩
      rw [hlowered]
      refine ⟨hw'.quiet, ?_⟩
      rcases f with e | c
      · show ({ w'.result with problem := _ } : Result) = _
        rw [hresult', hresult]
        rfl
      · rfl

/-- A store that has nothing only makes a run list. -/
theorem missRun_store (data : Text) (parent : UInt64) (w : Work) :
    missRun { o with listing := false, store := some s } data parent w =
      missRun { o with listing := true, store := none } data parent w := by
  unfold missRun afterLookup
  rfl

/-- A run with an empty store comes to what a run that lists comes to. Beside a run that does
neither it has the same outcome just when lowering does not fail on what the passes leave. -/
theorem empty_store_outcome {F : Type} [Files (StateM F)] (o : Options) (s : Cache.Store)
    (data : Text) (parent : UInt64)
    (input : Text) (watch : Observers) (hwatch : watch.trap = none) {files : F}
    (hempty : Misses { o with listing := false, store := some s } (keyOf o data) files) :
    let plain := resultOn { o with listing := false, store := none } data parent input watch files
    let stored := resultOn { o with listing := false,
                                    store := some s } data parent input watch files
    stored = resultOn { o with listing := true, store := none } data parent input watch files ∧
      (plain.problem ≠ none → stored = plain) ∧
      (plain.problem = none → ∃ p, frontEnd o input data = .ok p ∧ plain.module = p.name ∧
        plain.dump = p.dump ∧
        stored = withListing plain (lowered o p.module)) ∧
      (SameOutcome stored plain ↔ ∀ p f, frontEnd o input data = .ok p →
          lowered o p.module ≠ .error f) := by
  intro plain stored
  have hstored : stored = _ := resultOn_of_misses hempty parent input watch
  have hplain : plain = _ := resultOn_of_misses (misses_of_no_store rfl _ files) parent input watch
  refine ⟨?_, ?_⟩
  · rw [hstored, missRun_store, resultOn_of_misses (misses_of_no_store rfl _ files)]
  have hcases := missRun_stored o s data parent input hwatch
  dsimp only at hcases
  rw [← hplain, ← hstored] at hcases
  rcases hcases with ⟨s, hfront, hfailed, hsame⟩ | ⟨p, hfront, hfine, hmodule, hdump, hlisted⟩
  · refine ⟨fun _ => hsame, fun h => (hfailed h).elim, ?_⟩
    rw [hsame, hfront]
    refine ⟨fun _ _ _ h => ?_, fun _ => ⟨rfl, rfl, rfl⟩⟩
    cases h
  · refine ⟨fun h => (h hfine).elim, fun _ => ⟨p, hfront, hmodule, hdump, hlisted⟩, ?_⟩
    rw [hfront, hlisted]
    constructor
    · rintro ⟨hproblem, -⟩ p' f hp' hlower
      cases hp'
      rw [hlower, hfine] at hproblem
      rcases f with e | c <;> cases hproblem
    · intro hlower
      rcases hlowered : lowered o p.module with f | listing
      · exact (hlower p f rfl hlowered).elim
      · exact ⟨rfl, rfl, rfl⟩

def holding (field : Text) : Tree.Module where
  name := "m"
  types := [{ name := "S", fields := [{ name := "s", type := .named field }] }]

theorem misses_on_empty (key : Cache.Digest) :
    Misses { o with listing := false, store := some s } key FileMap.empty :=
  misses_of_absent mapLike_fileMap rfl rfl

theorem first_stored_run_agrees :
    let o : Options := { level := .high, target := .x86_64Linux }
    let data := (holding "Int").encode
    Misses { o with listing := false, store := some ⟨"/cache"⟩ } (keyOf o data) FileMap.empty ∧
      (resultOn { o with listing := false, store := none } data 0 "a"
        {} FileMap.empty).problem = none ∧
      SameOutcome (resultOn { o with listing := false, store := some ⟨"/cache"⟩ } data 0 "a"
        {} FileMap.empty)
        (resultOn { o with listing := false, store := none } data 0 "a" {} FileMap.empty) := by
  intro o data
  have hempty := misses_on_empty o ⟨"/cache"⟩ (keyOf o data)
  have hlowers : checked (frontEnd o "a" data) (fun p => (lowered o p.module).isOk) = true :=
    by decide +kernel
  have hfine : (resultOn { o with listing := false, store := none } data 0 "a"
      {} FileMap.empty).problem.isNone = true := by
    decide +kernel
  obtain ⟨p, hfront, hlowered⟩ := exists_of_checked hlowers
  refine ⟨hempty, Option.isNone_iff_eq_none.mp hfine, ?_⟩
  refine (empty_store_outcome o ⟨"/cache"⟩ data 0 "a" {} rfl hempty).2.2.2.mpr
    fun p' f hfront' hfailed => ?_
  obtain rfl : p = p' := Except.ok.inj (hfront.symm.trans hfront')
  rw [hfailed] at hlowered
  cases hlowered

/-- A struct that contains itself can be generated and printed, but has no layout. -/
theorem stored_run_refuses_recursive_struct :
    let o : Options := { level := .high, target := .x86_64Linux }
    let data := (holding "S").encode
    Misses { o with listing := false, store := some ⟨"/cache"⟩ } (keyOf o data) FileMap.empty ∧
      (resultOn { o with listing := false, store := none } data 0 "a"
        {} FileMap.empty).problem = none ∧
      (resultOn { o with listing := false, store := some ⟨"/cache"⟩ } data 0 "a"
          {} FileMap.empty).problem ≠ none := by
  intro o data
  refine ⟨misses_on_empty _ _ _, ?_, ?_⟩
  · have h : (resultOn { o with listing := false, store := none } data 0 "a"
        {} FileMap.empty).problem.isNone = true := by
      decide +kernel
    exact Option.isNone_iff_eq_none.mp h
  · have h : (resultOn { o with listing := false, store := some ⟨"/cache"⟩ } data 0 "a"
      {} FileMap.empty).problem.isSome =
        true := by decide +kernel
    exact Option.isSome_iff_ne_none.mp h

end Midlevel.Pipeline
