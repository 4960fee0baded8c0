import Midlevel.Pipeline.Job
import Midlevel.Proofs.Hoare

/-!
What observes a compilation does not change it.

Spans, phases and timers run through the whole compiler, but no step looks at them. `Casts π x y`
says that `x`, seen through `π`, is `y`: they answer or fail alike, and what `x` does to the part
`π` of its state `y` does too. With `π` the part of a state that is not an observer, one rule for
each way of putting programs together carries this from the single spans to the three stages that
have observers: generation, the passes and the listing. Each of them casts a bare program, and what
is to be said of a stage is said of that.
-/

namespace Midlevel

variable {ε σ τ α β : Type} (scope : Trace.Scope) (span : Span) (detail name : Text)
  (parent : UInt64)

def Casts (π : σ → τ) (x : ExceptT ε (StateM σ) α) (y : ExceptT ε (StateM τ) α) : Prop :=
  ∀ s, Prod.map id π (x.run.run s) = y.run.run (π s)

/-- A step beside the program: it always answers, and `π` does not see it. -/
class Aside (π : σ → τ) (x : ExceptT ε (StateM σ) α) : Prop where
  aside : ∀ s, ∃ a t, x.run.run s = (.ok a, t) ∧ π t = π s

/-- Runs `x`, and `c` after it, whatever becomes of `x`. -/
def ending (x : ExceptT ε (StateM σ) α) (c : ExceptT ε (StateM σ) Unit) : ExceptT ε (StateM σ) α :=
  tryCatch (x >>= fun a => c >>= fun _ => pure a) fun e => c >>= fun _ => throw e

/-- Errors of `x` are placed. -/
def located (place : Text) (x : ExceptT Fault (StateM σ) Unit) : ExceptT Fault (StateM σ) Unit :=
  tryCatch x fun
    | .error e => throw (.error (.within place e))
    | .crash c => throw (.crash c)

section

variable {π : σ → τ} {x : Prog ε σ α} {y : Prog ε τ α} {f : α → Prog ε σ β} {g : α →
  Prog ε τ β} {bs : List β}

instance [hx : Aside π x] [hf : ∀ a, Aside π (f a)] : Aside π (x >>= f) := by
  refine ⟨fun s => ?_⟩
  obtain ⟨a, t, hrun, ht⟩ := hx.aside s
  obtain ⟨b, u, hrun', hu⟩ := (hf a).aside t
  refine ⟨b, u, ?_, hu.trans ht⟩
  rw [run_bind, hrun]
  exact hrun'

namespace Casts

theorem pure (a : α) : Casts π (Pure.pure a : Prog ε σ α) (Pure.pure a) := fun _ => rfl

theorem throw (e : ε) : Casts π (MonadExcept.throw e : Prog ε σ α) (MonadExcept.throw e) :=
  fun _ => rfl

theorem bind (hx : Casts π x y) (hf : ∀ a, Casts π (f a) (g a)) : Casts π (x >>= f) (y >>= g) := by
  intro s
  rw [run_bind, run_bind, ← hx s]
  rcases x.run.run s with ⟨e | a, t⟩
  · rfl
  · exact hf a t

theorem get_bind {f : σ → Prog ε σ β} {g : τ → Prog ε τ β} (h : ∀ s, Casts π (f s) (g (π s))) :
    Casts π (get >>= f) (get >>= g) := fun s => h s s

theorem after [hx : Aside π x] {y : Prog ε τ β} (hf : ∀ a, Casts π (f a) y) :
    Casts π (x >>= f) y := by
  intro s
  obtain ⟨a, t, hrun, ht⟩ := hx.aside s
  rw [run_bind, hrun, ← ht]
  exact hf a t

theorem before {x : Prog ε σ Unit} {y : Prog ε τ Unit} {c : Unit → Prog ε σ Unit}
    [hc : ∀ a, Aside π (c a)]
    (hx : Casts π x y) : Casts π (x >>= c) y := by
  intro s
  rw [run_bind, ← hx s]
  rcases x.run.run s with ⟨e | a, t⟩
  · rfl
  · obtain ⟨_, u, hrun, hu⟩ := (hc a).aside t
    dsimp only
    rw [hrun]
    exact Prod.ext rfl hu

theorem tryCatch {f : ε → Prog ε σ α} {g : ε → Prog ε τ α} (hx : Casts π x y)
    (hf : ∀ e, Casts π (f e) (g e)) :
    Casts π (MonadExcept.tryCatch x f) (MonadExcept.tryCatch y g) := by
  intro s
  have hrun := run_tryCatch (x := x) (s := s) f
  have hrun' := run_tryCatch (x := y) (s := π s) g
  rw [hrun, hrun', ← hx s]
  rcases x.run.run s with ⟨e | a, t⟩
  · exact hf e t
  · rfl

/-- Whatever becomes of `x`, the step beside it that comes last is not seen. -/
theorem ending {c : Prog ε σ Unit} [hc : Aside π c] (hx : Casts π x y) : Casts π (do
      try
        let a ← x
        c
        return a
      catch e =>
        c
        MonadExcept.throw e) y := by
  intro s
  rw [← hx s, run_bind, run_tryCatch, run_bind]
  rcases x.run.run s with ⟨e | a, t⟩
  all_goals
    obtain ⟨_, u, hrun, hu⟩ := hc.aside t
    dsimp only
    rw [run_bind, hrun]
    exact Prod.ext rfl hu

theorem ite {c : Prop} [Decidable c] {x' : Prog ε σ α} {y' : Prog ε τ α} (h : Casts π x y)
    (h' : Casts π x' y') :
    Casts π (if c then x else x') (if c then y else y') := by
  split
  · exact h
  · exact h'

theorem forM {f : β → Prog ε σ PUnit} {g : β → Prog ε τ PUnit} (h : ∀ b, Casts π (f b) (g b)) :
    Casts π (bs.forM f) (bs.forM g) := by
  induction bs with
  | nil => exact .pure _
  | cons b bs ih => exact (h b).bind fun _ => ih

theorem mapM {f : β → Prog ε σ α} {g : β → Prog ε τ α} (h : ∀ b, Casts π (f b) (g b)) :
    Casts π (bs.mapM f) (bs.mapM g) := by
  induction bs with
  | nil => exact .pure _
  | cons b bs ih =>
    rw [List.mapM_cons, List.mapM_cons]
    exact (h b).bind fun _ => ih.bind fun _ => .pure _

theorem located {x : Prog Fault σ Unit} {y : Prog Fault τ Unit} (hx : Casts π x y) (place : Text) :
    Casts π (Midlevel.located place x) (Midlevel.located place y) :=
  hx.tryCatch fun
    | .error _ => .throw _
    | .crash _ => .throw _

end Casts

theorem wp_located {place : Text} {x : Prog Fault σ Unit} {Q : Unit → σ → Prop}
    {E : Fault → σ → Prop} {s : σ}
    (hE : ∀ e t, E (.error e) t → E (.error (.within place e)) t) (h : wp x Q E s) :
    wp (located place x) Q E s := by
  unfold located
  rw [wp_tryCatch]
  refine wp_mono h (fun _ _ hq => hq) fun e t he => ?_
  cases e with
  | error e => exact hE e t he
  | crash c => exact he

end

/-! ### Generation -/

namespace Lowering

open Ir Trace

variable {x : Generate α} {y : Build α} (tree : Tree.Module)

/-- Lowers on its own. -/
def Lower.alone (env : Env) (x : Lower α) : Build α := ExceptT.mk fun b =>
  (((x.run env).run.run { builder := b }).1, ((x.run env).run.run { builder := b }).2.builder)

/-- What is made first: the types of the tree, and the functions without their bodies. -/
def declareAll (tree : Tree.Module) (int bool : TypeId) : Build (List Pending) := do
  Build.declareType int
  Build.declareType bool
  declareTypes tree.types
  declareFunctions tree

def bareBody (int bool : TypeId) (p : Pending) : Build Unit := do
  let fn ← Build.func p.func
  located ("@" ++ fn.name) do
    discard (resolveParams p.decl.params)
    let f ← Build.getOrBuildFunction fn.name fn.type (p.decl.params.map (·.name))
    Lower.alone { int, bool, func := f, initialising := p.kind = .initialiser } (emitBody p)

def bareMain (int bool : TypeId) (stmts : List Tree.Stmt) : Build Unit :=
  located "@main" do
    let f ← (do
      let f ← Build.buildFunction "main" (← Build.onTypes (·.freeFunction [] .void)) []
      Build.modifyFunc f ({ · with visibility := .exported })
      return f)
    Lower.alone { int, bool, func := f } (emitMain stmts)

def bareModule (tree : Tree.Module) (name : Text) (library : Bool) : Build Unit := do
  let (int, bool) ← Build.onTypes libraryTypes
  let bodies ← declareAll tree int bool
  bodies.forM (bareBody int bool)
  if !tree.library && !library then bareMain int bool tree.main
  Build.clearCursor
  match (← get).module.verify with
  | .error c => throw (.crash c)
  | .ok none => pure ()
  | .ok (some e) => throw (.error (.within ("virgen: generated invalid module " ++ name) e))

def blank (name : Text) : Ir.Module := { name, providers := [.library, .objectRuntime] }

theorem casts_build (x : Build α) : Casts Generation.builder (Generate.build x) x := by
  intro g
  unfold Generate.build
  rw [run_bind, show (get : Generate Generation).run.run g = (.ok g, g) from rfl]
  dsimp only
  rcases x.run.run g.builder with ⟨_ | _, _⟩ <;> rfl

theorem casts_lower (env : Env) (x : Lower α) :
    Casts Generation.builder (Generate.lower env x) (x.alone env) := by
  intro g
  unfold Generate.lower
  rw [run_bind, show (get : Generate Generation).run.run g = (.ok g, g) from rfl]
  show _ = (((x.run env).run.run { builder := g.builder }).1,
    ((x.run env).run.run { builder := g.builder }).2.builder)
  dsimp only
  rcases (x.run env).run.run { builder := g.builder } with ⟨_ | _, _⟩ <;> rfl

instance aside_begin :
    Aside Generation.builder (beginSpan scope name parent : Generate Span) :=
  ⟨fun _ => ⟨_, _, rfl, rfl⟩⟩

instance aside_end :
    Aside Generation.builder (endSpan span detail : Generate Unit):= ⟨fun _ => ⟨_, _, rfl, rfl⟩⟩

theorem casts_traced {x : Span → Generate α} (h : ∀ span, Casts Generation.builder (x span) y)
    (scope : Trace.Scope)
    (name : Text) (parent : UInt64) :
    Casts Generation.builder (Generate.traced scope name parent x) y :=
  .after fun span => (h span).ending

theorem inFunction_eq (x : Generate Unit) : inFunction name x = located ("@" ++ name) x := rfl

theorem casts_generateBody (int bool : TypeId) (parent : UInt64) (p : Pending) :
    Casts Generation.builder (generateBody int bool parent p) (bareBody int bool p) := by
  unfold generateBody bareBody
  refine (casts_build _).bind fun fn => ?_
  rw [inFunction_eq]
  refine .located (casts_traced (fun _ => ?_) _ _ _) _
  refine .bind ((casts_build _).bind fun _ => .pure _) fun _ => ?_
  exact (casts_build _).bind fun _ => casts_lower _ _

theorem casts_generateMain (int bool : TypeId) (parent : UInt64) (stmts : List Tree.Stmt) :
    Casts Generation.builder (generateMain int bool parent stmts) (bareMain int bool stmts) := by
  unfold generateMain bareMain
  rw [inFunction_eq]
  refine .located (casts_traced (fun _ => ?_) _ _ _) _
  exact (casts_build _).bind fun _ => casts_lower _ _

theorem casts_generateModule (name : Text) (library : Bool) (parent : UInt64) :
    Casts Generation.builder (generateModule tree name library parent)
    (bareModule tree name library) := by
  refine (casts_build _).bind fun r => (casts_build _).bind fun bodies => ?_
  refine (Casts.forM fun p => casts_generateBody _ _ _ p).bind fun _ => ?_
  refine .ite ((casts_generateMain _ _ _ _).bind fun _ => ?_) ?_
  all_goals
    refine (casts_build _).bind fun _ => .get_bind fun g => ?_
    rcases g.builder.module.verify with c | _ | e
    · exact .throw _
    · exact .pure _
    · exact .throw _

/-- What is generated depends on nothing but the tree and the options. -/
theorem generate_eq (o : Options) (tracer : Tracer) (parent : UInt64) :
    (generate tree o tracer parent).1 =
      let name := if o.name = [] then tree.name else o.name
      let r := (bareModule tree name o.library).run.run { module := blank name }
      r.1.map fun _ => r.2.module := by
  unfold generate
  dsimp only
  generalize (if o.name = [] then tree.name else o.name) = name
  have hrun := casts_traced
    (fun span => casts_generateModule tree name o.library span.anchor) .module
    ("virgen:" ++ name) parent { builder := { module := blank name }, tracer }
  rw [← hrun]
  rfl

end Lowering

/-! ### Passes -/

namespace Pass

open Ir Trace Running

variable (pm : Manager)

def bareCheck (pm : Manager) (pass : Text) : Transform Unit := do
  if pm.verify then
    let m ← Transform.module
    match m.verify with
    | .error c => throw (.crash c)
    | .ok none => pure ()
    | .ok (some e) => throw (.crash (.invalidModule m.name pass e.message))

def FunctionPass.bare (p : FunctionPass) (pm : Manager) : Transform Unit := do
  (← Transform.module).order.forM fun f => do
    let fn := (← Transform.module).funcs.get f
    if fn.defined then located ("pass " ++ p.name ++ " on @" ++ fn.name) (p.run f)
  bareCheck pm p.name

def ModulePass.bare (p : ModulePass) (pm : Manager) : Transform Unit := do
  located ("pass " ++ p.name) p.run
  bareCheck pm p.name

def Manager.bare (pm : Manager) (level : Level) : Transform Unit := do
  pm.functionPasses.forM fun p => do
    if pm.enabled p.name p.minLevel level then p.bare pm
  pm.modulePasses.forM fun p => do
    if pm.enabled p.name p.minLevel level then p.bare pm

instance aside_begin :
    Aside Run.work (beginSpan scope name parent : Running Span):= ⟨fun _ => ⟨_, _, rfl, rfl⟩⟩

instance aside_end : Aside Run.work (endSpan span detail : Running Unit) :=
  ⟨fun _ => ⟨_, _, rfl, rfl⟩⟩

instance (key value : Text) : Aside Run.work (extendSpan span key value : Running Unit) :=
  ⟨fun _ => ⟨_, _, rfl, rfl⟩⟩

@[instance] theorem aside_startPhase : Aside Run.work (startPhase name) := by
  refine ⟨?_⟩
  rintro ⟨w, tracer, _ | t⟩
  · exact ⟨_, _, rfl, rfl⟩
  · exact ⟨_, _, rfl, rfl⟩

instance (handle : Int) (note : Text) : Aside Run.work (stopPhase handle note) :=
  ⟨fun _ => ⟨_, _, rfl, rfl⟩⟩

instance : Aside Run.work Running.module := ⟨fun _ => ⟨_, _, rfl, rfl⟩⟩

instance : Aside Run.work stats := ⟨fun _ => ⟨_, _, rfl, rfl⟩⟩

theorem casts_transform (x : Transform α) : Casts Run.work (transform x) x := by
  intro r
  unfold transform
  rw [run_bind, show (get : Running Run).run.run r = (.ok r, r) from rfl]
  dsimp only
  rcases x.run.run r.work with ⟨_ | _, _⟩ <;> rfl

theorem casts_module : Casts Run.work Running.module Transform.module := fun _ => rfl

theorem casts_onError {x : Running α} {y : Transform α} {c : Running Unit} [hc : Aside Run.work c]
    (h : Casts Run.work x y) : Casts Run.work (onError x c) y := by
  intro r
  unfold onError
  rw [← h r, run_tryCatch]
  rcases x.run.run r with ⟨e | a, t⟩
  · obtain ⟨_, u, hrun, hu⟩ := hc.aside t
    cases e with
    | error e =>
      dsimp only
      rw [run_bind, hrun]
      exact Prod.ext rfl hu
    | crash c => rfl
  · rfl

theorem naming_eq (place : Text) (x : Running Unit) : naming place x = located place x := rfl

theorem casts_checkAfter (pass : Text) :
    Casts Run.work (checkAfter pm pass) (bareCheck pm pass) := by
  refine .ite (casts_module.bind fun m => ?_) (.pure _)
  rcases m.verify with c | _ | e
  · exact .throw _
  · exact .pure _
  · exact .throw _

theorem casts_runFunctionPass (parent : Span) (p : FunctionPass) :
    Casts Run.work (runFunctionPass pm parent p) (p.bare pm) := by
  refine .after fun span => .after fun phase => .after fun before => casts_module.bind fun m => ?_
  refine (Casts.forM fun f => casts_module.bind fun m' => .ite ?_ (.pure _)).bind fun _ => ?_
  · rw [naming_eq]
    refine .located (casts_onError ?_) _
    refine .after fun m => .after fun inner => ?_
    exact .before (casts_onError (casts_transform _))
  · exact .after fun _ => .after fun _ => .after fun _ => .after fun _ => casts_checkAfter pm _

theorem casts_runModulePass (parent : Span) (p : ModulePass) :
    Casts Run.work (runModulePass pm parent p) (p.bare pm) := by
  refine .after fun span => .after fun phase => ?_
  rw [naming_eq]
  refine (Casts.located (casts_onError (casts_transform _)) _).bind fun _ => ?_
  exact .after fun _ => .after fun _ => casts_checkAfter pm _

theorem casts_run (level : Level) (parent : UInt64) :
    Casts Run.work (pm.run level parent) (pm.bare level):= by
  refine .after fun m => .after fun span => .ending ?_
  refine (Casts.forM fun p => .ite (casts_runFunctionPass pm _ p) (.pure _)).bind fun _ => ?_
  exact Casts.forM fun p => .ite (casts_runModulePass pm _ p) (.pure _)

/-- What the passes do depends on nothing but the module. -/
theorem optimise_eq (level : Level) (m : Module) : pm.optimise level m =
    let r := (pm.bare level).run.run { builder := { module := m } }
    r.1.map fun _ => (r.2.stats, r.2.builder.module) := by
  unfold Manager.optimise
  rw [← casts_run pm level 0 { work := { builder := { module := m } } }]
  rfl

end Pass

/-! ### Listings -/

namespace Listing

open Ir Trace

/-- A lowering apart from what observes it. -/
def Lowering.unseen (l : Lowering) : Lowering := { l with tracer := .off }

def bareText (f : FuncId) : Lower Text := do
  match emitFunction (← Lower.module) f with
  | .ok text => return text
  | .error c => throw (.crash c)

def bare : Lower Output := do
  let module := (← Lower.module).name
  let runtime ← Lower.build declareRuntime
  let types ← (← Lower.module).typeDecls.mapM lowerDecl
  let funcs ← (← Lower.module).order.mapM bareText
  return { module, runtime, types, funcs }

instance aside_begin : Aside Lowering.unseen (beginSpan scope name parent : Lower Span):=
    ⟨fun _ => ⟨_, _, rfl, rfl⟩⟩

instance aside_end : Aside Lowering.unseen (endSpan span detail : Lower Unit) :=
  ⟨fun _ => ⟨_, _, rfl, rfl⟩⟩

theorem casts_module : Casts Lowering.unseen Lower.module Lower.module := fun _ => rfl

theorem casts_build (x : Build α) : Casts Lowering.unseen (Lower.build x) (Lower.build x) := by
  have hrun (l : Lowering) : (Lower.build x).run.run l =
      ((x.run.run l.builder).1, { l with builder := (x.run.run l.builder).2 }) := by
    unfold Lower.build
    rw [run_bind, show (get : Lower Lowering).run.run l = (.ok l, l) from rfl]
    dsimp only
    rcases x.run.run l.builder with ⟨_ | _, _⟩ <;> rfl
  intro l
  rw [hrun, hrun]
  rfl

theorem casts_lowerType (id : TypeId) : Casts Lowering.unseen (lowerType id) (lowerType id) := by
  refine .get_bind fun l => ?_
  dsimp only [Lowering.unseen]
  rcases typeName l.builder.module.types id with f | name
  · exact .throw _
  · rcases (Layout.layoutOf l.builder.module.types l.target id).run l.memory with
      ⟨e | layout, memory⟩
    · exact .bind (x := set _) (fun _ => rfl) fun _ => .throw _
    · exact .bind (x := set _) (fun _ => rfl) fun _ => .pure _

theorem casts_lowerDecl (id : TypeId) : Casts Lowering.unseen (lowerDecl id) (lowerDecl id) := by
  refine casts_module.bind fun m => ?_
  refine .bind (.tryCatch ((casts_lowerType id).bind fun machine => ?_) fun e => ?_) fun r => ?_
  · exact .pure _
  · cases e with
    | error e => exact .throw _
    | crash c => exact .throw _
  · cases r <;> exact .pure _

theorem casts_emitTraced (f : FuncId) : Casts Lowering.unseen (emitTraced span f) (bareText f) := by
  refine casts_module.bind fun m => .after fun _ => ?_
  rcases emitFunction m f with c | text
  · exact .throw _
  · exact .after fun _ => .pure _

/-- What is listed depends on nothing but the module and the target. -/
theorem casts_lower : Casts Lowering.unseen (lower parent) bare := by
  refine casts_module.bind fun m => .after fun span => .ending ?_
  refine (casts_build _).bind fun runtime => casts_module.bind fun m => ?_
  refine (Casts.mapM fun id => casts_lowerDecl id).bind fun types => casts_module.bind fun m => ?_
  exact (Casts.mapM fun f => casts_emitTraced _ f).bind fun funcs => .pure _

end Listing

end Midlevel
