import Midlevel.CommandLine.Session
import Midlevel.Pipeline
import Midlevel.Progress

/-!
The commands that compile inputs and write what came of them.
-/

namespace Midlevel.CommandLine

open Pipeline (Options Result Observers)

inductive Emit where
  | ir
  | listing
  | nothing
  deriving DecidableEq

namespace Emit

def parse (t : Text) : Except Error Emit :=
  if t = "ir" then .ok ir
  else if t = "listing" then .ok listing
  else if t = "none" then .ok nothing
  else .error (.plain ("invalid --emit value " ++ t.quote ++ " (expected ir|listing|none)"))

def extension : Emit → Text
  | ir => ".vir"
  | listing => ".ll.txt"
  | nothing => []

def textOf (e : Emit) (r : Result) : Text :=
  match e with
  | ir => r.dump
  | listing => r.listing
  | nothing => []

def fileName (e : Emit) (input : Text) : Text :=
  let base := Path.base input
  (Text.dropSuffix? (Path.ext input) base).getD base ++ e.extension

end Emit

namespace Session

variable {m : Type → Type} [Monad m] [Files m]

/-! ### Options -/

def withOptimiserFlags (g : Given) (s : Config.Settings) : Config.Settings :=
  { s with opt := { s.opt with
      level := (g.text? "level").getD s.opt.level
      disable := (g.list? "disable").getD s.opt.disable } }

def compileOptions (g : Given) (s : Config.Settings) : Except Error (Emit × Options) := do
  let emit ← Emit.parse ((g.text? "emit").getD "ir")
  let level ← (Pass.Level.parse s.opt.level).mapError .plain
  let target ← (Target.parse ((g.text? "target").getD s.build.target)).mapError .plain
  return (emit,
    { level, disabled := s.opt.disable, verify := s.opt.verify && !g.toggle "no-verify"
      library := g.toggle "library", target, listing := emit = .listing })

/-! ### Results -/

def writeFile (dir : Text) (e : Emit) (r : Result) : InSession m Unit := do
  match ← onFiles (Files.makeDirs dir) with
  | .error x => throw x.toError
  | .ok _ =>
    match ← onFiles (Files.write (Path.join [dir, e.fileName r.input]) (e.textOf r)) with
    | .error x => throw x.toError
    | .ok _ => return ()

def writeResults (e : Emit) (dir : Text) (results : List Result) : InSession m Unit := do
  if e = .nothing then return
  for r in results do
    if r.problem.isNone then
      if dir = [] then print (e.textOf r) else writeFile dir e r

def crashTrace (t : Trace.Tracer) : Text :=
  if t.ring.isSome then
    "last " ++ Text.ofNat t.snapshot.length ++ " trace events:\n" ++
      t.snapshot.flatMap (·.line .text)
  else "note: rerun with --trace-mode=ring --trace-level=debug to capture a crash trace\n"

def reportProblems (results : List Result) : InSession m Unit := do
  let bag : Bag := { items := results.filterMap (·.diagnostic?) }
  let bag := bag.dedup.sort
  complain (bag.pretty (← get).coloured true)
  if bag.items.any (·.severity = .internal) then complain (crashTrace (← get).tracer)

def progressView (title : Text) (inputs : List Text) (events : List Pipeline.Event) : Text :=
  (events.foldl (fun v e => v.event e.input (some e.stage) (some e.status))
    (Progress.View.start title inputs)).close.text

def showsProgress (g : Given) (inputs : List Text) (watched : Bool) : Bool :=
  let said := (g.text? "ui").getD "auto"
  if said.isKeyword "on" then true
  else if said.isKeyword "off" then false
  else !g.toggle "quiet" && 1 < inputs.length && watched

/-- The stream of a trace that goes to no file is shown as it comes. -/
def showTrace : InSession m Unit := do
  let s ← get
  match s.tracing.sink with
  | .stdout => print s.tracer.streamed
  | .stderr => complain s.tracer.streamed
  | .file _ => return ()

def failedCount (results : List Result) : Nat := (results.filter (·.problem.isSome)).length

def execute (title : Text) (inputs : List Text) (e : Emit) (o : Options) : InSession m Unit := do
  let s ← get
  let observers : Observers :=
    { tracer := s.tracer, timer := if s.given.toggle "timings" then some {} else none }
  let (outcome, observers) ← onFiles ((Pipeline.run inputs o false).run observers)
  modify fun s => { s with tracer := observers.tracer }
  showTrace
  if showsProgress s.given inputs s.watched then
    complain (progressView title inputs observers.events.reverse)
  let results ← need (outcome.mapError fun c => Error.plain c.message)
  writeResults e ((s.given.text? "output").getD []) results
  reportProblems results
  if let some t := observers.timer then complain t.summary
  if failedCount results ≠ 0 then
    throw (.plain (Text.ofNat (failedCount results) ++ " of " ++ Text.ofNat results.length ++
      " inputs failed"))

/-! ### Commands -/

def openCache : InSession m Cache.Store := do
  match ← onFiles (Cache.Store.openAt (← get).settings.cache.dir) with
  | .ok store => return store
  | .error e => throw (.within "irstore" e.toError)

def optimise (inputs : List Text) : InSession m Unit := do
  let g := (← get).given
  let settings ← need (checked (withOptimiserFlags g (← get).settings))
  let (emit, options) ← need (compileOptions g settings)
  let store ← if settings.cache.enabled && !g.toggle "no-cache" then some <$> openCache
    else pure none
  execute "opt" inputs emit { options with store,
                                           checkReproducible := g.toggle "check-reproducible" }

def dump (inputs : List Text) : InSession m Unit := do
  let (emit, options) ← need (compileOptions (← get).given (← get).settings)
  execute "dump" inputs emit { options with level := .off }

end Session

end Midlevel.CommandLine
