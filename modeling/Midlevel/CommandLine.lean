import Midlevel.CommandLine.Commands
import Midlevel.CommandLine.Compile
import Midlevel.CommandLine.Help
import Midlevel.Text.Utf8

/-!
The program as it is called from a command line.
-/

namespace Midlevel.Text

def cellWidth (t : Text) : Nat := t.pieces.length

def columnWidths : List (List Text) → List Nat
  | [] => []
  | row :: rows =>
    let below := columnWidths rows
    (List.range (Nat.max row.length below.length)).map fun i =>
      Nat.max (cellWidth (row.getD i [])) (below.getD i 0)

def tableRow (gap : Nat) : List Nat → List Text → Text
  | _, [] => "\n"
  | _, [last] => last ++ "\n"
  | w :: ws, cell :: cells => cell ++ blanks (w + gap - cellWidth cell) ++ tableRow gap ws cells
  | [], cell :: cells => cell ++ blanks gap ++ tableRow gap [] cells

/-- Every column but the last is as wide as its widest cell and a gap. -/
def table (gap : Nat) (rows : List (List Text)) : Text :=
  rows.flatMap (tableRow gap (columnWidths rows))

end Midlevel.Text

namespace Midlevel.CommandLine

structure Outcome where
  code : Nat
  console : Console
  deriving DecidableEq

structure Environment where
  build : BuildInfo
  watched : Bool := false

namespace Session

variable {m : Type → Type} [Monad m] [Files m]

/-! ### Passes -/

def passStatus (s : Config.Optimiser) (level : Pass.Level) (p : Pass.PassInfo) : Text :=
  if s.disable.contains p.name then "disabled"
  else if level.code < p.minLevel.code then "skipped at " ++ level.name
  else "enabled"

def passRow (s : Config.Optimiser) (level : Pass.Level) (p : Pass.PassInfo) : List Text :=
  [p.name, if p.wholeModule then "module" else "function", p.minLevel.name, passStatus s level p]

def listPasses : InSession m Unit := do
  let opt := (← get).settings.opt
  let level ← need ((Pass.Level.parse opt.level).mapError Error.plain)
  let head : List Text := ["PASS", "KIND", "MIN LEVEL", "STATUS"]
  print (Text.table 2 (head :: Pass.Manager.standard.passes.map (passRow opt level)))

/-! ### Cache -/

def cleanCache : InSession m Unit := do
  let store ← openCache
  match ← onFiles store.dropAll with
  | .error e => throw e.toError
  | .ok _ => if !(← get).given.toggle "quiet" then print ("cleared " ++ store.dir ++ "\n")

/-! ### Version -/

def jsonField (key value : Text) : Text := "  " ++ Text.json key ++ ": " ++ Text.json value

def versionJson (b : BuildInfo) : Text :=
  let commit := if b.commit = [] then [] else [jsonField "git_commit" b.commit]
  let date := if b.date = [] then [] else [jsonField "build_date" b.date]
  let fields := [jsonField "tool" "virc", jsonField "version" b.version] ++ commit ++ date ++
    [jsonField "go_version" b.compiler]
  "\x7b\n" ++ Text.join ",\n" fields ++ "\n\x7d\n"

def showVersion (b : BuildInfo) : InSession m Unit := do
  let format := ((← get).given.text? "format").getD "pretty"
  if format.isKeyword "json" then print (versionJson b)
  else if format.isKeyword "pretty" then
    print ("virc " ++ b.colouredVersion (← get).coloured ++ "\n" ++ b.text ++ "\n")
  else throw (.plain ("unsupported format " ++ format.quote ++ " (must be pretty or json)"))

/-! ### Help -/

def explain (p : Program Work) (ws : List Text) : InSession m Unit :=
  match p.find ws with
  | .ok (c, _) => print (p.help c)
  | .error _ => complain (p.unknownTopic ws)

/-! ### Calls -/

def perform (env : Environment) (p : Program Work) (w : Work) (arguments : List Text) :
    InSession m Unit := do
  match w with
  | .optimise => optimise arguments
  | .dump => dump arguments
  | .listPasses => listPasses
  | .cleanCache => cleanCache
  | .showCachePath => print ((← get).settings.cache.dir ++ "\n")
  | .showVersion => showVersion env.build
  | .explain => explain p arguments
  | .complete shell => print (shell.script ((p.below []).map (·.name)))

end Session

def showing (t : Text) : Outcome := { code := 0, console := { out := t } }

def errorLine (t : Text) : Text := "Error: " ++ t ++ "\n"

def failing (t : Text) : Outcome := { code := 1, console := { err := t } }

variable {m : Type → Type} [Monad m] [Files m]

def inSession (env : Environment) (p : Program Work) (w : Work) (g : Given)
    (arguments : List Text) :
    m Outcome := do
  let whole : InSession m Unit := do
    Session.start g
    Session.perform env p w arguments
  let (outcome, s) ← whole.run.run { watched := env.watched }
  let (code, console) := match outcome with
    | .ok _ => (0, s.console)
    | .error e => (1, s.console.complain (errorLine e.message))
  let (_, s) ← Session.close.run { s with console }
  return { code, console := s.console }

def run (env : Environment) (arguments : List Text) : m Outcome := do
  let p := program env.build
  match p.find arguments with
  | .error e => return failing (errorLine e.message ++ "Run '" ++ p.name ++ " --help' for usage.\n")
  | .ok (c, rest) =>
    match Arguments.parse (p.acceptedFlags c) rest with
    | .error e => return failing (errorLine e.message)
    | .ok (given, words) =>
      if given.toggle "help" then return showing (p.help c)
      if given.toggle "version" then return showing (p.name ++ " version " ++ p.version ++ "\n")
      match c.work with
      | none => return showing (p.help c)
      | some w =>
        match p.accepts c words with
        | .error e => return failing (errorLine e.message)
        | .ok _ => inSession env p w given words

end Midlevel.CommandLine
