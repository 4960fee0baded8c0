import Midlevel.CommandLine
import Midlevel.Service.Pipeline

/-!
Requests that call the program from a command line, one call after the other over the same files.
-/

namespace Midlevel.Service.Calls

open CommandLine

/-! ### Files -/

def contentOf : Json → Read (Option Text)
  | .text t => return some t
  | j => Pipelines.fileBytes j

def addContents : Disk → List (Text × Json) → Read (Option Disk)
  | d, [] => return some d
  | d, (path, j) :: rest => do
    checkPath path
    match ← contentOf j with
    | some bytes => addContents (addFile d path bytes) rest
    | none => return none

def addDirs : Disk → List Text → Read Disk
  | d, [] => return d
  | d, path :: rest => do
    checkPath path
    addDirs (addDir d path) rest

/-! ### Calls -/

structure Call where
  arguments : List Text
  cwd : Text
  showErr : Bool
  sealed : List Text

def readCall (j : Json) : Read Call := do
  let showErr ← if (j.field "stderr").isNull then pure true else j.get "stderr"
  return { arguments := ← j.get "args", cwd := ← j.get "cwd", showErr
           sealed := ← j.get "opaque" }

def environment : Environment := { build := { version := "0.1.0-dev", compiler := "GOVERSION" } }

def enter (d : Disk) (cwd : Text) : Option Disk :=
  match d.find (Path.join [Disk.pathText rootDir, cwd]) with
  | .ok (.dir p) => some { d with cwd := p }
  | _ => none

def changed (now before : Disk) : List (DiskPath × Text) :=
  now.files.filter fun (p, bytes) => before.get? p ≠ some (.file bytes)

def removed (now before : Disk) : List Text :=
  (before.files.filter fun (p, _) => (now.files.lookup p).isNone).map fun (p, _) => fromRoot p

def writtenField (c : Call) (file : DiskPath × Text) : Text × Json :=
  let path := fromRoot file.1
  let hidden := c.sealed.contains path || path.endsWith ".mp"
  (path, if hidden then .bool (file.2 ≠ []) else ofText file.2)

def changeFields (c : Call) (now before : Disk) : Fields :=
  let written := (changed now before).map (writtenField c)
  let gone := removed now before
  let writtenFields : Fields := if written.isEmpty then [] else [("written", .object written)]
  let goneFields : Fields := if gone.isEmpty then [] else [("removed", ofTexts gone)]
  writtenFields ++ goneFields

def callOne (d : Disk) (c : Call) : Json × Disk :=
  match enter d c.cwd with
  | none => (refused, d)
  | some before =>
    let (outcome, now) := (CommandLine.run environment c.arguments : StateM Disk Outcome).run before
    let err : Fields := if c.showErr then [("stderr", outcome.console.err)] else []
    (record [("code", outcome.code), ("stdout", outcome.console.out)]
      (err ++ changeFields c now before), now)

def callAll : Disk → List Call → List Json
  | _, [] => []
  | d, c :: rest => (callOne d c).1 :: callAll (callOne d c).2 rest

def run (j : Json) : Read Json := do
  match ← addContents freshDisk (← j.get "files") with
  | none => return malformed
  | some disk =>
    let disk ← addDirs disk (← j.get "dirs")
    let calls ← (← j.items "runs").mapM readCall
    return .object [("runs", .list (callAll disk calls))]

end Midlevel.Service.Calls
