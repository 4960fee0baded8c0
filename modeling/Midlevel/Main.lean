import Midlevel.CommandLine

/-!
The program on a real disk.
-/

namespace Midlevel

def stringOf? (t : Text) : Option String := String.fromUTF8? (ByteArray.mk t.toArray)

def reasonOf : IO.Error → FileReason
  | .noFileOrDirectory .. => .notFound
  | .alreadyExists .. => .alreadyThere
  | .inappropriateType .. => .notDirectory
  | .invalidArgument .. => .invalid
  | e => .other e.toString

/-- Does something with a path. Paths that are not UTF-8 lead nowhere. -/
def attempt {α : Type} (op path : Text) (act : String → IO α) : IO (Except FileError α) := do
  match stringOf? path with
  | none => return .error { op, path, reason := .invalid }
  | some s =>
    try return .ok (← act s)
    catch e => return .error { op, path, reason := reasonOf e }

def removeTree (path : String) : IO Unit := do
  let p := (← IO.currentDir) / path
  if ← p.isDir then IO.FS.removeDirAll p
  else if ← p.pathExists then IO.FS.removeFile p

instance : Files IO where
  workingDir := return Text.ofString (← IO.currentDir).toString
  read path := attempt "open" path fun s => return (← IO.FS.readBinFile s).toList
  write path bytes := attempt "open" path fun s => IO.FS.writeBinFile s (ByteArray.mk bytes.toArray)
  stat path := attempt "stat" path fun s => do discard ((← IO.currentDir) / s).metadata
  makeDirs path := attempt "mkdir" path fun s => IO.FS.createDirAll s
  removeAll path := attempt "remove" path removeTree

def buildInfo : BuildInfo := { version := "0.1.0-dev", compiler := "lean4" }

def emit (s : IO.FS.Stream) (t : Text) : IO Unit := do
  s.write (ByteArray.mk t.toArray)
  s.flush

end Midlevel

open Midlevel in
def main (args : List String) : IO UInt32 := do
  let watched ← (← IO.getStderr).isTty
  let outcome ← CommandLine.run { build := buildInfo, watched } (args.map Text.ofString)
  emit (← IO.getStdout) outcome.console.out
  emit (← IO.getStderr) outcome.console.err
  return outcome.code.toUInt32
