import Midlevel.Files.Basic

/-!
A modelled disk: a finite map from absolute paths to files and directories.
-/

namespace Midlevel

inductive DiskEntry where
  | file (bytes : Text)
  | dir
  deriving DecidableEq

abbrev DiskPath := List Text

structure Disk where
  entries : List (DiskPath × DiskEntry) := []
  cwd : DiskPath := []

namespace Disk

variable (d : Disk)

def get? (p : DiskPath) : Option DiskEntry :=
  if p = [] then some .dir else d.entries.lookup p

def put (p : DiskPath) (e : DiskEntry) : Disk :=
  { d with entries := (p, e) :: d.entries.filter (·.1 ≠ p) }

def remove (p : DiskPath) : Disk :=
  { d with entries := d.entries.filter fun (q, _) => !p.isPrefixOf q }

def files : List (DiskPath × Text) :=
  (d.entries.filterMap fun
    | (p, .file bytes) => some (p, bytes)
    | (_, .dir) => none).mergeSort fun a b => !Text.lt (Text.join "/" b.1) (Text.join "/" a.1)

def pathText (p : DiskPath) : Text := "/" ++ Text.join "/" p

/-! ### Finding paths -/

inductive Found where
  | file (p : DiskPath) (bytes : Text)
  | dir (p : DiskPath)
  | free (p : DiskPath)

def maxName : Nat := 255

def maxPath : Nat := 4095

def walk (d : Disk) (here : DiskPath) : List Text → Except FileReason Found
  | [] => .ok (.dir here)
  | part :: rest =>
    if part = [] ∨ part = "." then walk d here rest
    else if part = ".." then walk d here.dropLast rest
    else if maxName < part.length then .error .nameTooLong
    else
      let p := here ++ [part]
      match d.get? p with
      | some .dir => walk d p rest
      | some (.file bytes) => if rest = [] then .ok (.file p bytes) else .error .notDirectory
      | none =>
        if rest.all (· = []) then .ok (.free p) else .error .notFound

def findParts (path : Text) (parts : List Text) : Except FileReason Found :=
  if path.contains 0 then .error .invalid
  else if path = [] then .error .notFound
  else if maxPath < path.length then .error .nameTooLong
  else d.walk (if Path.isAbsolute path then [] else d.cwd) parts

/-- Where the text of a path leads. With a slash at its end it leads to a directory only. -/
def find (path : Text) : Except FileReason Found := d.findParts path (Text.split Path.slash path)

/-- Where the text of a path leads that something is to be made at, whatever slashes it
ends with. -/
def findPlace (path : Text) : Except FileReason Found :=
  d.findParts path ((Text.split Path.slash path).reverse.dropWhile (· = [])).reverse

/-! ### Operations -/

def fails {α : Type} (op path : Text) (r : FileReason) : Except FileError α :=
  .error { op, path, reason := r }

def read (d : Disk) (path : Text) : Except FileError Text :=
  match d.find path with
  | .error r => fails "open" path r
  | .ok (.free _) => fails "open" path .notFound
  | .ok (.dir _) => fails "read" path .isDirectory
  | .ok (.file _ bytes) => .ok bytes

def write (path bytes : Text) : Except FileError Unit × Disk :=
  match d.findPlace path with
  | .error r => (fails "open" path r, d)
  | .ok (.dir _) => (fails "open" path .isDirectory, d)
  | .ok (.file p _) | .ok (.free p) =>
    if path.getLast? = some Path.slash then (fails "open" path .isDirectory, d)
      else (.ok (), d.put p (.file bytes))

def stat (d : Disk) (path : Text) : Except FileError Unit :=
  match d.find path with
  | .error r => fails "stat" path r
  | .ok (.free _) => fails "stat" path .notFound
  | .ok _ => .ok ()

def makeDir (path : Text) : Except FileError Unit × Disk :=
  match d.findPlace path with
  | .error r => (fails "mkdir" path r, d)
  | .ok (.free p) => (.ok (), d.put p .dir)
  | .ok _ => (fails "mkdir" path .alreadyThere, d)

def isDir (path : Text) : Bool :=
  match d.find path with
  | .ok (.dir _) => true
  | _ => false

def isFile (path : Text) : Bool :=
  match d.find path with
  | .ok (.file _ _) => true
  | _ => false

/-- The path without its last part and the slash before that, if that leaves anything. -/
def above? (path : Text) : Option Text :=
  let trimmed := (path.reverse.dropWhile (· = Path.slash)).reverse
  let front := trimmed.take (trimmed.length - (Path.lastPart trimmed).length)
  if 1 < front.length then some front.dropLast else none

def makeDirsWithin (d : Disk) : (depth : Nat) → (path : Text) → Except FileError Unit × Disk
  | 0, path => (fails "mkdir" path .nameTooLong, d)
  | depth + 1, path =>
    if d.isDir path then (.ok (), d)
    else if d.isFile path then (fails "mkdir" path .notDirectory, d)
    else
      let (made, d) := match above? path with
        | some up => makeDirsWithin d depth up
        | none => (.ok (), d)
      match made with
      | .error e => (.error e, d)
      | .ok () =>
        let (made, d) := d.makeDir path
        if d.isDir path then (.ok (), d) else (made, d)

def makeDirs (path : Text) : Except FileError Unit × Disk :=
  d.makeDirsWithin (path.length + 1) path

def removeAll (path : Text) : Except FileError Unit × Disk :=
  if path = [] then (.ok (), d)
  else match d.find path with
    | .ok (.file p _) | .ok (.dir p) => (.ok (), d.remove p)
    | .ok (.free _) | .error .notFound => (.ok (), d)
    | .error r => (fails "open" (Path.parent path) r, d)

instance : Files (StateM Disk) where
  workingDir := return pathText (← get).cwd
  read path := return (← get).read path
  write path bytes := modifyGet (·.write path bytes)
  stat path := return (← get).stat path
  makeDirs path := modifyGet (·.makeDirs path)
  removeAll path := modifyGet (·.removeAll path)

end Disk

end Midlevel
