import Midlevel.Config.Basic
import Midlevel.Toml.Document

/-!
Settings in files. The nearest file above a directory counts; what it does not set keeps
its default.
-/

namespace Midlevel.Config

def fileName : Text := "virc.toml"

/-! ### Reading settings out of a document -/

abbrev Setter := Settings → Toml.Value → Option Settings

def text? : Toml.Value → Option Text
  | .text t => some t
  | _ => none

def texts? : Toml.Value → Option (List Text)
  | .array vs => vs.mapM text?
  | _ => none

def int? : Toml.Value → Option Int
  | .int n => some n
  | _ => none

def bool? : Toml.Value → Option Bool
  | .bool b => some b
  | _ => none

def optKeys : List (Text × Setter) :=
  [("level", fun s v => (text? v).map fun t => { s with opt := { s.opt with level := t } }),
   ("disable", fun s v => (texts? v).map fun ts => { s with opt := { s.opt with disable := ts } }),
   ("verify", fun s v => (bool? v).map fun b => { s with opt := { s.opt with verify := b } })]

def traceKeys : List (Text × Setter) :=
  [("level", fun s v => (text? v).map fun t => { s with trace := { s.trace with level := t } }),
   ("output", fun s v => (text? v).map fun t => { s with trace := { s.trace with output := t } }),
   ("format", fun s v => (text? v).map fun t => { s with trace := { s.trace with format := t } }),
   ("mode", fun s v => (text? v).map fun t => { s with trace := { s.trace with mode := t } }),
   ("ring_size", fun s v => (int? v).map fun n =>
     { s with trace := { s.trace with ringSize := n } })]

def cacheKeys : List (Text × Setter) :=
  [("enabled", fun s v => (bool? v).map fun b => { s with cache := { s.cache with enabled := b } }),
   ("dir", fun s v => (text? v).map fun t => { s with cache := { s.cache with dir := t } })]

def buildKeys : List (Text × Setter) :=
  [("jobs", fun s v => (int? v).map fun n => { s with build := { s.build with jobs := n } }),
   ("target", fun s v => (text? v).map fun t => { s with build := { s.build with target := t } })]

def sections : List (Text × List (Text × Setter)) :=
  [("opt", optKeys), ("trace", traceKeys), ("cache", cacheKeys), ("build", buildKeys)]

/-- A character without its case. Besides the ASCII letters only the long s and the Kelvin sign are
other forms of an ASCII letter. -/
def foldCase (c : Char) : Char :=
  if c.toNat = 0x17F then 's' else if c.toNat = 0x212A then 'k' else c.toLower

def entry? {α : Type} (table : List (Text × α)) (name : Text) : Option α :=
  match table.lookup name with
  | some a => some a
  | none => (table.find? fun e => e.1.chars = name.chars.map foldCase).map (·.2)

abbrev Decoded := Settings × List Toml.Key

def decodeSection (name : Text) (keys : List (Text × Setter)) :
    Toml.Table → Decoded → Option Decoded
  | [], d => some d
  | (key, node) :: rest, (s, read) => do
    match entry? keys key, node with
    | none, _ => decodeSection name keys rest (s, read)
    | some setter, .leaf v => decodeSection name keys rest (← setter s v, [name, key] :: read)
    | some _, _ => none

def decodeRoot : Toml.Table → Decoded → Option Decoded
  | [], d => some d
  | (name, node) :: rest, (s, read) => do
    match entry? sections name, node with
    | none, _ => decodeRoot rest (s, read)
    | some keys, .table t => decodeRoot rest (← decodeSection name keys t (s, [name] :: read))
    | some _, _ => none

/-- Reads a document over the defaults: the settings, and the keys that no setting reads. None if
the document is not well formed or a value is of the wrong kind. -/
def decode? (t : Text) : Option (Settings × List Toml.Key) := do
  let doc ← Toml.Document.parse? t
  let (s, read) ← decodeRoot doc.root ({}, [])
  return (s, doc.keys.filter (!read.contains ·))

/-! ### Files -/

inductive Failure where
  | unreadable (path : Text)
  | error (e : Error)

def Failure.toError : Failure → Error
  | unreadable path => .within path (.plain "failed to parse TOML")
  | error e => e

def resolve (root path : Text) : Text :=
  if path = [] ∨ Path.isAbsolute path then path else Path.join [root, path]

def Settings.resolved (s : Settings) (path : Text) : Settings :=
  let root := Path.parent path
  let output := s.trace.output
  { s with
    path
    cache := { s.cache with dir := resolve root s.cache.dir }
    trace := { s.trace with output := if output = "stderr" ∨ output = "stdout" then output
                              else resolve root output } }

def interpret (path text : Text) : Except Failure Settings := do
  match decode? text with
  | none => throw (.unreadable path)
  | some (_, k :: ks) =>
    throw (.error (.within path
      (.because .unknownKey (Text.join ", " ((k :: ks).map Toml.Key.text)))))
  | some (s, []) =>
    let s := s.resolved path
    match s.invalid? with
    | some e => throw (.error (.within path e))
    | none => return s

variable {m : Type → Type} [Monad m] [Files m]

def load (path : Text) : m (Except Failure Settings) := do
  match ← Files.read path with
  | .ok text => return interpret path text
  | .error _ => return .error (.unreadable path)

def findFrom : (depth : Nat) → (dir : Text) → m (Except Error (Option Text))
  | 0, _ => return .ok none
  | depth + 1, dir => do
    let candidate := Path.join [dir, fileName]
    match ← Files.stat candidate with
    | .ok _ => return .ok (some candidate)
    | .error e =>
      if e.reason ≠ .notFound then
        return .error (.within ("failed to stat " ++ candidate.quote) e.toError)
      else if Path.parent dir = dir then return .ok none
      else findFrom depth (Path.parent dir)

def find (start : Text) : m (Except Error (Option Text)) := do
  let dir ← Path.absolute (if start = [] then "." else start)
  findFrom (dir.length + 1) dir

def discover (start : Text) : m (Except Failure Settings) := do
  match ← find start with
  | .error e => return .error (.error e)
  | .ok none => return .ok {}
  | .ok (some path) => load path

end Midlevel.Config
