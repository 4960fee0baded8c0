import Midlevel.Config.File
import Midlevel.Service.Disks

/-!
Requests about settings and the files they come from.
-/

namespace Midlevel.Service.Configs

open Config

/-! ### Answers -/

def ofSink : Trace.Sink → Fields
  | .stderr => [("output", .text "stderr"), ("path", .text [])]
  | .stdout => [("output", .text "stdout"), ("path", .text [])]
  | .file p => [("output", .null), ("path", p)]

def ofTracing (c : Trace.Config) : Json :=
  record [("level", c.level.name), ("mode", c.mode.name), ("format", c.format.code.toNat),
    ("ring", c.ring)] (ofSink c.sink)

def ofSettings (s : Settings) : Json :=
  let tracer := match s.tracing with
    | .ok c => ofTracing c
    | .error reason => ofReason reason
  .object [
    ("opt", .object [("level", s.opt.level), ("disable", ofTexts s.opt.disable),
      ("verify", s.opt.verify)]),
    ("trace", .object [("level", s.trace.level), ("output", s.trace.output),
      ("format", s.trace.format), ("mode", s.trace.mode), ("ring_size", s.trace.ringSize)]),
    ("cache", .object [("enabled", s.cache.enabled), ("dir", s.cache.dir)]),
    ("build", .object [("jobs", s.build.jobs), ("target", s.build.target)]),
    ("path", s.path), ("tracer", tracer)]

def ofLoaded : Except Config.Failure Settings → Json
  | .ok s => .object [("config", ofSettings s)]
  | .error (.unreadable _) => .object [("error", .text "toml")]
  | .error (.error e) => .object (errorFields e)

def ofFound : Except Error (Option Text) → Json
  | .ok path => .object [("path", path.getD []), ("found", path.isSome)]
  | .error e => .object (errorFields e)

/-! ### Files -/

def addTexts : Disk → List (Text × Json) → Read Disk
  | d, [] => return d
  | d, (path, j) :: rest => do
    checkPath path
    addTexts (addFile d path (← readText j)) rest

def startOf (j : Json) (d : Disk) : Read (Text × Disk) := do
  if j.has "raw" then return (← j.get "raw", d)
  let start := Path.join [Disk.pathText rootDir, ← j.get "start"]
  return (start, (d.makeDirs start).2)

/-! ### Settings in the request -/

def setIf {α : Type} [Readable α] (j : Json) (key : Text) (set : Settings → α → Settings)
    (s : Settings) :
    Read Settings := do
  if j.has key then return set s (← j.get key) else return s

def readSettings (j : Json) : Read Settings := do
  let s ← setIf j "level" (fun s t => { s with opt := { s.opt with level := t } }) {}
  let s ← setIf j "trace_level" (fun s t => { s with trace := { s.trace with level := t } }) s
  let s ← setIf j "trace_output" (fun s t => { s with trace := { s.trace with output := t } }) s
  let s ← setIf j "trace_format" (fun s t => { s with trace := { s.trace with format := t } }) s
  let s ← setIf j "trace_mode" (fun s t => { s with trace := { s.trace with mode := t } }) s
  let s ← setIf j "target" (fun s t => { s with build := { s.build with target := t } }) s
  let s ← setIf j "cache_dir" (fun s t => { s with cache := { s.cache with dir := t } }) s
  let s ← setIf j "disable" (fun s ts => { s with opt := { s.opt with disable := ts } }) s
  let s ← setIf j "ring_size" (fun s n => { s with trace := { s.trace with ringSize := n } }) s
  setIf j "jobs" (fun s n => { s with build := { s.build with jobs := n } }) s

def invalidFields (s : Settings) : Fields :=
  match s.invalid? with
  | some e => [("invalid", e.message)]
  | none => []

def run (j : Json) : Read Json := do
  let disk ← addTexts freshDisk (← j.get "files")
  let mode : Text ← j.get "mode"
  if mode = "load" then
    let path : Text ← j.get "path"
    return ofLoaded ((load path : StateM Disk _).run disk).1
  else if mode = "discover" then
    let (start, disk) ← startOf j disk
    return ofLoaded ((discover start : StateM Disk _).run disk).1
  else if mode = "find" then
    let (start, disk) ← startOf j disk
    return ofFound ((find start : StateM Disk _).run disk).1
  else if mode = "validate" then
    let s ← readSettings j
    return record [("config", ofSettings s)] (invalidFields s)
  else unreadable

end Midlevel.Service.Configs
