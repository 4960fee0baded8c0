import Midlevel.Cache
import Midlevel.Files.Disk
import Midlevel.Service.Steps

/-!
Requests about the cache and its keys.
-/

namespace Midlevel.Service.Caches

open Cache

def readKey (j : Json) : Read Digest := do
  let key : Key :=
    { input := ← j.get "input", level := ← j.get "level", disabled := ← j.get "disabled",
      target := ← j.get "target", library := ← j.get "library" }
  return key.digest

def digest (j : Json) : Read Json := do
  let d ← if j.has "dump" then Digest.ofText <$> j.get "dump" else readKey j
  return .object [("digest", .text d.hex), ("zero", d.isZero)]

def ofFailure : Failure → Json
  | .corrupt .. => .object [("error", .text "corrupt")]
  | f@(.notReproducible ..) => .object [("error", .text "not_reproducible"), ("message", f.message)]
  | .file _ => .object [("error", .text "io")]

/-! ### A cache on an empty disk -/

structure State where
  disk : Disk := {}
  store : Option Store

abbrev Step := Stepwise State

def onDisk {α : Type} (x : StateM Disk α) : Step α :=
  modifyGet fun s => ((x.run s.disk).1, { s with disk := (x.run s.disk).2 })

def keyArg (j : Json) : Step Digest :=
  if j.has "key" then do
    let _ : List (Text × Json) ← j.get "key"
    readKey (j.field "key")
  else return .zero

def entryArg (j : Json) : Step Entry :=
  return .new (← j.get "module") (← j.get "level") (← j.get "dump") (← j.get "listing")

def answerOf {α : Type} (r : Except Failure α) (answer : α → Json) : Json :=
  match r with
  | .ok a => answer a
  | .error f => ofFailure f

def ofEntry : Option Entry → Json
  | none => .object [("hit", .bool false)]
  | some e => .object [("hit", .bool true), ("schema", e.schema.toNat), ("module", e.module),
      ("level", e.level), ("dump", e.dump), ("listing", e.listing), ("hash", .text e.hash.hex)]

def directory : Store := ⟨"cache"⟩

def spoilt (e : Entry) (how : Text) : Text :=
  if how = "schema" then { e with schema := e.schema + 1 }.encode
  else if how = "hash" then { e with dump := e.dump ++ "!" }.encode
  else if how = "garbage" then [0xC1, 0x00]
  else if how = "empty" then []
  else e.encode

def tamper (path bytes : Text) : StateM Disk Unit := do
  discard (Files.makeDirs (Path.parent path))
  discard (Files.write path bytes)

def steps : List (Text × (Json → Step Json)) :=
  [("put", fun j => do
      let key ← keyArg j
      let e ← entryArg j
      match (← get).store with
      | none => return done
      | some s => return answerOf (← onDisk (s.put key e)) fun _ => done),
   ("get", fun j => do
      let key ← keyArg j
      match (← get).store with
      | none => return ofEntry none
      | some s => return answerOf (← onDisk (s.get key)) ofEntry),
   ("check", fun j => do
      return answerOf ((← entryArg j).check (← j.get "fresh")) fun _ => done),
   ("drop", fun _ => do
      match (← get).store with
      | none => return done
      | some s => return answerOf ((← onDisk s.dropAll).mapError .file) fun _ => done),
   ("tamper", fun j => do
      let path := directory.pathOf (← keyArg j)
      onDisk (tamper path (spoilt (← entryArg j) (← j.get "how")))
      return done)]

def run (j : Json) : Read Json := do
  let start : State := { store := if ← j.flag "nil" then none else some directory }
  return .object [("steps", .list (runSteps (stepNamed steps) start (← j.get "steps")).1)]

end Midlevel.Service.Caches
