import Midlevel.Files.Basic
import Midlevel.Sha256

/-!
A cache of compiled modules on disk, keyed by the input and every setting that changes the result.
-/

namespace Midlevel.Cache

/-! ### Keys -/

structure Digest where
  bytes : Text
  deriving DecidableEq

namespace Digest

variable (d : Digest)

def ofText (t : Text) : Digest := ⟨Sha256.hash t⟩

def zero : Digest := ⟨List.replicate 32 0⟩

def isZero : Bool := d.bytes.all (· = 0)

def hex : Text := d.bytes.toHex

def short : Text := d.hex.take 12

end Digest

def schemaVersion : UInt16 := 1

structure Key where
  input : Text := []
  level : Text := []
  disabled : List Text := []
  target : Text := []
  library : Bool := false
  deriving DecidableEq

namespace Key

def littleEndian (width n : Nat) : Text := (Msgpack.bigEndian width n).reverse

def framed (t : Text) : Text := littleEndian 8 t.length ++ t

/-- What is hashed. Every part comes after its length, so no two keys have the same bytes. -/
def bytes (k : Key) : Text :=
  littleEndian 2 schemaVersion.toNat ++ framed k.input ++ framed k.level ++ framed k.target ++
    framed [if k.library then 1 else 0] ++ k.disabled.flatMap framed

def digest (k : Key) : Digest := .ofText k.bytes

end Key

/-! ### Entries -/

structure Entry where
  schema : UInt16 := schemaVersion
  module : Text := []
  level : Text := []
  dump : Text := []
  hash : Digest := .zero
  listing : Text := []
  deriving DecidableEq

inductive Failure where
  /-- A stored entry cannot be read, or its dump does not have the hash it should have. -/
  | corrupt (key : Digest) (detail : Text)
  /-- A compilation gave another dump than the cached one. -/
  | notReproducible (module level : Text) (cached fresh : Digest)
  | file (e : FileError)
  deriving DecidableEq

def Failure.message : Failure → Text
  | corrupt key detail => "irstore: corrupt entry: " ++ key.short ++ ": " ++ detail
  | notReproducible module level cached fresh =>
    "irstore: optimised IR is not reproducible: module " ++ module ++ " at " ++ level ++
      ": cached " ++
      cached.short ++ ", got " ++ fresh.short
  | file e => e.message

namespace Entry

open Msgpack (Value)

def new (module level dump listing : Text) : Entry :=
  { module, level, dump, hash := .ofText dump, listing }

def check (e : Entry) (dump : Text) : Except Failure Unit :=
  let fresh := Digest.ofText dump
  if fresh = e.hash then .ok () else .error (.notReproducible e.module e.level e.hash fresh)

def fieldNames : List Text := ["Schema", "Module", "Level", "Dump", "DumpHash", "Listing"]

def encode (e : Entry) : Text :=
  (Value.map [(.str "Schema", .int e.schema.toNat), (.str "Module", .str e.module),
    (.str "Level", .str e.level), (.str "Dump", .str e.dump), (.str "DumpHash", .bin e.hash.bytes),
    (.str "Listing", .str e.listing)]).bytes

/-- A digest from the bytes that were read into it: each read changes the first ones, nil none, and
there are never more than a digest has. -/
def readDigest (h : Msgpack.History) : Option Digest :=
  h.foldlM (fun d v => v.toText?.bind fun t => if t.length ≤ d.bytes.length then
    some ⟨t ++ d.bytes.drop t.length⟩ else none)
    Digest.zero

def read : Msgpack.History → Option Entry :=
  Msgpack.History.record fieldNames fun f => do
    return {
      schema := ← (f "Schema").last (fun v => v.toInt?.map fun n => (n % 65536).toNat.toUInt16) 0
      module := ← (f "Module").last Value.toText? []
      level := ← (f "Level").last Value.toText? []
      dump := ← (f "Dump").last Value.toText? []
      hash := ← readDigest (f "DumpHash")
      listing := ← (f "Listing").last Value.toText? [] }

def decode? (bytes : Text) : Option Entry := (Msgpack.parse bytes).bind fun (v, _) => read [v]

end Entry

/-! ### The store -/

structure Store where
  dir : Text
  deriving DecidableEq

namespace Store

variable {m : Type → Type} [Monad m] [Files m] (s : Store)

def openAt (dir : Text) : m (Except FileError Store) := do
  match ← Files.makeDirs dir with
  | .ok _ => return .ok ⟨dir⟩
  | .error e => return .error e

def pathOf (key : Digest) : Text :=
  Path.join [s.dir, "ir", key.hex.take 2, key.hex ++ ".mp"]

def put (key : Digest) (e : Entry) : m (Except Failure Unit) := do
  let path := s.pathOf key
  match ← Files.makeDirs (Path.parent path) with
  | .error e => return .error (.file e)
  | .ok _ =>
    match ← Files.write path e.encode with
    | .error e => return .error (.file e)
    | .ok _ => return .ok ()

/-- What an entry's bytes say: one of another version counts as missing. -/
def interpret (key : Digest) (bytes : Text) : Except Failure (Option Entry) :=
  match Entry.decode? bytes with
  | none => .error (.corrupt key "malformed")
  | some e =>
    if e.schema ≠ schemaVersion then .ok none
    else if Digest.ofText e.dump ≠ e.hash then .error (.corrupt key "hash mismatch")
    else .ok (some e)

def get (key : Digest) : m (Except Failure (Option Entry)) := do
  match ← Files.read (s.pathOf key) with
  | .ok bytes => return interpret key bytes
  | .error e =>
    match e.reason with
    | .notFound => return .ok none
    | .isDirectory => return .error (.corrupt key e.message)
    | _ => return .error (.file e)

def dropAll : m (Except FileError Unit) := Files.removeAll (Path.join [s.dir, "ir"])

end Store

end Midlevel.Cache
