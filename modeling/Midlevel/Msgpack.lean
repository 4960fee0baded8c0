import Midlevel.Text

/-!
MessagePack: a binary form of nested values. Writing takes the shortest form of everything but the
two integer formats of fixed width; reading takes every form.
-/

namespace Midlevel.Msgpack

inductive Value where
  | nil
  | bool (b : Bool)
  | uint8 (n : UInt8)
  | int64 (n : Int64)
  | int (n : Int)
  | float (bytes : Text)
  | str (t : Text)
  | bin (t : Text)
  | array (items : List Value)
  | map (entries : List (Value × Value))
  | ext (kind : UInt8) (bytes : Text)

/-! ### Writing -/

def range (width : Nat) : Nat := Nat.pow 256 width

def bigEndian : (width : Nat) → (n : Nat) → Text
  | 0, _ => []
  | width + 1, n => (n / range width % 256).toUInt8 :: bigEndian width n

/-- What comes after a count: that many bytes, values or pairs of values, or nothing if the count is
the value. -/
inductive Body where
  | nat
  | str
  | bin
  | ext
  | array
  | map
  deriving DecidableEq

namespace Body

/-- The first count that does not go into the first byte, and that byte for 0. -/
def short : Body → Nat × UInt8
  | nat => (128, 0)
  | str => (32, 0xa0)
  | array => (16, 0x90)
  | map => (16, 0x80)
  | bin | ext => (0, 0)

/-- The widths that a count can have, each with its first byte. -/
def wide : Body → List (Nat × UInt8)
  | nat => [(1, 0xcc), (2, 0xcd), (4, 0xce), (8, 0xcf)]
  | str => [(1, 0xd9), (2, 0xda), (4, 0xdb)]
  | bin => [(1, 0xc4), (2, 0xc5), (4, 0xc6)]
  | ext => [(1, 0xc7), (2, 0xc8), (4, 0xc9)]
  | array => [(2, 0xdc), (4, 0xdd)]
  | map => [(2, 0xde), (4, 0xdf)]

def header (b : Body) (n : Nat) : Text :=
  if n < b.short.1 then [b.short.2 + n.toUInt8]
  else match b.wide.find? fun (width, _) => n < range width with
    | some (width, code) => code :: bigEndian width n
    | none => []

end Body

def twosComplement (width : Nat) (n : Int) : Text := bigEndian width (n % range width).toNat

def signed : List (Nat × UInt8) := [(1, 0xd0), (2, 0xd1), (4, 0xd2), (8, 0xd3)]

def intBytes (n : Int) : Text :=
  if 0 ≤ n then Body.nat.header n.toNat
  else if -32 ≤ n then [0xe0 + (n + 32).toNat.toUInt8]
  else match signed.find? fun (width, _) => -(range width / 2 : Nat) ≤ n with
    | some (width, code) => code :: twosComplement width n
    | none => []

mutual

def Value.bytes : Value → Text
  | .nil => [0xc0]
  | .bool b => [if b then 0xc3 else 0xc2]
  | .uint8 n => [0xcc, n]
  | .int64 n => 0xd3 :: twosComplement 8 n.toInt
  | .int n => intBytes n
  | .float t => (if t.length = 4 then 0xca else 0xcb) :: t
  | .str t => Body.str.header t.length ++ t
  | .bin t => Body.bin.header t.length ++ t
  | .array items => Body.array.header items.length ++ itemsBytes items
  | .map entries => Body.map.header entries.length ++ entriesBytes entries
  | .ext kind t => Body.ext.header t.length ++ kind :: t

def itemsBytes : List Value → Text
  | [] => []
  | v :: vs => v.bytes ++ itemsBytes vs

def entriesBytes : List (Value × Value) → Text
  | [] => []
  | (k, v) :: es => k.bytes ++ v.bytes ++ entriesBytes es

end

/-! ### Reading -/

def takeBytes : (n : Nat) → Text → Option (Text × Text)
  | 0, r => some ([], r)
  | _ + 1, [] => none
  | n + 1, b :: r => (takeBytes n r).map fun (t, r) => (b :: t, r)

def ofBigEndian (t : Text) : Nat := t.foldl (fun n b => 256 * n + b.toNat) 0

def takeNat (width : Nat) (r : Text) : Option (Nat × Text) :=
  (takeBytes width r).map fun (t, r) => (ofBigEndian t, r)

def takeInt (width : Nat) (r : Text) : Option (Int × Text) :=
  (takeNat width r).map fun (n, r) =>
    (if n < range width / 2 then (n : Int) else (n : Int) - range width, r)

def takeItems (value : Text → Option (Value × Text)) : (n : Nat) → Text → Option (List Value × Text)
  | 0, r => some ([], r)
  | n + 1, r => do
    let (v, r) ← value r
    let (vs, r) ← takeItems value n r
    return (v :: vs, r)

def takeEntries (value : Text → Option (Value × Text)) :
    (n : Nat) → Text → Option (List (Value × Value) × Text)
  | 0, r => some ([], r)
  | n + 1, r => do
    let (k, r) ← value r
    let (v, r) ← value r
    let (es, r) ← takeEntries value n r
    return ((k, v) :: es, r)

inductive Format where
  | nil
  | bool (b : Bool)
  | int (width : Nat)
  | float (width : Nat)
  | negative (n : Int)
  | short (body : Body) (count : Nat)
  | wide (body : Body) (width : Nat)
  | unused
  deriving DecidableEq

namespace Format

def others : List Format :=
  [nil, unused, bool false, bool true, wide .bin 1, wide .bin 2, wide .bin 4, wide .ext 1,
    wide .ext 2, wide .ext 4,
    float 4, float 8, wide .nat 1, wide .nat 2, wide .nat 4, wide .nat 8, int 1,
      int 2, int 4, int 8,
    short .ext 1, short .ext 2, short .ext 4, short .ext 8, short .ext 16, wide .str 1,
      wide .str 2, wide .str 4,
    wide .array 2, wide .array 4, wide .map 2, wide .map 4]

def of (c : UInt8) : Format :=
  let n := c.toNat
  if n < 0x80 then short .nat n
  else if n < 0x90 then short .map (n - 0x80)
  else if n < 0xa0 then short .array (n - 0x90)
  else if n < 0xc0 then short .str (n - 0xa0)
  else others.getD (n - 0xc0) (negative (n - 256))

end Format

def takeBody (value : Text → Option (Value × Text)) (n : Nat) (r : Text) : Body →
    Option (Value × Text)
  | .nat => some (.int n, r)
  | .str => (takeBytes n r).map fun (t, r) => (.str t, r)
  | .bin => (takeBytes n r).map fun (t, r) => (.bin t, r)
  | .ext => (takeBytes (n + 1) r).map fun (t, r) => (.ext (t.headD 0) t.tail, r)
  | .array => (takeItems value n r).map fun (vs, r) => (.array vs, r)
  | .map => (takeEntries value n r).map fun (es, r) => (.map es, r)

def parseWithin : (depth : Nat) → Text → Option (Value × Text)
  | 0, _ => none
  | _, [] => none
  | depth + 1, c :: r =>
    match Format.of c with
    | .nil => some (.nil, r)
    | .bool b => some (.bool b, r)
    | .int width => (takeInt width r).map fun (n, r) => (.int n, r)
    | .float width => (takeBytes width r).map fun (t, r) => (.float t, r)
    | .negative n => some (.int n, r)
    | .short body n => takeBody (parseWithin depth) n r body
    | .wide body width => (takeNat width r).bind fun (n, r) => takeBody (parseWithin depth) n r body
    | .unused => none

/-- The first value in `t` and what follows it. A value takes more bytes than it is deep. -/
def parse (t : Text) : Option (Value × Text) := parseWithin (t.length + 1) t

/-! ### Reading fields out of values -/

namespace Value

def toInt? : Value → Option Int
  | nil => some 0
  | uint8 n => some n.toNat
  | int64 n => some n.toInt
  | int n => some n
  | _ => none

def toBool? : Value → Option Bool
  | nil => some false
  | bool b => some b
  | _ => none

def toText? : Value → Option Text
  | nil => some []
  | str t | bin t => some t
  | _ => none

mutual

def depth : Value → Nat
  | nil | bool _ | uint8 _ | int64 _ | int _ | float _ | str _ | bin _ | ext _ _ => 0
  | array items => 1 + depthOfItems items
  | map entries => 1 + depthOfEntries entries

def depthOfItems : List Value → Nat
  | [] => 0
  | v :: vs => Nat.max v.depth (depthOfItems vs)

def depthOfEntries : List (Value × Value) → Nat
  | [] => 0
  | (k, v) :: es => Nat.max (Nat.max k.depth v.depth) (depthOfEntries es)

end

end Value

/-! ### Reading what was written more than once

A key may come more than once, and then its values are read into one place, one after the other.
What is there in the end depends on all of them, the history of the place. Every value of a history
has to be readable, also one that leaves no trace. -/

abbrev History := List Value

namespace History

/-- The stretches between values that wipe out whatever came before. -/
def eras (wipes : Value → Bool) : History → List History
  | [] => [[]]
  | v :: h =>
    if wipes v then [] :: eras wipes h
    else match eras wipes h with
      | [] => [[v]]
      | e :: es => (v :: e) :: es

def lastEra {R : Type} (wipes : Value → Bool) (read : History → Option R)
    (h : History) : Option R :=
  ((eras wipes h).mapM read).bind List.getLast?

def last {R : Type} (read : Value → Option R) (zero : R) (h : History) : Option R :=
  (h.mapM read).map (·.getLastD zero)

def isNil : Value → Bool
  | .nil => true
  | _ => false

def option {R : Type} (read : History → Option R) : History → Option (Option R) :=
  lastEra isNil fun era => if era.isEmpty then some none else (read era).map some

def items? : Value → Option (List Value)
  | .array vs => some vs
  | _ => none

/-- The histories of the places of a list: each list is read into the first ones. -/
def places (lists : List (List Value)) : List History :=
  (List.range ((lists.map List.length).foldl Nat.max 0)).map fun i => lists.filterMap (·[i]?)

/-- A list, as long as the last one was; nil wipes out all places. -/
def list {R : Type} (read : History → Option R) : History → Option (List R) :=
  lastEra isNil fun era => do
    let lists ← era.mapM items?
    let rs ← (places lists).mapM read
    return rs.take (lists.getLast?.elim 0 List.length)

def texts (h : History) : Option (List Text) :=
  last (fun v => (items? v).bind (·.mapM Value.toText?)) [] (h.filter (!isNil ·))

def isBlank : Value → Bool
  | .nil | .array [] => true
  | _ => false

/-- What a value gives the fields of a record: a map names them, and unknown names are passed over;
an array has one item for each of them in order. -/
def assignments? (names : List Text) : Value → Option (List (Text × Value))
  | .array vs => if vs.length = names.length then some (names.zip vs) else none
  | .map es => es.mapM fun e => e.1.toText?.map (·, e.2)
  | _ => none

/-- A record, made from the histories of its fields; nil and an empty array wipe out all of them. -/
def record {R : Type} (names : List Text) (make : (Text → History) → Option R) :
    History → Option R :=
  lastEra isBlank fun era => do
    let given ← era.mapM (assignments? names)
    make fun name => given.flatten.filterMap fun a => if a.1 = name then some a.2 else none

end History

end Midlevel.Msgpack
