import Midlevel.Toml.Parser

/-!
What the statements of a document amount to. Each key is defined once. A table that was only named
on the way to another one is implied, and may still be opened by a header of its own.
-/

namespace Midlevel.Toml

inductive Node where
  | leaf (v : Value)
  | table (entries : List (Text × Node))
  /-- The tables that headers with double brackets added, in order. -/
  | tables (items : List (List (Text × Node)))

abbrev Table := List (Text × Node)

def Table.put (t : Table) (name : Text) (n : Node) : Table :=
  if t.any (·.1 = name) then t.map fun e => if e.1 = name then (name, n) else e
    else t ++ [(name, n)]

mutual

/-- A value by itself. A table has one entry for the last part of each of its keys. -/
def Node.ofValue : Value → Node
  | .table pairs => .table (Table.ofPairs pairs [])
  | v => .leaf v

def Table.ofPairs : List (Key × Value) → Table → Table
  | [], t => t
  | (k, v) :: ps, t => Table.ofPairs ps (Table.put t (k.getLast?.getD []) (Node.ofValue v))

end

namespace Table

def get? (t : Table) (name : Text) : Option Node := t.lookup name

def within (t : Table) (name : Text) (f : Table → Option Table) : Option Table :=
  match t.get? name with
  | some (.table s) => (f s).map fun s => t.put name (.table s)
  | some (.tables ss) =>
    match ss.getLast? with
    | some s => (f s).map fun s => t.put name (.tables (ss.dropLast ++ [s]))
    | none => none
  | _ => none

def atPath : Key → (Table → Option Table) → Table → Option Table
  | [], f, t => f t
  | name :: path, f, t => t.within name (atPath path f)

def find? (t : Table) : Key → Option Table
  | [] => some t
  | name :: path =>
    match t.get? name with
    | some (.table s) => find? s path
    | some (.tables ss) => ss.getLast?.bind fun s => find? s path
    | _ => none

end Table

structure Document where
  root : Table := []
  implied : List Key := []
  arrays : List Key := []
  keys : List Key := []
  context : Key := []

abbrev Reading := StateT Document Option

namespace Reading

def imply (k : Key) : Reading Unit := modify fun d => { d with implied := k :: d.implied }

def settle (k : Key) : Reading Unit :=
  modify fun d => { d with implied := d.implied.filter (· ≠ k) }

def onRoot (f : Table → Option Table) : Reading Unit := do
  let d ← get
  match f d.root with
  | some root => set { d with root }
  | none => failure

/-- Notes whether a key stands for an array. A key without a name means the table itself, unless
that is the whole document. -/
def setType (name : Text) (isArray : Bool) : Reading Unit :=
  modify fun d =>
    let k := if name = [] && !d.context.isEmpty then d.context else d.context ++ [name]
    let others := d.arrays.filter (· ≠ k)
    { d with arrays := if isArray then k :: others else others }

/-- Gives a name in the current table its meaning. A name that has one already is wrong, unless it
is an array, which is replaced, or an implied table, which stays. -/
def define (name : Text) (n : Node) : Reading Unit := do
  let d ← get
  let k := d.context ++ [name]
  match d.root.find? d.context with
  | none => failure
  | some t =>
    let put : Reading Unit := onRoot (Table.atPath d.context fun t => some (t.put name n))
    if (t.get? name).isNone then put
    else if k ∈ d.arrays then
      settle k
      put
    else if k ∈ d.implied then settle k
    else failure

/-- Makes sure that the tables on the way to a key exist. `done` is the way so far. -/
def establish (done : Key) : Key → Reading Unit
  | [] | [_] => modify ({ · with context := done })
  | name :: rest => do
    match (← get).root.find? done with
    | none => failure
    | some t =>
      if (t.get? name).isNone then
        imply (done ++ [name])
        onRoot (Table.atPath done fun t => some (t.put name (.table [])))
      establish (done ++ [name]) rest

def addItem (name : Text) : Reading Unit := do
  let context := (← get).context
  onRoot (Table.atPath context fun t =>
    match t.get? name with
    | none => some (t.put name (.tables [[]]))
    | some (.tables ss) => some (t.put name (.tables (ss ++ [[]])))
    | some _ => none)

def enter (k : Key) (item : Bool) : Reading Unit := do
  establish [] k
  let name := k.getLast?.getD []
  if item then addItem name else define name (.table [])
  modify ({ · with context := k })

def enterFront : Key → Reading Unit
  | [] | [_] => return ()
  | name :: rest => do
    let k := (← get).context ++ [name]
    imply k
    enter k false
    enterFront rest

def noteKey (name : Text) : Reading Unit :=
  modify fun d => { d with keys := d.keys ++ [d.context ++ [name]] }

mutual

/-- The meaning of a value that `name` in the current table, or an item of its array, stands for. -/
def eval (name : Text) (item : Bool) : Value → Reading Unit
  | .array vs => do
    setType name true
    evalItems name vs
  | .table pairs => do
    let outer := (← get).context
    imply (outer ++ [name])
    enter (outer ++ [name]) item
    evalPairs (outer ++ [name]) pairs
    modify ({ · with context := outer })
  | _ => return ()

def evalItems (name : Text) : List Value → Reading Unit
  | [] => return ()
  | v :: vs => do
    eval name true v
    evalItems name vs

def evalPairs (context : Key) : List (Key × Value) → Reading Unit
  | [] => return ()
  | (k, v) :: ps => do
    enterFront k
    let name := k.getLast?.getD []
    noteKey name
    eval name false v
    define name (.ofValue v)
    setType name (match v with | .array _ => true | _ => false)
    modify ({ · with context := context })
    evalPairs context ps

end

def obey : Statement → Reading Unit
  | .openTable k => do
    enter k false
    setType [] false
    modify fun d => { d with keys := d.keys ++ [k] }
  | .addTable k => do
    enter k true
    setType [] false
    modify fun d => { d with keys := d.keys ++ [k] }
  | .assign k v => do
    let outer := (← get).context
    evalPairs outer [(k, v)]

end Reading

def Document.parse? (t : Text) : Option Document :=
  (Toml.parse? t).bind fun ss => ((ss.forM Reading.obey).run {}).map (·.2)

end Midlevel.Toml
