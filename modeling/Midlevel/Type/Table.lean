import Midlevel.Type.Basic

/-!
The type table gives every type one id. Scalars, pointers and boxes are found by their descriptor;
tuples and signatures by their parts; structs and concepts, which share one name space, by name.
-/

namespace Midlevel

structure TypeTable where
  descs : Array TypeDesc
  tuples : Array (List TypeId) := #[]
  structs : Array StructInfo := #[]
  concepts : Array ConceptInfo := #[]
  signatures : Array Signature := #[]
  nominals : List (Text × TypeId) := []

namespace TypeTable

variable (t : TypeTable)

def initial : TypeTable where
  descs := #[
    { kind := .invalid },
    { kind := .void },
    { kind := .bool, width := 1 },
    { kind := .int, width := 8 },
    { kind := .int, width := 16 },
    { kind := .int, width := 32 },
    { kind := .int, width := 64 },
    { kind := .float, width := 32 },
    { kind := .float, width := 64 },
    { kind := .opaquePointer }]

/-! ### Looking up -/

def desc? (id : TypeId) : Option TypeDesc :=
  if id = .none then none else t.descs[id.index]?

def kind (t : TypeTable) (id : TypeId) : TypeKind :=
  match t.desc? id with
  | some d => d.kind
  | none => .invalid

def slot? {α : Type} (entries : Array α) : (payload : Nat) → Option α
  | 0 => none
  | k + 1 => entries[k]?

def info? {α : Type} (k : TypeKind) (entries : Array α) (id : TypeId) : Option α :=
  match t.desc? id with
  | some d => if d.kind = k then slot? entries d.payload else none
  | none => none

def struct? (id : TypeId) : Option StructInfo := t.info? .struct t.structs id

def concept? (id : TypeId) : Option ConceptInfo := t.info? .concept t.concepts id

def tuple? (id : TypeId) : Option (List TypeId) := t.info? .tuple t.tuples id

def signature? (id : TypeId) : Option Signature := t.info? .fn t.signatures id

def nominal? (name : Text) : Option TypeId :=
  (t.nominals.find? (·.1 = name)).map (·.2)

def pointee? (id : TypeId) : Option TypeId :=
  match t.desc? id with
  | some d => if d.kind = .pointer then some d.elem else none
  | none => none

def isInt (id : TypeId) : Bool := t.kind id = .int

def structFields (id : TypeId) : List Member :=
  ((t.struct? id).map (·.fields)).getD []

def isHeapAllocated (id : TypeId) : Bool :=
  ((t.struct? id).map (·.heap)).getD false

def isRefCounted (id : TypeId) : Bool :=
  match t.pointee? id with
  | some elem => t.kind elem = .refBox
  | none => false

def memberNamed? (ms : List Member) (name : Text) : Option (Nat × TypeId) :=
  match ms.findIdx? (·.name = name) with
  | some i => (ms[i]?).map fun m => (i, m.type)
  | none => none

def field? (id : TypeId) (name : Text) : Option (Nat × TypeId) :=
  (t.struct? id).bind fun s => memberNamed? s.fields name

def method? (id : TypeId) (name : Text) : Option (Nat × TypeId) :=
  (t.concept? id).bind fun c => memberNamed? c.methods name

def property? (id : TypeId) (name : Text) : Option (Nat × TypeId) :=
  (t.concept? id).bind fun c => memberNamed? c.properties name

def tupleElem? (id : TypeId) (index : Int) : Option TypeId :=
  (t.tuple? id).bind fun es => if index < 0 then none else es[index.toNat]?

def nominalName (id : TypeId) : Text :=
  match t.struct? id with
  | some s => s.name
  | none => ((t.concept? id).map (·.name)).getD []

/-! ### Adding -/

def findBelow (t : TypeTable) (d : TypeDesc) : (n : Nat) → Option TypeId
  | 0 => none
  | n + 1 => if t.descs[n]? = some d then some ⟨n⟩ else t.findBelow d n

def find? (d : TypeDesc) : Option TypeId := t.findBelow d t.descs.size

def append (d : TypeDesc) : TypeId × TypeTable :=
  (⟨t.descs.size⟩, { t with descs := t.descs.push d })

def intern (d : TypeDesc) : TypeId × TypeTable :=
  if d.kind = .invalid then (.none, t)
  else match t.find? d with
    | some id => (id, t)
    | none => t.append d

def pointer (t : TypeTable) (elem : TypeId) : TypeId × TypeTable :=
  t.intern { kind := .pointer, elem }

def refBox (t : TypeTable) (struct : TypeId) : TypeId × TypeTable :=
  t.intern { kind := .refBox, elem := struct }

def reference (struct : TypeId) : TypeId × TypeTable :=
  let (box, t) := t.refBox struct
  t.pointer box

def tuple (t : TypeTable) (elems : List TypeId) : TypeId × TypeTable :=
  match t.tuples.findIdx? (· = elems) with
  | some i => t.intern { kind := .tuple, payload := i + 1 }
  | none =>
    let t := { t with tuples := t.tuples.push elems }
    t.append { kind := .tuple, payload := t.tuples.size }

def function (s : Signature) : TypeId × TypeTable :=
  let s := if s.result = .none then { s with result := .void } else s
  match t.signatures.findIdx? (· = s) with
  | some i => t.intern { kind := .fn, payload := i + 1 }
  | none =>
    let t := { t with signatures := t.signatures.push s }
    t.append { kind := .fn, payload := t.signatures.size }

def freeFunction (params : List TypeId) (result : TypeId) : TypeId × TypeTable :=
  t.function { params, result, conv := .free, self := .none }

/-- Declares a struct. A name that is taken keeps the type it has. -/
def declareStruct (s : StructInfo) : TypeId × TypeTable :=
  match t.nominal? s.name with
  | some id => (id, t)
  | none =>
    let t := { t with structs := t.structs.push s }
    let (id, t) := t.append { kind := .struct, payload := t.structs.size }
    (id, { t with nominals := t.nominals ++ [(s.name, id)] })

def declareConcept (c : ConceptInfo) : TypeId × TypeTable :=
  match t.nominal? c.name with
  | some id => (id, t)
  | none =>
    let t := { t with concepts := t.concepts.push c }
    let (id, t) := t.append { kind := .concept, payload := t.concepts.size }
    (id, { t with nominals := t.nominals ++ [(c.name, id)] })

/-- Changes the side-table entry of a type of kind `k`; other types stay as they are. -/
def modifyInfo {α : Type} (k : TypeKind) (entries : Array α) (id : TypeId) (f : α → α) : Array α:=
  match t.desc? id with
  | some d => if d.kind = k ∧ d.payload ≠ 0 then entries.modify (d.payload - 1) f else entries
  | none => entries

def setFields (id : TypeId) (fields : List Member) : TypeTable :=
  { t with structs := t.modifyInfo .struct t.structs id ({ · with fields }) }

def setMethods (id : TypeId) (methods : List Member) : TypeTable :=
  { t with concepts := t.modifyInfo .concept t.concepts id ({ · with methods }) }

def setProperties (id : TypeId) (properties : List Member) : TypeTable :=
  { t with concepts := t.modifyInfo .concept t.concepts id ({ · with properties }) }

/-! ### The parameters a callee sees -/

/-- The type of the implicit self of receiver `self`: the projected instance of a concept, a
reference to a heap struct, an address of anything else. -/
def selfParam (self : TypeId) : TypeId × TypeTable :=
  if t.kind self = .concept then (.opaquePointer, t)
  else if t.isHeapAllocated self then t.reference self
  else t.pointer self

/-- The parameters of the body of a function type: methods and deinitialisers take self first. -/
def loweredParams (fn : TypeId) : List TypeId × TypeTable :=
  match t.signature? fn with
  | none => ([], t)
  | some s =>
    if s.conv = .method ∨ s.conv = .deinitialiser then
      let (self, t) := t.selfParam s.self
      (self :: s.params, t)
    else (s.params, t)

end TypeTable

end Midlevel
