import Midlevel.Listing
import Midlevel.Service.Session.Basic
import Midlevel.Type.Conformance

/-!
Steps on types and layouts.
-/

namespace Midlevel.Service.Session

open Ir Build

def typeAnswer (j : Json) (t : TypeId) : Step Json := do
  naming j t
  return .object [("id", t.index), ("label", ofLabel (← module) t)]

instance : Command (Build TypeId) := ⟨fun x _ j => building x (typeAnswer j)⟩

def declarationAnswer (t : TypeId) : Step Json := do
  return .object [("decl", (← module).types.declaration t)]

def replacing (f : TypeTable → TypeId → List Member → TypeTable) (t : TypeId)
    (ms : List Member) : Step Json :=
  building (onTypes fun types => ((), f types t ms)) fun _ => declarationAnswer t

def ofSome {α : Type} (key : Text) (o : Option α) (f : α → Json) : Fields :=
  match o with
  | some a => [(key, f a)]
  | none => []

def ofLabels (m : Module) (ts : List TypeId) : Json := .list (ts.map (ofLabel m))

def ofSignature (m : Module) (s : Signature) : Json :=
  .object [("params", ofLabels m s.params), ("result", ofLabel m s.result),
    ("conv", s.conv.name), ("self", ofLabel m s.self)]

def typeInfo (m : Module) (id : TypeId) : Fields :=
  let t := m.types
  let common : Fields :=
    [("id", id.index), ("found", (t.desc? id).isSome), ("kind", (t.kind id).name),
     ("label", t.label id), ("decl", t.declaration id),
     ("nominal", t.nominalName id), ("is_int", t.isInt id),
     ("heap", t.isHeapAllocated id), ("refcounted", t.isRefCounted id)]
  common ++
  ofSome "elem" (t.desc? id) (ofNat ·.elem.index) ++
  ofSome "width" (t.desc? id) (ofNat ·.width) ++
  ofSome "payload" (t.desc? id) (ofNat ·.payload) ++
  ofSome "pointee" (t.pointee? id) (ofLabel m) ++
  ofSome "fields" (if t.structFields id = [] then none else some (t.structFields id))
    (ofMembers m) ++
  ofSome "methods" (t.concept? id) (ofMembers m ·.methods) ++
  ofSome "props" (t.concept? id) (ofMembers m ·.properties) ++
  ofSome "elems" (t.tuple? id) (ofLabels m) ++
  ofSome "fn" (t.signature? id) (ofSignature m)

def typeInfoStep (id : TypeId) (must : Bool) : Step Json := do
  let m ← module
  if must ∧ (m.types.desc? id).isNone then return ← report (.crash .invalidTypeId) []
  let kind : Fields := if must then [("must", (m.types.kind id).name)] else []
  return record (typeInfo m id) kind

def ofMember (m : Module) (found : Option (Nat × TypeId)) : Json :=
  .object [("index", ofInt ((found.map fun x => (x.1 : Int)).getD (-1))),
    ("type", ofLabel m ((found.map (·.2)).getD .none)), ("found", found.isSome)]

def memberStep (id : TypeId) (sort name : Text) (index : Int) : Step Json := do
  let m ← module
  if sort = "field" then return ofMember m (m.types.field? id name)
  else if sort = "method" then return ofMember m (m.types.method? id name)
  else if sort = "prop" then return ofMember m (m.types.property? id name)
  else if sort = "elem" then
    let e := m.types.tupleElem? id index
    return .object [("type", ofLabel m (e.getD .none)), ("found", e.isSome)]
  else refuse

def typeSteps : List (Text × Handler) :=
  [("intern", command (fun (kind width : UInt8) (payload : Int) (elem : Option TypeId) =>
      onTypes (·.intern ⟨.ofCode kind, elem.getD .none, width.toNat,
        (payload % 0x100000000).toNat⟩))
      ["kind", "width", "payload", "elem"]),
   ("pointer", command (fun t : TypeId => onTypes (·.pointer t)) ["elem"]),
   ("refbox", command (fun t : TypeId => onTypes (·.refBox t)) ["elem"]),
   ("tuple", command (fun ts : List TypeId => onTypes (·.tuple ts)) ["elems"]),
   ("self_param", command (fun t : TypeId => onTypes (·.selfParam t)) ["type"]),
   ("fn", command
       (fun (params : List TypeId) (result : Option TypeId) (conv : UInt8) (self : Option TypeId) =>
      onTypes (·.function { params, result := result.getD .none, conv := .ofCode conv,
                            self := self.getD .none }))
      ["params", "result", "conv", "self"]),
   ("struct", command (fun (name : Text) (fields : List Member) (heap : Bool) =>
     onTypes (·.declareStruct { name, fields, heap }))
      ["name", "fields", "heap"]),
   ("concept", command (fun (name : Text) (methods : List Member) =>
     onTypes (·.declareConcept { name, methods }))
      ["name", "methods"]),
   ("set_fields", command (replacing TypeTable.setFields) ["type", "fields"]),
   ("set_methods", command (replacing TypeTable.setMethods) ["type", "methods"]),
   ("set_props", command (replacing TypeTable.setProperties) ["type", "props"]),
   ("stdlib_types", fun _ =>
      building (onTypes libraryTypes) fun (int, bool) => do
        modify fun s => { s with types := ("Int", int) :: ("Bool", bool) :: s.types }
        return .object [("int", int.index), ("bool", bool.index)]),
   ("type_info", command typeInfoStep ["type", "must"]),
   ("lowered", command (fun t : TypeId => building (onTypes (·.loweredParams t)) fun ps => do
        return .object [("params", ofLabels (← module) ps)]) ["type"]),
   ("nominal", fun j => do
      match (← module).types.nominal? (← j.get "name") with
      | some t => typeAnswer j t
      | none => return notFound),
   ("member", command memberStep ["type", "of", "name", "index"]),
   ("conforms", command (fun (t c : TypeId) (methods : List Text) => show Step Json from do
      match (← module).types.conforms t c (methods.contains ·) with
      | .ok () => return done
      | .error reason => report (.error (.plain reason)) []) ["type", "concept", "has"])]

/-! ### Layouts -/

def querying {α : Type} (x : TypeTable → Target → Layout.Query α) : Step α := do
  let s ← get
  let (a, memory) := (x s.builder.module.types s.target).run s.memory
  set { s with memory }
  return a

def layoutFields (l : TypeLayout) : Fields :=
  let column (f : Placement → Int) : Json :=
    if l.fields.isEmpty then .null else .list (l.fields.map fun p => ofInt (f p))
  [("size", l.size), ("align", l.align), ("offsets", column (·.offset)),
   ("aligns", column (·.align))]

def fieldOffsetStep (t : TypeId) (n : Int) : Step Json := do
  let offset ← querying fun types target => Layout.fieldOffset types target t n
  let size ← querying fun types target => Layout.sizeOf types target t
  let align ← querying fun types target => Layout.alignOf types target t
  match offset, size, align with
  | .ok offset, .ok size, .ok align =>
    return .object [("offset", offset), ("size", size), ("align", align)]
  | .error e, _, _ | _, .error e, _ | _, _, .error e => report (.error (.layout e)) []

def lowering {α : Type} (x : Listing.Lower α) (answer : α → Step Json) : Step Json := do
  let s ← get
  let (outcome, l) := x.run.run { builder := s.builder, target := s.target, memory := s.memory }
  set { s with builder := { s.builder with module := l.builder.module }, memory := l.memory }
  match outcome with
  | .ok a => answer a
  | .error f => report f []

def layoutSteps : List (Text × Handler) :=
  [("target", command (fun (triple : Text) (pointerSize pointerAlign : Int) =>
      show Step Json from do
      modify fun s => { s with target := { triple, pointerSize, pointerAlign }, memory := [] }
      return done) ["triple", "ptr_size", "ptr_align"]),
   ("layout", command (fun t : TypeId => show Step Json from do
      match ← querying fun types target => Layout.layoutOf types target t with
      | .ok l => return .object (layoutFields l)
      | .error e => report (.error (.layout e)) (layoutFields .empty)) ["type"]),
   ("field_offset", command fieldOffsetStep ["type", "index"]),
   ("lower_type", command (fun t : TypeId => lowering (Listing.lowerType t) fun mt => pure (.object
        [("name", mt.name), ("size", mt.size), ("align", mt.align)])) ["type"])]

end Midlevel.Service.Session
