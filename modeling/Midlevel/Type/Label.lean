import Midlevel.Type.Table

/-!
The text of types. A label spells a type out to a bounded depth; the declaration of a struct or
concept lists its members.
-/

namespace Midlevel.TypeTable

variable (t : TypeTable)

def labelDepth : Nat := 7

def labelWithin (t : TypeTable) : (depth : Nat) → TypeId → Text
  | 0, id => if id = .none then "?" else "..."
  | depth + 1, id =>
    match t.desc? id with
    | none => "?"
    | some d =>
      match d.kind with
      | .void => "Builtin.Void"
      | .bool => "Builtin.Bool"
      | .int => "Builtin.Int" ++ Text.ofNat d.width
      | .float => "Builtin.Float" ++ Text.ofNat d.width
      | .opaquePointer => "Builtin.OpaquePointer"
      | .pointer => "*" ++ t.labelWithin depth d.elem
      | .refBox => t.labelWithin depth d.elem ++ ".refcounted"
      | .struct | .concept => t.nominalName id
      | .tuple =>
        match t.tuple? id with
        | none => "(?)"
        | some elems => "(" ++ Text.join ", " (elems.map (t.labelWithin depth)) ++ ")"
      | .fn =>
        match t.signature? id with
        | none => "fn(?)"
        | some s =>
          let self : Text := if s.self = .none then [] else " " ++ t.labelWithin depth s.self
          s.conv.name ++ self ++ " (" ++ Text.join ", " (s.params.map (t.labelWithin depth)) ++
            ") -> " ++ t.labelWithin depth s.result
      | .invalid | .other _ => "?"

def label (id : TypeId) : Text := t.labelWithin labelDepth id

def labelIn : Option TypeTable → TypeId → Text
  | some t, id => t.label id
  | none, _ => "?"

def memberList (ms : List Member) : Text :=
  Text.join ", " (ms.map fun m => m.name ++ ": " ++ t.label m.type)

/-- The declaration of a struct or concept; any other type is written as its label. -/
def declaration (id : TypeId) : Text :=
  match t.struct? id with
  | some s =>
    (if s.heap then "type refcounted " else "type ") ++ s.name ++ " = \x7b " ++
      memberList t s.fields ++ " \x7d"
  | none =>
    match t.concept? id with
    | some c => "concept " ++ c.name ++ " = \x7b " ++ memberList t c.methods ++ " \x7d"
    | none => t.label id

end Midlevel.TypeTable
