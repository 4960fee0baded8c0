import Midlevel.Type.Label

/-!
When a struct provides what a concept requires.
-/

namespace Midlevel.TypeTable

def missingProperty? (t : TypeTable) (struct : TypeId) (concept : Text) (p : Member) :
    Option Text :=
  match t.field? struct p.name with
  | none => some (t.label struct ++ " has no property " ++ p.name ++ " required by " ++ concept)
  | some (_, type) =>
    if type = p.type then none
    else some (t.label struct ++ "." ++ p.name ++ " has type " ++ t.label type ++ ", " ++ concept ++
      " requires " ++ t.label p.type)

/-- Every method of the concept must be among those of the struct, as `hasMethod` knows them, and
every property must be a field of the same type. The first requirement that is not met is the
answer. -/
def conforms (t : TypeTable) (struct concept : TypeId) (hasMethod : Text → Bool) :
    Except Text Unit :=
  match t.concept? concept with
  | none => .error ("type " ++ t.label concept ++ " is not a concept")
  | some c =>
    match c.methods.find? fun m => !hasMethod m.name with
    | some m => .error (t.label struct ++ " does not implement " ++ c.name ++ "." ++ m.name)
    | none =>
      match c.properties.findSome? (t.missingProperty? struct c.name) with
      | some violation => .error violation
      | none => .ok ()

end Midlevel.TypeTable
