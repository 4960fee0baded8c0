import Midlevel.Text

/-!
JSON values.
-/

namespace Midlevel

inductive Json where
  | null
  | bool (b : Bool)
  | number (mantissa : Int) (scale : Nat)
  | text (t : Text)
  | list (items : List Json)
  | object (fields : List (Text × Json))
  deriving Inhabited

namespace Json

def field (j : Json) (key : Text) : Json :=
  match j with
  | object fields => ((fields.find? (·.1 = key)).map (·.2)).getD null
  | _ => null

def has (j : Json) (key : Text) : Bool :=
  match j with
  | object fields => fields.any (·.1 = key)
  | _ => false

def isNull : Json → Bool
  | null => true
  | _ => false

mutual

def depth : Json → Nat
  | null | bool _ | number _ _ | text _ => 0
  | list items => 1 + depthOfItems items
  | object fields => 1 + depthOfFields fields

def depthOfItems : List Json → Nat
  | [] => 0
  | j :: js => Nat.max j.depth (depthOfItems js)

def depthOfFields : List (Text × Json) → Nat
  | [] => 0
  | (_, j) :: fs => Nat.max j.depth (depthOfFields fs)

end

end Json

end Midlevel
