import Midlevel.Integer
import Midlevel.Json

/-!
Reading requests. A field that is missing or null reads as the empty or zero value of its kind; a
field of another kind makes the request unreadable. Texts that are not UTF-8 come as the hexadecimal
digits of their bytes, in an object with the field `hex`.
-/

namespace Midlevel

namespace Service

inductive Refusal where
  | unreadable
  deriving DecidableEq

abbrev Read := Except Refusal

variable {α : Type}

def unreadable : Read α := .error .unreadable

def hexValue? (b : UInt8) : Option UInt8 :=
  if 0x30 ≤ b ∧ b ≤ 0x39 then some (b - 0x30)
  else if 0x61 ≤ b ∧ b ≤ 0x66 then some (b - 0x57)
  else if 0x41 ≤ b ∧ b ≤ 0x46 then some (b - 0x37)
  else none

def unhex : Text → Read Text
  | [] => .ok []
  | [_] => unreadable
  | a :: b :: r =>
    match hexValue? a, hexValue? b with
    | some x, some y => do return (16 * x + y) :: (← unhex r)
    | _, _ => unreadable

def readText : Json → Read Text
  | .null => .ok []
  | .text t => .ok t
  | .object fields =>
    match (Json.object fields).field "hex" with
    | .text h => unhex h
    | _ => unreadable
  | _ => unreadable

/-- Integers are signed 64-bit words. -/
def readInt : Json → Read Int
  | .null => .ok 0
  | .number n 0 => if Word.inRange n then .ok n else unreadable
  | _ => unreadable

class Readable (α : Type) where
  read : Json → Read α

instance : Readable Json := ⟨.ok⟩

instance (priority := low) [Readable α] : Readable (List α) where
  read
    | .null => .ok []
    | .list js => js.mapM Readable.read
    | _ => unreadable

instance : Readable (List (Text × Json)) where
  read
    | .null => .ok []
    | .object fields => .ok fields
    | _ => unreadable

instance : Readable Text := ⟨readText⟩

instance : Readable Int := ⟨readInt⟩

instance : Readable Bool where
  read
    | .null => .ok false
    | .bool b => .ok b
    | _ => unreadable

def lowByte (n : Int) : UInt8 := (n % 256).toNat.toUInt8

instance : Readable UInt8 := ⟨fun j => return lowByte (← readInt j)⟩

instance : Readable UInt16 := ⟨fun j => return ((← readInt j) % 65536).toNat.toUInt16⟩

instance : Readable Int64 := ⟨fun j => return (← readInt j).toInt64⟩

instance : Readable UInt64 := ⟨fun j => return ((← readInt j) % Word.count).toNat.toUInt64⟩

end Service

def Json.get {α : Type} [Service.Readable α] (j : Json) (key : Text) : Service.Read α :=
  Service.Readable.read (j.field key)

def Json.flag (j : Json) (key : Text) : Service.Read Bool := j.get key

def Json.items (j : Json) (key : Text) : Service.Read (List Json) := j.get key

end Midlevel
