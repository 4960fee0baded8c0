/-!
Text is a sequence of bytes. Names, literals, messages and dumps may hold bytes that are not valid
UTF-8, so nothing here assumes an encoding; `Text/Utf8` reads characters where a rule needs them.
-/

namespace Midlevel

abbrev Text := List UInt8

namespace Text

def ofString (s : String) : Text := s.toList.flatMap String.utf8EncodeChar

instance : Coe String Text := ⟨ofString⟩

def ofNat (n : Nat) : Text := ofString (toString n)

def ofNatPadded (width n : Nat) : Text :=
  List.replicate (width - (ofNat n).length) 0x30 ++ ofNat n

def ofInt (n : Int) : Text := ofString (toString n)

def ofBool : Bool → Text
  | true => "true"
  | false => "false"

def join (sep : Text) : List Text → Text
  | [] => []
  | [t] => t
  | t :: u :: ts => t ++ sep ++ join sep (u :: ts)

/-- The maximal stretches free of the byte `b`, in order; never empty. -/
def split (b : UInt8) : Text → List Text
  | [] => [[]]
  | c :: r =>
    if c = b then [] :: split b r
    else match split b r with
      | [] => [[c]]
      | t :: ts => (c :: t) :: ts

def dropPrefix? : (pre t : Text) → Option Text
  | [], t => some t
  | _ :: _, [] => none
  | p :: ps, c :: r => if p = c then dropPrefix? ps r else none

def startsWith (t pre : Text) : Bool := (dropPrefix? pre t).isSome

def endsWith (t suf : Text) : Bool := startsWith t.reverse suf.reverse

def dropSuffix? (suf t : Text) : Option Text :=
  (dropPrefix? suf.reverse t.reverse).map List.reverse

def cut? (b : UInt8) : Text → Option (Text × Text)
  | [] => none
  | c :: r => if c = b then some ([], r) else (cut? b r).map fun (x, y) => (c :: x, y)

def compare : Text → Text → Ordering
  | [], [] => .eq
  | [], _ :: _ => .lt
  | _ :: _, [] => .gt
  | a :: s, b :: t => if a < b then .lt else if b < a then .gt else compare s t

def lt (s t : Text) : Bool := compare s t == .lt

def isAscii (t : Text) : Bool := t.all (· < 0x80)

def blanks (n : Nat) : Text := List.replicate n 0x20

def padRight (width : Nat) (t : Text) : Text := t ++ blanks (width - t.length)

def padLeft (width : Nat) (t : Text) : Text := blanks (width - t.length) ++ t

def hexDigit (n : Nat) : UInt8 := if n < 10 then (48 + n).toUInt8 else (87 + n).toUInt8

def toHex (t : Text) : Text :=
  t.flatMap fun b => [hexDigit (b.toNat / 16), hexDigit (b.toNat % 16)]

def hex (digits n : Nat) : Text :=
  (List.range digits).reverse.map fun i => hexDigit (n / Nat.pow 16 i % 16)

/-- Colours on a terminal. -/
inductive Colour where
  | red
  | green
  | yellow
  | blue
  | magenta
  | cyan
  deriving DecidableEq

def Colour.code : Colour → Nat
  | red => 31
  | green => 32
  | yellow => 33
  | blue => 34
  | magenta => 35
  | cyan => 36

def styled (coloured : Bool) (c : Colour) (t : Text) : Text :=
  if coloured then "\x1b[" ++ ofNat c.code ++ ";1m" ++ t ++ "\x1b[0;22m" else t

end Text

end Midlevel
