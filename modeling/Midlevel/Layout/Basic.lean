import Midlevel.Text.Quoted

/-!
What a layout is, why a type may have none, and the machines layouts are computed for.
-/

namespace Midlevel

structure Target where
  triple : Text
  pointerSize : Int
  pointerAlign : Int
  deriving DecidableEq

structure Placement where
  offset : Int
  align : Int
  deriving DecidableEq

structure TypeLayout where
  size : Int
  align : Int
  fields : List Placement := []
  deriving DecidableEq, Inhabited

inductive LayoutError where
  /-- A value type contains itself; the cycle starts and ends with the same type. -/
  | recursive (label : Text) (cycle : List Text)
  | unsized (label : Text)
  | overflow (label : Text) (reason : Text)
  | other (code : UInt8) (label : Text)
  deriving DecidableEq

namespace LayoutError

def message : LayoutError → Text
  | recursive label [] => "recursive value type " ++ label ++ " has infinite size"
  | recursive _ cycle =>
    "recursive value type has infinite size (cycle: " ++ Text.join " -> " cycle ++ ")"
  | unsized label => "type " ++ label ++ " has no layout"
  | overflow label reason => "size of " ++ label ++ " overflows the target: " ++ reason
  | other code label => "layout error kind=" ++ Text.ofNat code.toNat ++ " type " ++ label

end LayoutError

namespace TypeLayout

def empty : TypeLayout := { size := 0, align := 1 }

def scalar (size : Int) : TypeLayout := if size ≤ 0 then empty else { size, align := size }

end TypeLayout

end Midlevel

namespace Midlevel.Target

def x86_64Linux : Target := { triple := "x86_64-linux-gnu", pointerSize := 8, pointerAlign := 8 }

def parse (triple : Text) : Except Text Target :=
  if triple = [] ∨ triple = "x86_64-linux-gnu" ∨ triple = "x86_64-unknown-linux-gnu" then
    .ok x86_64Linux
  else .error ("layout: unsupported target " ++ triple.quote)

end Midlevel.Target
