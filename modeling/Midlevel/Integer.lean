import Midlevel.Text

/-!
Signed 64-bit integers. A result outside the range of a word wraps around. In programs integers are
written with a sign, a base in front, and underscores between digits.
-/

namespace Midlevel.Word

def count : Nat := 0x10000000000000000

def bound : Int := 0x8000000000000000

def inRange (x : Int) : Bool := -bound ≤ x && x < bound

/-- The signed 64-bit word congruent to `x`. -/
def wrap (x : Int) : Int := Int.bmod x count

theorem wrap_of_mem {x : Int} (lo : -bound ≤ x) (hi : x < bound) : wrap x = x := by
  unfold bound at lo hi
  unfold wrap count
  exact Int.bmod_eq_of_le (by omega) (by omega)

theorem wrap_of_ge {x : Int} (lo : bound ≤ x) (hi : x < 3 * bound) : wrap x = x - 2 * bound := by
  unfold bound at *
  simp only [wrap, count, Int.bmod_def]
  omega

end Midlevel.Word

namespace Midlevel.Text

inductive IntegerProblem where
  | malformed
  | outOfRange
  deriving DecidableEq

def lowerByte (b : UInt8) : UInt8 := if 0x41 ≤ b ∧ b ≤ 0x5A then b + 0x20 else b

def digitValue? (b : UInt8) : Option Nat :=
  if 0x30 ≤ b ∧ b ≤ 0x39 then some (b.toNat - 0x30)
  else if 0x61 ≤ lowerByte b ∧ lowerByte b ≤ 0x7A then some ((lowerByte b).toNat - 0x61 + 10)
  else none

/-- The base that `0b`, `0o`, `0x` or a leading `0` stand for, and the digits behind. -/
def baseOf : Text → Nat × Text
  | 0x30 :: r =>
    match r with
    | letter :: d :: ds =>
      if lowerByte letter = 0x62 then (2, d :: ds)
      else if lowerByte letter = 0x6F then (8, d :: ds)
      else if lowerByte letter = 0x78 then (16, d :: ds)
      else (8, r)
    | _ => (8, r)
  | t => (10, t)

/-- Reads digits up to the first one that is wrong or leads out of 64 bits. -/
def magnitude (base n : Nat) : Text → Except IntegerProblem Nat
  | [] => .ok n
  | b :: r =>
    if b = 0x5F then magnitude base n r
    else match digitValue? b with
      | none => .error .malformed
      | some d =>
        if base ≤ d then .error .malformed
        else if Word.count ≤ n * base + d then .error .outOfRange
        else magnitude base (n * base + d) r

/-- Every underscore has something on its left, `afterDigit` for the first byte, and a digit on its
right. -/
def separated (afterDigit : Bool) : Text → Bool
  | [] => true
  | [b] => b ≠ 0x5F
  | a :: b :: r => (a ≠ 0x5F || (afterDigit && b ≠ 0x5F)) && separated (a ≠ 0x5F) (b :: r)

def hasBaseSign (t : Text) : Bool := (baseOf t).2.length + 2 = t.length

def unsigned (t : Text) : Except IntegerProblem Nat := do
  if t = [] then throw .malformed
  let (base, digits) := baseOf t
  let n ← magnitude base 0 digits
  if separated (hasBaseSign t) (if hasBaseSign t then digits else t) then
    return n else throw .malformed

def integer (t : Text) : Except IntegerProblem Int := do
  match t with
  | 0x2D :: r =>
    let n ← unsigned r
    if Word.inRange (-n) then return -n else throw .outOfRange
  | 0x2B :: r =>
    let n ← unsigned r
    if Word.inRange n then return n else throw .outOfRange
  | _ =>
    let n ← unsigned t
    if Word.inRange n then return n else throw .outOfRange

end Midlevel.Text
