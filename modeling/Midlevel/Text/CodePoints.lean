/-!
Sets of code points, given by the points where membership changes: a code point belongs to the set
if the number of boundaries at or below it is odd.
-/

namespace Midlevel.Text

/-- The numbers in a text, in base 26. The last digit of a number is a small letter, the others are
capitals. A figure is a last digit with the number 1 behind it. -/
def numbers (t : String) : List Nat :=
  (t.toList.foldl (fun (ns, n) c =>
    if c.isUpper then (ns, 26 * (n + (c.toNat - 65)))
    else if c.isLower then (ns.push (n + (c.toNat - 97)), 0)
    else if c.isDigit then ((ns.push (n + (c.toNat - 48))).push 1, 0)
    else (ns, n)) (#[], 0)).1.toList

/-- The points that are as far apart as `gaps` says, the first from 0. -/
def points (gaps : String) : List Nat := ((numbers gaps).scanl (· + ·) 0).tail

/-- The number of entries of the ascending `bounds` that are at most `c`, knowing that it lies
between `lo` and `hi`. -/
def rankWithin (bounds : Array Nat) (c lo hi : Nat) : Nat :=
  if lo < hi then
    let mid := (lo + hi) / 2
    if bounds.getD mid 0 ≤ c then rankWithin bounds c (mid + 1) hi else rankWithin bounds c lo mid
  else lo
termination_by hi - lo

structure CodePoints where
  bounds : Array Nat

namespace CodePoints

def ofGaps (gaps : String) : CodePoints := ⟨(points gaps).toArray⟩

def contains (s : CodePoints) (c : Nat) : Bool := rankWithin s.bounds c 0 s.bounds.size % 2 == 1

end CodePoints

end Midlevel.Text
