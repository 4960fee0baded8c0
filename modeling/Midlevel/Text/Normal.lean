import Midlevel.Text.Normal.Tables
import Midlevel.Text.Sequence

/-!
Canonical composition, segment by segment. A segment is a starter with the marks behind it; it is
decomposed, its marks are put in canonical order, and what can be composed is composed. Bytes that
are no characters are starters that compose with nothing. A run of more than thirty marks is broken
up by a grapheme joiner, so that every segment stays short. A text that is cut off inside a
character keeps its end as it is.
-/

namespace Midlevel.Text.Normal

/-! ### Hangul -/

def sBase : Nat := 0xAC00
def lBase : Nat := 0x1100
def vBase : Nat := 0x1161
def tBase : Nat := 0x11A7
def lCount : Nat := 19
def vCount : Nat := 21
def tCount : Nat := 28
def sCount : Nat := lCount * vCount * tCount

def isHangul (c : Nat) : Bool := sBase ≤ c && c < sBase + sCount

def decomposeHangul (c : Nat) : List Nat :=
  let s := c - sBase
  let lv := [lBase + s / (vCount * tCount), vBase + s % (vCount * tCount) / tCount]
  if s % tCount = 0 then lv else lv ++ [tBase + s % tCount]

def composeHangul? (a b : Nat) : Option Nat :=
  if lBase ≤ a && a < lBase + lCount && vBase ≤ b && b < vBase + vCount then
    some (sBase + ((a - lBase) * vCount + (b - vBase)) * tCount)
  else if isHangul a && (a - sBase) % tCount == 0 && tBase < b && b < tBase + tCount then
    some (a + (b - tBase))
  else none

/-! ### Single code points -/

/-- The canonical decomposition, following at most `depth` steps; three are ever needed. -/
def decomposeWithin : (depth : Nat) → Nat → List Nat
  | 0, c => [c]
  | depth + 1, c =>
    if c < 0xC0 then [c]
    else if isHangul c then decomposeHangul c
    else match compositions.findSome? (·.undo? c) <|> exclusions.findSome? (·.undo? c) with
      | some (a, b) => decomposeWithin depth a ++ decomposeWithin depth b
      | none =>
        match aliases.findSome? (·.find? c) with
        | some d => decomposeWithin depth d
        | none => [c]

def decompose (c : Nat) : List Nat := decomposeWithin 3 c

def combiningClass (c : Nat) : Nat := if c < 0x300 then 0 else (inBands classes c).getD 0

/-- The code point that a pair composes to. Pairs are told apart by the low sixteen bits of their
members. -/
def composePair? (a b : Nat) : Option Nat :=
  compositions.findSome? fun r =>
    if r.mark % 65536 = b % 65536 then (r.pairs.find? (·.1 % 65536 == a % 65536)).map
      (·.2) else none

def isJamo (c : Nat) : Bool := lBase ≤ c && c < lBase + 256

def composesBackward (c : Nat) : Bool :=
  (vBase ≤ c && c < vBase + vCount) || (tBase ≤ c && c < tBase + tCount) ||
    (0x300 ≤ c && compositions.any (·.mark == c))

def isMark (c : Nat) : Bool := combiningClass c != 0 || composesBackward c

/-! ### Letters -/

structure Letter where
  text : Sequence
  cls : Nat := 0
  backward : Bool := false

namespace Letter

def code (u : Letter) : Nat :=
  match u.text with
  | .char c => c.toNat
  | _ => 0xFFFD

def isStarter (u : Letter) : Bool := u.cls == 0 && !u.backward

def ofCode (c : Nat) : Letter := ⟨.char (Char.ofNat c), combiningClass c, composesBackward c⟩

def ofSequence : Sequence → List Letter
  | .char c => (decompose c.toNat).map ofCode
  | s => [⟨s, 0, false⟩]

end Letter

/-- How many marks the decomposition of a code point starts and ends with. -/
def edgeMarks (c : Nat) : Nat × Nat :=
  if c < 0xA0 then (0, 0)
  else if isHangul c then (0, if (c - sBase) % tCount = 0 then 1 else 2)
  else match inBands compatibilityMarks c with
    | some counts => counts
    | none =>
      let cs := decompose c
      ((cs.takeWhile isMark).length, (cs.reverse.takeWhile isMark).length)

def edges : Sequence → Nat × Nat
  | .char c => edgeMarks c.toNat
  | _ => (0, 0)

/-! ### Composing a segment -/

structure Composing where
  settled : List Letter := []
  starter : Letter
  marks : List Letter := []

namespace Composing

variable (c : Composing)

/-- A letter of class 0 is the starter for what follows it. -/
def advance : Composing :=
  match c.marks with
  | [] => c
  | m :: ms =>
    if m.cls = 0 then { settled := ms ++ c.starter :: c.settled, starter := m } else c

def push (u : Letter) : Composing := { c with marks := u :: c.marks }

def blocks (u : Letter) : Bool :=
  match c.marks with
  | [] => false
  | m :: _ => u.cls ≤ m.cls

/-- Composes a letter with the starter where a rule says to what, or adds it as it is. -/
def add (rule : Nat → Nat → Option Nat) (c : Composing) (u : Letter) : Composing :=
  let c := c.advance
  match if c.blocks u then none else rule c.starter.code u.code with
  | some r => { c with starter := ⟨.char (Char.ofNat r), 0, false⟩ }
  | none => c.push u

/-- Adds letters in turn. From the first jamo on only Hangul is composed. -/
def addAll (korean : Bool) (c : Composing) : List Letter → Composing
  | [] => c
  | u :: us =>
    if korean || isJamo u.code then addAll true (c.add composeHangul? u) us
    else addAll false (if u.backward then c.add composePair? u else c.push u) us

def letters : List Letter := (c.marks ++ c.starter :: c.settled).reverse

end Composing

def close (segment : List Letter) : Text :=
  match segment.reverse with
  | [] => []
  | u :: us => (Composing.addAll false { starter := u } us).letters.flatMap (·.text.bytes)

def insertMark (segment : List Letter) (u : Letter) : List Letter :=
  match segment with
  | [] => [u]
  | v :: vs => if 0 < u.cls && u.cls < v.cls then v :: insertMark vs u else u :: v :: vs

/-! ### Texts -/

def maxMarks : Nat := 30

def graphemeJoiner : Letter := ⟨.char '\u034f', 0, false⟩

/-- Closes a segment where a starter begins another one. -/
def enter (written : Text × List Letter) (u : Letter) : Text × List Letter :=
  if u.isStarter then (written.1 ++ close written.2, [u]) else (written.1, insertMark written.2 u)

/-- The composition of what follows an open segment, which comes last first and ends with `run`
marks. -/
def composed (run : Nat) (segment : List Letter) : List Sequence → Text
  | [] => close segment
  | .cut bs :: _ => close segment ++ bs
  | s :: ss =>
    let (lead, trail) := edges s
    let letters := Letter.ofSequence s
    if maxMarks < run + lead then
      close (graphemeJoiner :: segment) ++ composed lead (letters.foldl insertMark []) ss
    else if lead = 0 then
      let (text, segment) := letters.foldl enter ([], segment)
      text ++ composed trail segment ss
    else composed (run + lead) (letters.foldl insertMark segment) ss

end Normal

def toNfc (t : Text) : Text := if t.isAscii then t else Normal.composed 0 [] t.sequences

end Midlevel.Text
