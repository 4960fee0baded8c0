import Midlevel.Text.Cluster.Tables
import Midlevel.Text.Sequence

/-!
Clusters: the stretches of text that a reader takes for one character, such as a letter with its
marks, a flag, or pictographs that are joined.
-/

namespace Midlevel.Text

namespace Cluster

inductive Role where
  | carriageReturn
  | lineFeed
  | control
  | extend
  | joiner
  | regional
  | prepend
  | spacing
  /-- The parts of Korean syllables: a leading consonant, a vowel, a trailing consonant, and
  syllables without and with a trailing consonant. -/
  | leading
  | vowel
  | trailing
  | openSyllable
  | closedSyllable
  | pictograph
  /-- What is left of a character that the text breaks off in; it stays with whatever stands
  before. -/
  | cut
  | other
  deriving DecidableEq

def inAny (n : Nat) (ranges : List (Nat × Nat)) : Bool := ranges.any fun r => r.1 ≤ n && n ≤ r.2

def Role.ofChar (c : Char) : Role :=
  let n := c.toNat
  if n = 0x0D then carriageReturn
  else if n = 0x0A then lineFeed
  else if n < 0x7F ∧ 0x20 ≤ n then other
  else if n = 0x200D then joiner
  else if controls.contains n then control
  else if extenders.contains n then extend
  else if inAny n [(0x1F1E6, 0x1F1FF)] then regional
  else if prepended.contains n then prepend
  else if spacingMarks.contains n then spacing
  else if inAny n [(0x1100, 0x115F), (0xA960, 0xA97C)] then leading
  else if inAny n [(0x1160, 0x11A7), (0xD7B0, 0xD7C6)] then vowel
  else if inAny n [(0x11A8, 0x11FF), (0xD7CB, 0xD7FB)] then trailing
  else if inAny n [(0xAC00, 0xD7A3)] then (if (n - 0xAC00) % 28 = 0 then openSyllable
    else closedSyllable)
  else if pictographs.contains n then pictograph
  else other

structure Front where
  last : Role
  pictured : Bool := false
  linked : Bool := false
  halves : Nat := 0

def isBreaker : Role → Bool
  | .carriageReturn | .lineFeed | .control => true
  | _ => false

def Front.joins (f : Front) (r : Role) : Bool :=
  match f.last, r with
  | _, .cut | .carriageReturn, .lineFeed => true
  | last, r =>
    if isBreaker last || isBreaker r then false
    else match last, r with
      | .leading, .leading | .leading, .vowel | .leading, .openSyllable | .leading,
        .closedSyllable => true
      | .openSyllable, .vowel | .openSyllable, .trailing | .vowel, .vowel | .vowel,
        .trailing => true
      | .closedSyllable, .trailing | .trailing, .trailing => true
      | _, .extend | _, .joiner | _, .spacing => true
      | .prepend, _ => true
      | .joiner, .pictograph => f.linked
      | .regional, .regional => f.halves % 2 = 1
      | _, _ => false

def Front.next (f : Front) (r : Role) : Front where
  last := r
  pictured := r = .pictograph || (r = .extend && f.pictured)
  linked := r = .joiner && f.pictured
  halves := if r = .regional then f.halves + 1 else 0

def Front.start (r : Role) : Front := Front.next { last := .other } r

/-- Divides what has roles into clusters, given the one that is open, which comes last first. -/
def divide {α : Type} (role : α → Role) (front : Front) (opened : List α) : List α → List (List α)
  | [] => if opened.isEmpty then [] else [opened.reverse]
  | x :: xs =>
    let r := role x
    if opened.isEmpty then divide role (.start r) [x] xs
    else if front.joins r then divide role (front.next r) (x :: opened) xs
    else opened.reverse :: divide role (.start r) [x] xs

def joined {α : Type} (role : α → Role) (front : Front) : List α → List α
  | [] => []
  | x :: xs => if front.joins (role x) then x :: joined role (front.next (role x)) xs else []

def Role.ofSequence : Sequence → Role
  | .char c => .ofChar c
  | .broken _ => .other
  | .cut _ => .cut

def Role.ofPiece : Piece → Role
  | .char c => .ofChar c
  | .stray _ => .other

end Cluster

def clusters (t : Text) : List Text :=
  (Cluster.divide .ofSequence { last := .other } [] t.sequences).map (·.flatMap Sequence.bytes)

end Midlevel.Text
