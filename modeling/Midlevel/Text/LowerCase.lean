import Midlevel.Text.CodePoints
import Midlevel.Text.Utf8

/-!
Lower case, character by character, as Unicode 17 has it, and reading keywords: case does not
matter, and neither do blanks around them where a rule says so.
-/

namespace Midlevel.Text

/-- The capitals `first`, `first + step`, … up to `last`; their small letters are as far apart and
start with `small`. -/
structure CaseRun where
  first : Nat
  last : Nat
  step : Nat
  small : Nat

namespace CaseRun

def contains (r : CaseRun) (c : Nat) : Bool :=
  r.first ≤ c && c ≤ r.last && (c - r.first) % r.step == 0

def lower (r : CaseRun) (c : Nat) : Nat := r.small + (c - r.first)

/-- Runs from four numbers each: the way from the first capital of the run `before`, the way to the
last one, the step, and twice the way to the small letter, less one if that stands before the
capital. -/
def ofNumbers (before : Nat) : List Nat → List CaseRun
  | gap :: length :: step :: way :: ns =>
    let first := before + gap
    let small := if way % 2 = 0 then first + way / 2 else first - (way + 1) / 2
    ⟨first, first + length, step, small⟩ :: ofNumbers first ns
  | _ => []

end CaseRun

def capitals : List CaseRun := CaseRun.ofNumbers 0 (numbers "
  HkwbCmy6CmBoBuccBw0PhcecchoccrBsccBu0J7ecci0Q4ccce0Pwb0c2bPuc0cd0G20Pob0Pqb0cc0Pub0Pyc0Q60Q20ce0Q6
  0Qkc0Qmbeccg0Qub0cc0Qud0cc0Qub0c2bQscccce0Qwb0ce0ci040cc040cc04qcctqcct04ccce0Hlb0E7BmccBo0Jzcqccy
  0BFYkb0cc0Mnb0BFYed0cc0Ozb0F80FmbiccLmcccg0cj0Iyh0Cyc2Cwe0Ey2bEwdqbCms8CmBs0qjwccBc0Epd0cc0nb0cd2J
  zdpbGeqB5CmDcBgccBqCaccCc0B4mccpDqccDtBlbDsEIpBlbVMuBn0VMug0VMuBBvD1EKZoDc5qDGr0chBqbIXjBt2IXjMlFs
  ccGc0WNtcDqccEa7pq5pq7pq7pq5prgcpp7pBg7pq7pq7pq1p2bFrc0rm3Gpe0rm1p2bHro1p2bIpc0nm1Jv2bJrc0rLm0WGfe
  0YUvb0YLnh0CeBupbBgBj0cBFnzbCaCTuBvbDsDs0cc0BFU90LH90BFTddeccg0BFX50BFUvb0BFXlb0BFXjc0cd0c9bBFZxcD
  uccEdccch0cBTYkBsccCmBaccGgmccqCiccCtccce0EANvbiccn0cc0EVChdcccgsccu0EVElb0EVF70EVEzb0EVE50EVElc0E
  VApb0EVClb0EVAvb0CTkboccq0Drb0EVE90EARvbccce0EVH3occq0EVXxz0cBHAizbCmBVzBnbDcGuB9DcHkBkcD0icDammcD
  aqecDai0DaCQdBybEyIavbCmEHkB5CmBGLcB5CmDsybCcBUIyB7Cq")

def lowerCase (c : Char) : Char :=
  if c.toNat < 0x80 then (if 'A' ≤ c ∧ c ≤ 'Z' then Char.ofNat (c.toNat + 32) else c)
  else match capitals.find? (·.contains c.toNat) with
    | some r => Char.ofNat (r.lower c.toNat)
    | none => c

def lowered (t : Text) : Text := ofChars (t.chars.map lowerCase)

def isBlank (c : Char) : Bool :=
  let n := c.toNat
  (0x09 ≤ n && n ≤ 0x0D) || n == 0x20 || n == 0x85 || n == 0xA0 || n == 0x1680 ||
    (0x2000 ≤ n && n ≤ 0x200A) || n == 0x2028 || n == 0x2029 || n == 0x202F || n == 0x205F ||
    n == 0x3000

def Piece.isBlank : Piece → Bool
  | .char c => Text.isBlank c
  | .stray _ => false

def trim (t : Text) : Text :=
  ofPieces ((t.pieces.dropWhile Piece.isBlank).reverse.dropWhile Piece.isBlank).reverse

/-- Whether a text is the ASCII keyword `word`, given in lower case, in any case. -/
def isKeyword (t word : Text) : Bool := t.lowered == word

def keyword? {α : Type} (t : Text) (table : List (Text × α)) : Option α :=
  (table.find? fun (word, _) => t.isKeyword word).map (·.2)

end Midlevel.Text
