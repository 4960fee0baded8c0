import Midlevel.Integer
/-!
Numbers, dates and times of TOML. A scalar is first read as a run of characters that may stand in
one; the functions here say whether the run is well formed.
-/

namespace Midlevel.Toml

def isHexDigit (c : Char) : Bool := c.isDigit || ('a' ≤ c && c ≤ 'f') || ('A' ≤ c && c ≤ 'F')

def digitValue (c : Char) : Nat :=
  if c.isDigit then c.toNat - '0'.toNat
  else if 'a' ≤ c then c.toNat - 'a'.toNat + 10
  else c.toNat - 'A'.toNat + 10

def natOfDigits (base : Nat) (cs : List Char) : Nat :=
  cs.foldl (fun n c => n * base + digitValue c) 0

/-- Whether every underscore stands between digits, and a digit ends the run. `digit` tells whether
the character before was one. -/
def underscoresWithin (digit : Bool) : List Char → Bool
  | [] => digit
  | '_' :: r => digit && underscoresWithin false r
  | c :: r => underscoresWithin (isHexDigit c) r

def underscoresOk (cs : List Char) : Bool := underscoresWithin false cs

def hasLeadingZero : List Char → Bool
  | '0' :: c :: _ => !(c == 'b' || c == 'o' || c == 'x')
  | '+' :: '0' :: _ :: _ | '-' :: '0' :: _ :: _ => true
  | _ => false

def withoutUnderscores (cs : List Char) : List Char := cs.filter (· ≠ '_')

def magnitude : List Char → Nat
  | '0' :: 'x' :: r => natOfDigits 16 r
  | '0' :: 'o' :: r => natOfDigits 8 r
  | '0' :: 'b' :: r => natOfDigits 2 r
  | r => natOfDigits 10 r

def integer? (cs : List Char) : Option Int :=
  if !underscoresOk cs || hasLeadingZero cs then none
  else
    let n : Int := match withoutUnderscores cs with
      | '-' :: r => -(magnitude r : Int)
      | '+' :: r => magnitude r
      | r => magnitude r
    if Word.inRange n then some n else none

/-! ### Numbers with a fraction or an exponent -/

def fieldsBetween (p : Char → Bool) : List Char → List (List Char)
  | [] => []
  | c :: r =>
    if p c then fieldsBetween p r
    else match r with
      | [] => [[c]]
      | d :: _ =>
        if p d then [c] :: fieldsBetween p r
        else match fieldsBetween p r with
          | [] => [[c]]
          | f :: fs => (c :: f) :: fs

def pointsOk : List Char → Bool
  | [] => true
  | '.' :: r => (r.head?.map Char.isDigit).getD false && pointsOk r
  | _ :: r => pointsOk r

def dropSign : List Char → List Char
  | '+' :: r | '-' :: r => r
  | r => r

def scientific? (cs : List Char) : Option (Nat × Int) :=
  let whole := (dropSign cs).takeWhile Char.isDigit
  let r := (dropSign cs).dropWhile Char.isDigit
  let (fraction, r) : List Char × List Char := match r with
    | '.' :: r => (r.takeWhile Char.isDigit, r.dropWhile Char.isDigit)
    | r => ([], r)
  let exponent : Option Int := match r with
    | [] => some 0
    | e :: s =>
      let digits := dropSign s
      if (e == 'e' || e == 'E') && !digits.isEmpty && digits.all Char.isDigit then
        let n : Int := natOfDigits 10 digits
        some (if s.head? == some '-' then -n else n)
      else none
  if whole.isEmpty then none
  else exponent.map fun e => (natOfDigits 10 (whole ++ fraction), e - fraction.length)

/-- Whether `n * 10 ^ e` rounds to a number of 64 bits. Only numbers near the limit are
worked out. -/
def isFinite (n : Nat) (e : Int) : Bool :=
  let size : Int := (toString n).length + e
  if n = 0 ∨ size < 308 then true
  else if 310 < size then false
  else if 0 ≤ e then n * Nat.pow 10 e.toNat < Nat.pow 2 1024 - Nat.pow 2 970
  else n < (Nat.pow 2 1024 - Nat.pow 2 970) * Nat.pow 10 (-e).toNat

def isFloat (cs : List Char) : Bool :=
  let parts := fieldsBetween (fun c => c == '.' || c == 'e' || c == 'E') cs
  parts.all underscoresOk && !(parts.head?.map hasLeadingZero).getD false && pointsOk cs &&
    match scientific? (withoutUnderscores cs) with
    | some (n, e) => isFinite n e
    | none => false

/-! ### Dates and times -/

def digits? (count : Nat) (cs : List Char) : Option (Nat × List Char) :=
  let ds := cs.take count
  if ds.length = count ∧ ds.all Char.isDigit then some (natOfDigits 10 ds, cs.drop count) else none

def expect (c : Char) : List Char → Option (List Char)
  | d :: r => if c = d then some r else none
  | [] => none

def isLeap (year : Nat) : Bool := year % 4 = 0 && (year % 100 ≠ 0 || year % 400 = 0)

def daysIn (year month : Nat) : Nat :=
  if month = 2 then (if isLeap year then 29 else 28)
  else if month = 4 ∨ month = 6 ∨ month = 9 ∨ month = 11 then 30
  else 31

def afterDate (cs : List Char) : Option (List Char) := do
  let (year, r) ← digits? 4 cs
  let (month, r) ← digits? 2 (← expect '-' r)
  let (day, r) ← digits? 2 (← expect '-' r)
  if 1 ≤ month ∧ month ≤ 12 ∧ 1 ≤ day ∧ day ≤ daysIn year month then some r else none

def hour? (cs : List Char) : Option (Nat × List Char) := (digits? 2 cs).or (digits? 1 cs)

def afterClock (cs : List Char) : Option (List Char) := do
  let (hour, r) ← hour? cs
  let (minute, r) ← digits? 2 (← expect ':' r)
  let (second, r) ← digits? 2 (← expect ':' r)
  if hour < 24 ∧ minute < 60 ∧ second < 60 then
    match r with
    | '.' :: d :: r => if d.isDigit then some (r.dropWhile Char.isDigit) else none
    | r => some r
  else none

def isZone : List Char → Bool
  | ['Z'] => true
  | '+' :: r | '-' :: r =>
    match digits? 2 r with
    | some (hour, ':' :: r) =>
      match digits? 2 r with
      | some (minute, []) => hour ≤ 24 && minute ≤ 60
      | _ => false
    | _ => false
  | _ => false

/-- A small letter may stand for a capital one, and a blank for the letter between date and time. -/
def canonical (c : Char) : Char :=
  match c with
  | 'z' => 'Z'
  | 't' | ' ' => 'T'
  | c => c

def isMoment (cs : List Char) : Bool :=
  let cs := cs.map canonical
  match afterDate cs with
  | some [] => true
  | some ('T' :: r) =>
    match afterClock r with
    | some [] => true
    | some r => isZone r
    | none => false
  | some _ => false
  | none => afterClock cs == some []

end Midlevel.Toml
