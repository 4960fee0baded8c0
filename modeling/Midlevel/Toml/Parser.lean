import Midlevel.Toml.Basic
import Midlevel.Toml.Scalar

/-!
Reading the statements of a document. Every function takes the characters that are left and returns
those that it leaves; where one calls itself, its first argument bounds how often.
-/

namespace Midlevel.Toml

def isBlank (c : Char) : Bool := c == ' ' || c == '\t'

def isNewline (c : Char) : Bool := c == '\n' || c == '\r'

def skipBlanks (cs : List Char) : List Char := cs.dropWhile isBlank

def skipComment (cs : List Char) : List Char := cs.dropWhile fun c => !isNewline c

def skipSpace : (bound : Nat) → List Char → List Char
  | 0, cs => cs
  | bound + 1, cs =>
    match cs.dropWhile fun c => isBlank c || isNewline c with
    | '#' :: r => skipSpace bound (skipComment r)
    | r => r

/-! ### Strings -/

def scalar? (digits : List Char) (count : Nat) : Option Char :=
  if digits.length = count ∧ digits.all isHexDigit then
    let n := natOfDigits 16 digits
    if h : n.isValidChar then some (Char.ofNatAux n h) else none
  else none

def escaped? : List Char → Option (Char × List Char)
  | 'b' :: r => some (Char.ofNat 0x08, r)
  | 't' :: r => some ('\t', r)
  | 'n' :: r => some ('\n', r)
  | 'f' :: r => some (Char.ofNat 0x0C, r)
  | 'r' :: r => some ('\r', r)
  | '"' :: r => some ('"', r)
  | '\\' :: r => some ('\\', r)
  | 'u' :: r => (scalar? (r.take 4) 4).map fun c => (c, r.drop 4)
  | 'U' :: r => (scalar? (r.take 8) 8).map fun c => (c, r.drop 8)
  | _ => none

def basicString : (bound : Nat) → List Char → Option (List Char × List Char)
  | 0, _ | _, [] => none
  | _, '"' :: r => some ([], r)
  | bound + 1, '\\' :: r => do
    let (c, r) ← escaped? r
    let (cs, r) ← basicString bound r
    return (c :: cs, r)
  | bound + 1, c :: r => do
    if isNewline c then none
    else
      let (cs, r) ← basicString bound r
      return (c :: cs, r)

def rawString : List Char → Option (List Char × List Char)
  | [] => none
  | '\'' :: r => some ([], r)
  | c :: r => if isNewline c then none else (rawString r).map fun (cs, r) => (c :: cs, r)

/-- What a run of quotes in a string of several lines means: fewer than three are part of it, up to
five end it with the first ones part of it, and more are wrong. -/
inductive Quotes where
  | content
  | ending (content : Nat)
  | wrong

/-- Right behind a backslash that stands for itself six quotes end the string too. -/
def Quotes.ofCount (backslash : Bool) (n : Nat) : Quotes :=
  if n < 3 then content else if n ≤ 5 || (n = 6 && backslash) then ending (n - 3) else wrong

/-- A string of several lines, after its first quotes; `backslash` tells whether a backslash that
stands for itself comes right before. -/
def longString (quote : Char) (escapes : Bool) :
    (bound : Nat) → (backslash : Bool) → List Char → Option (List Char × List Char)
  | 0, _, _ | _, _, [] => none
  | bound + 1, backslash, c :: r => do
    if c == quote then
      let run := (c :: r).takeWhile (· == quote)
      let after := (c :: r).drop run.length
      match Quotes.ofCount backslash run.length with
      | .ending n => some (List.replicate n quote, after)
      | .wrong => none
      | .content =>
        let (cs, r) ← longString quote escapes bound false after
        return (run ++ cs, r)
    else if escapes && c == '\\' then
      let space := r.takeWhile fun c => isBlank c || isNewline c
      if space.isEmpty then
        let (c, after) ← escaped? r
        let (cs, r) ← longString quote escapes bound (r.head? == some '\\') after
        return (c :: cs, r)
      else if space.contains '\n' then longString quote escapes bound false (r.drop space.length)
      else none
    else
      let (cs, r) ← longString quote escapes bound false r
      return (c :: cs, r)

def dropNewline : List Char → List Char
  | '\n' :: r | '\r' :: '\n' :: r => r
  | r => r

def string? (cs : List Char) : Option (Text × List Char) :=
  let result := match cs with
    | '"' :: '"' :: '"' :: r => longString '"' true (r.length + 1) false (dropNewline r)
    | '"' :: r => basicString (r.length + 1) r
    | '\'' :: '\'' :: '\'' :: r => longString '\'' false (r.length + 1) false (dropNewline r)
    | '\'' :: r => rawString r
    | _ => none
  result.map fun (cs, r) => (Text.ofChars cs, r)

/-! ### Keys -/

def keyPart? (cs : List Char) : Option (Text × List Char) :=
  match cs with
  | '"' :: r => (basicString (r.length + 1) r).map fun (cs, r) => (Text.ofChars cs, r)
  | '\'' :: r => (rawString r).map fun (cs, r) => (Text.ofChars cs, r)
  | cs =>
    let part := cs.takeWhile Key.isBare
    if part.isEmpty then none else some (Text.ofChars part, cs.drop part.length)

def keyParts : (bound : Nat) → List Char → Option (Key × List Char)
  | 0, _ => none
  | bound + 1, cs => do
    let (part, r) ← keyPart? (skipBlanks cs)
    match skipBlanks r with
    | '.' :: r =>
      let (parts, r) ← keyParts bound r
      return (part :: parts, r)
    | r => return ([part], r)

def key? (cs : List Char) : Option (Key × List Char) := keyParts (cs.length + 1) cs

def keyOfPair? (cs : List Char) : Option (Key × List Char) := do
  match ← key? cs with
  | (key, '=' :: r) => return (key, r)
  | _ => none

/-! ### Scalars -/

def isFloatChar (c : Char) : Bool :=
  c.isDigit || c == '_' || c == '.' || c == '-' || c == '+' || c == 'e' || c == 'E'

def isMomentChar (c : Char) : Bool :=
  c.isDigit || c == '-' || c == ':' || c == 'T' || c == 't' || c == ' ' || c == '.' || c == 'Z' ||
    c == 'z' || c == '+'

def float? (cs : List Char) : Option (Value × List Char) :=
  if isFloat (cs.takeWhile isFloatChar) then some (.float, cs.dropWhile isFloatChar) else none

def trimBlanks (cs : List Char) : List Char := (cs.reverse.dropWhile (· == ' ')).reverse

def moment? (cs : List Char) : Option (Value × List Char) :=
  if isMoment (trimBlanks (cs.takeWhile isMomentChar)) then
    some (.moment, cs.dropWhile isMomentChar) else none

def decimal? (cs : List Char) : Option (Value × List Char) :=
  let run := cs.take 1 ++ (cs.drop 1).takeWhile fun c => c.isDigit || c == '_'
  let rest := cs.drop run.length
  match rest.head? with
  | some '.' | some 'e' | some 'E' => float? cs
  | _ => (integer? run).map fun n => (.int n, rest)

def based? (cs : List Char) (isDigit : Char → Bool) : Option (Value × List Char) :=
  let digits := (cs.drop 2).takeWhile fun c => isDigit c || c == '_'
  if (cs[2]?.map isDigit).getD false then
    (integer? (cs.take 2 ++ digits)).map fun n => (.int n, cs.drop (2 + digits.length))
  else none

def isBinaryDigit (c : Char) : Bool := c == '0' || c == '1'

def isOctalDigit (c : Char) : Bool := '0' ≤ c && c ≤ '7'

/-- What starts with a digit: what follows the first digits tells what it is. -/
def unsigned? (cs : List Char) : Option (Value × List Char) :=
  match cs with
  | '0' :: 'x' :: _ => based? cs isHexDigit
  | '0' :: 'o' :: _ => based? cs isOctalDigit
  | '0' :: 'b' :: _ => based? cs isBinaryDigit
  | cs =>
    match cs.dropWhile Char.isDigit with
    | '-' :: _ | ':' :: _ =>
      if 1 < (cs.takeWhile Char.isDigit).length || cs.head? != some '0' then moment? cs else none
    | _ => decimal? cs

def signed? (cs : List Char) : Option (Value × List Char) :=
  match cs.drop 1 with
  | 'i' :: 'n' :: 'f' :: r | 'n' :: 'a' :: 'n' :: r => some (.float, r)
  | '0' :: c :: _ => if c == 'b' || c == 'o' || c == 'x' then none else decimal? cs
  | c :: _ => if c.isDigit then decimal? cs else none
  | [] => none

def scalarValue? (cs : List Char) : Option (Value × List Char) :=
  match cs with
  | 't' :: 'r' :: 'u' :: 'e' :: r => some (.bool true, r)
  | 'f' :: 'a' :: 'l' :: 's' :: 'e' :: r => some (.bool false, r)
  | 'i' :: 'n' :: 'f' :: r | 'n' :: 'a' :: 'n' :: r => some (.float, r)
  | '+' :: _ | '-' :: _ => signed? cs
  | '"' :: _ | '\'' :: _ => (string? cs).map fun (t, r) => (.text t, r)
  | c :: _ => if c.isDigit then unsigned? cs else none
  | [] => none

/-! ### Values -/

mutual

def value? : (bound : Nat) → List Char → Option (Value × List Char)
  | 0, _ => none
  | bound + 1, cs =>
    match skipBlanks cs with
    | '[' :: r => (items? bound r).map fun (vs, r) => (.array vs, r)
    | '\x7b' :: r =>
      match skipBlanks r with
      | '\x7d' :: r => some (.table [], r)
      | r => (pairs? bound r).map fun (ps, r) => (.table ps, r)
    | r => scalarValue? r

def items? : (bound : Nat) → List Char → Option (List Value × List Char)
  | 0, _ => none
  | bound + 1, cs =>
    match skipSpace cs.length cs with
    | ']' :: r => some ([], r)
    | r => do
      let (v, r) ← value? bound r
      match skipSpace r.length r with
      | ',' :: r =>
        let (vs, r) ← items? bound r
        return (v :: vs, r)
      | ']' :: r => return ([v], r)
      | _ => none

def pairs? : (bound : Nat) → List Char → Option (List (Key × Value) × List Char)
  | 0, _ => none
  | bound + 1, cs => do
    let (key, r) ← keyOfPair? cs
    let (v, r) ← value? bound r
    match skipBlanks r with
    | ',' :: r =>
      let (ps, r) ← pairs? bound r
      return ((key, v) :: ps, r)
    | '\x7d' :: r => return ([(key, v)], r)
    | _ => none

end

/-! ### Statements -/

def lineEnd? (cs : List Char) : Option (List Char) :=
  match skipBlanks cs with
  | [] => some []
  | '#' :: r => some (skipComment r)
  | c :: r => if isNewline c then some r else none

def statement? (cs : List Char) : Option (Statement × List Char) := do
  match cs with
  | '[' :: '[' :: r =>
    match ← key? r with
    | (key, ']' :: ']' :: r) => return (.addTable key, r)
    | _ => none
  | '[' :: r =>
    match ← key? r with
    | (key, ']' :: r) => return (.openTable key, r)
    | _ => none
  | cs =>
    let (key, r) ← keyOfPair? cs
    let (v, r) ← value? (r.length + 1) r
    return (.assign key v, r)

def statements? : (bound : Nat) → List Char → Option (List Statement)
  | 0, _ => none
  | bound + 1, cs =>
    match skipSpace cs.length cs with
    | [] => some []
    | r => do
      let (s, r) ← statement? r
      return s :: (← statements? bound (← lineEnd? r))

/-! ### Documents -/

def dropMark : Text → Text
  | 0xFF :: 0xFE :: r | 0xFE :: 0xFF :: r => r
  | 0xEF :: 0xBB :: 0xBF :: r => r
  | t => t

/-- Which characters may stand somewhere: of the control characters only tabs and ends of lines, and
all others but the replacement character, which is taken for the trace of a broken text. -/
def isAllowed (c : Char) : Bool :=
  c == '\t' || c == '\n' || (0x20 ≤ c.toNat && c.toNat ≠ 0x7F && c.toNat ≠ 0xFFFD)

def allAllowed : List Char → Bool
  | [] => true
  | '\r' :: r => r.head? == some '\n' && allAllowed r
  | c :: r => isAllowed c && allAllowed r

def parse? (t : Text) : Option (List Statement) :=
  let t := dropMark t
  if t.isUtf8 && allAllowed t.chars then statements? (t.length + 1) t.chars else none

end Midlevel.Toml
