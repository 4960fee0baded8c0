import Midlevel.Text.Csv
import Midlevel.Integer
import Midlevel.Text.Quoted

/-!
Flags of a command line: which there are, how arguments give them values, and what is wrong with
arguments that do not. A flag has a long name behind two hyphens, and may have a letter behind one.
-/

namespace Midlevel.CommandLine

inductive Kind where
  | toggle
  | text
  | number
  /-- Fields divided by commas. Given twice it has the fields of both. -/
  | list
  deriving DecidableEq

structure Flag where
  name : Text
  letter : Option UInt8 := none
  kind : Kind
  help : Text
  default : Text := []
  deriving DecidableEq

inductive Value where
  | toggle (b : Bool)
  | text (t : Text)
  | number (n : Int)
  | list (ts : List Text)
  deriving DecidableEq

/-! ### Values -/

inductive ValueProblem where
  | noToggle (t : Text)
  | noNumber (t : Text)
  | outOfRange (t : Text)
  | noList (p : Csv.Problem)
  deriving DecidableEq

def ValueProblem.message : ValueProblem → Text
  | noToggle t => "strconv.ParseBool: parsing " ++ t.quote ++ ": invalid syntax"
  | noNumber t => "strconv.ParseInt: parsing " ++ t.quote ++ ": invalid syntax"
  | outOfRange t => "strconv.ParseInt: parsing " ++ t.quote ++ ": value out of range"
  | noList p => p.message

def yes : List Text := ["1", "t", "T", "TRUE", "true", "True"]

def no : List Text := ["0", "f", "F", "FALSE", "false", "False"]

def Kind.parse (k : Kind) (t : Text) : Except ValueProblem Value :=
  match k with
  | .toggle =>
    if yes.contains t then .ok (.toggle true)
    else if no.contains t then .ok (.toggle false)
    else .error (.noToggle t)
  | .text => .ok (.text t)
  | .number =>
    match t.integer with
    | .ok n => .ok (.number n)
    | .error .malformed => .error (.noNumber t)
    | .error .outOfRange => .error (.outOfRange t)
  | .list =>
    if t = [] then .ok (.list [])
    else match Csv.record t with
      | .ok ts => .ok (.list ts)
      | .error p => .error (.noList p)

abbrev Given := List (Text × Value)

namespace Given

variable (g : Given)

def value? (name : Text) : Option Value := g.lookup name

def set (name : Text) (v : Value) : Given :=
  let v := match g.value? name, v with
    | some (.list old), .list new => .list (old ++ new)
    | _, v => v
  (name, v) :: g.filter (·.1 ≠ name)

def has (name : Text) : Bool := (g.value? name).isSome

def toggle (g : Given) (name : Text) : Bool :=
  match g.value? name with
  | some (.toggle b) => b
  | _ => false

def text? (name : Text) : Option Text :=
  match g.value? name with
  | some (.text t) => some t
  | _ => none

def list? (name : Text) : Option (List Text) :=
  match g.value? name with
  | some (.list ts) => some ts
  | _ => none

end Given

/-! ### Arguments -/

inductive FlagProblem where
  | badSyntax (argument : Text)
  | unknown (name : Text)
  | unknownLetter (letter : UInt8) (letters : Text)
  | valueMissing (name : Text)
  | letterValueMissing (letter : UInt8)
  | badValue (f : Flag) (given : Text) (why : ValueProblem)
  deriving DecidableEq

/-- A letter between single quotes. Bytes outside ASCII show as the first byte of their code
points. -/
def quotedLetter (b : UInt8) : Text :=
  let c := Char.ofNat (if b < 0x80 then b.toNat else if b < 0xC0 then 0xC2 else 0xC3)
  let shown : Text :=
    if c = '\'' then "\\'" else if c = '"' then "\"" else Text.quotePiece (.char c)
  "'" ++ shown ++ "'"

namespace Flag

def label (f : Flag) : Text :=
  match f.letter with
  | some l => "-" ++ [l] ++ ", --" ++ f.name
  | none => "--" ++ f.name

end Flag

def FlagProblem.message : FlagProblem → Text
  | badSyntax a => "bad flag syntax: " ++ a
  | unknown name => "unknown flag: --" ++ name
  | unknownLetter l ls => "unknown shorthand flag: " ++ quotedLetter l ++ " in -" ++ ls
  | valueMissing name => "flag needs an argument: --" ++ name
  | letterValueMissing l => "flag needs an argument: " ++ quotedLetter l ++ " in -" ++ [l]
  | badValue f given why =>
    "invalid argument " ++ given.quote ++ " for " ++ f.label.quote ++ " flag: " ++ why.message

inductive Waiting where
  | byName (f : Flag)
  | byLetter (f : Flag) (letter : UInt8)
  deriving DecidableEq

def Waiting.flag : Waiting → Flag
  | byName f | byLetter f _ => f

def Waiting.missing : Waiting → FlagProblem
  | byName f => .valueMissing f.name
  | byLetter _ l => .letterValueMissing l

structure Arguments where
  given : Given := []
  rest : List Text := []
  waiting : Option Waiting := none

namespace Arguments

def give (a : Arguments) (f : Flag) (t : Text) : Except FlagProblem Arguments :=
  match f.kind.parse t with
  | .ok v => .ok { a with given := a.given.set f.name v }
  | .error why => .error (.badValue f t why)

/-- A flag without a value of its own: a toggle is set, any other waits for the next argument. -/
def giveBare (a : Arguments) (w : Waiting) : Except FlagProblem Arguments :=
  match w.flag.kind with
  | .toggle => a.give w.flag "true"
  | _ => .ok { a with waiting := some w }

def equalsSign : UInt8 := 0x3D

def hyphen : UInt8 := 0x2D

def long (flags : List Flag) (a : Arguments) (body : Text) : Except FlagProblem Arguments :=
  if body.head? = some hyphen ∨ body.head? = some equalsSign then .error (.badSyntax ("--" ++ body))
  else
    let (name, value) := match Text.cut? equalsSign body with
      | some (name, value) => (name, some value)
      | none => (body, none)
    match flags.find? (·.name = name), value with
    | none, _ => .error (.unknown name)
    | some f, some t => a.give f t
    | some f, none => a.giveBare (.byName f)

/-- An argument behind one hyphen: letters, of which the last may have its value right behind it.
What starts like the flags of a test run is left alone. -/
def letters (flags : List Flag) (a : Arguments) : Text → Except FlagProblem Arguments
  | [] => .ok a
  | l :: r =>
    if Text.startsWith (l :: r) "test." then .ok a
    else match flags.find? (·.letter = some l) with
      | none => .error (.unknownLetter l (l :: r))
      | some f =>
        if r.head? = some equalsSign ∧ 2 ≤ r.length then a.give f r.tail
        else if f.kind = .toggle then do letters flags (← a.give f "true") r
        else if r ≠ [] then a.give f r
        else a.giveBare (.byLetter f l)

def next (flags : List Flag) (a : Arguments) (argument : Text) : Except FlagProblem Arguments :=
  match a.waiting with
  | some w => { a with waiting := none }.give w.flag argument
  | none =>
    match argument with
    | 0x2D :: 0x2D :: body => a.long flags body
    | 0x2D :: l :: ls => a.letters flags (l :: ls)
    | _ => .ok { a with rest := argument :: a.rest }

/-- Reads arguments. Behind two hyphens alone there are no more flags. -/
def readAll (flags : List Flag) (a : Arguments) : List Text → Except FlagProblem Arguments
  | [] =>
    match a.waiting with
    | some w => .error w.missing
    | none => .ok a
  | argument :: more => do
    if argument = "--" ∧ a.waiting = none then return { a with rest := more.reverse ++ a.rest }
    readAll flags (← a.next flags argument) more

def parse (flags : List Flag) (arguments : List Text) : Except FlagProblem (Given × List Text) :=
  (readAll flags {} arguments).map fun a => (a.given, a.rest.reverse)

end Arguments

end Midlevel.CommandLine
