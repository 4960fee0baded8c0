import Midlevel.CommandLine.Flag
import Midlevel.Text.LowerCase

/-!
Commands. They form a tree, in which a command is named by the words on the way to it from the
program. For a word that names no command those that are close to it are suggested: the distance of
two texts is the least number of bytes to insert, remove or replace to get from one to the other.
-/

namespace Midlevel.Text

def least (a b c : Nat) : Nat := Nat.min a (Nat.min b c)

/-- The rest of a row of distances, for texts that end in `b`. `row` holds the distances without
that byte, from the one before the first byte of `s` on; `left` is the distance just before. -/
def nextDistances (b : UInt8) (left : Nat) : (s : Text) → (row : List Nat) → List Nat
  | c :: s, diagonal :: above :: row =>
    let here := if c = b then diagonal else least above left diagonal + 1
    here :: nextDistances b here s (above :: row)
  | _, _ => []

/-- The distances from `t` to each text that `s` starts with, the shortest first. -/
def distancesTo (s t : Text) : List Nat :=
  t.foldl (fun row b => (row.headD 0 + 1) :: nextDistances b (row.headD 0 + 1) s row)
    (List.range (s.length + 1))

def distance (s t : Text) : Nat := (distancesTo s t).getLastD 0

end Midlevel.Text

namespace Midlevel.CommandLine

inductive Arity where
  | any
  | none
  | atLeast (n : Nat)
  deriving DecidableEq

structure Command (α : Type) where
  path : List Text
  arguments : Text := []
  summary : Text
  description : Text := []
  work : Option α := none
  arity : Arity := .any
  flags : List Flag := []
  terse : Bool := false

structure Program (α : Type) where
  name : Text
  version : Text
  commands : List (Command α)
  flags : List Flag

inductive UsageProblem where
  | unknownCommand (word : Text) (within : Text) (suggestions : List Text)
  | unexpected (word : Text) (within : Text)
  | tooFew (wanted given : Nat)
  deriving DecidableEq

def suggestionLine (name : Text) : Text := "\t" ++ name ++ "\n"

def UsageProblem.message : UsageProblem → Text
  | unknownCommand word place suggestions =>
    let hint : Text :=
      if suggestions.isEmpty then [] else "\n\nDid you mean this?\n" ++
        suggestions.flatMap suggestionLine
    "unknown command " ++ word.quote ++ " for " ++ place.quote ++ hint
  | unexpected word place => "unknown command " ++ word.quote ++ " for " ++ place.quote
  | tooFew wanted given =>
    "requires at least " ++ Text.ofNat wanted ++ " arg(s), only received " ++ Text.ofNat given

namespace Command

variable {α : Type}

def name (c : Command α) : Text := c.path.getLastD []

def isProgram (c : Command α) : Bool := c.path.isEmpty

end Command

namespace Program

variable {α : Type} (p : Program α)

def callOf (path : List Text) : Text := Text.join " " (p.name :: path)

def command? (path : List Text) : Option (Command α) := p.commands.find? (·.path = path)

def below (path : List Text) : List (Command α) :=
  p.commands.filter fun c => c.path ≠ [] ∧ c.path.dropLast = path

def helpName : Text := "help"

/-- Whether a command is worth naming: it does something or holds one that does. The one that
explains the others is left out. -/
def isListed (c : Command α) : Bool :=
  c.path ≠ [helpName] && (c.work.isSome || !(p.below c.path).isEmpty)

def flagsOf (c : Command α) : List Flag := c.flags ++ p.flags

/-! ### Finding a command -/

def isToggle (f : Option Flag) : Bool :=
  match f with
  | some f => f.kind = .toggle
  | none => false

/-- Whether the next argument is the value of this one. A flag that is not known counts as one with
a value. -/
def takesNext (flags : List Flag) (argument : Text) : Bool :=
  match argument with
  | 0x2D :: 0x2D :: name => !name.contains 0x3D && !isToggle (flags.find? (·.name = name))
  | [0x2D, l] => l ≠ 0x3D && !isToggle (flags.find? (·.letter = some l))
  | _ => false

def isWord (argument : Text) : Bool := argument ≠ [] && argument.head? ≠ some 0x2D

def words (flags : List Flag) : List Text → List Text
  | [] => []
  | a :: rest =>
    if a = "--" then []
    else if takesNext flags a then
      match rest with
      | _ :: b :: more => words flags (b :: more)
      | _ => []
    else if isWord a then a :: words flags rest
    else words flags rest

def dropWord (flags : List Flag) (w : Text) : List Text → List Text
  | [] => []
  | a :: rest =>
    if a = "--" then a :: rest
    else if takesNext flags a then
      match rest with
      | [] => [a]
      | value :: more => a :: value :: dropWord flags w more
    else if isWord a ∧ a = w then rest
    else a :: dropWord flags w rest

/-- Goes down from a command by the words among the arguments, at most `depth` of them: the command
reached, and the other arguments. -/
def descend : (depth : Nat) → Command α → List Text → Command α × List Text
  | 0, c, arguments => (c, arguments)
  | depth + 1, c, arguments =>
    match words (p.flagsOf c) arguments with
    | [] => (c, arguments)
    | w :: _ =>
      match p.command? (c.path ++ [w]) with
      | none => (c, arguments)
      | some d => descend depth d (dropWord (p.flagsOf c) w arguments)

/-- Names that a word may have been meant for: those close to it, and those it begins. -/
def suggestions (path : List Text) (word : Text) : List Text :=
  let word := word.lowered
  ((p.below path).filter p.isListed).map (·.name) |>.filter fun name =>
    Text.distance word name ≤ 2 || Text.startsWith name word

def root : Command α := (p.command? []).getD { path := [], summary := [] }

def depth : Nat := (p.commands.map (·.path.length)).foldl Nat.max 0

def find (arguments : List Text) : Except UsageProblem (Command α × List Text) :=
  let (c, rest) := p.descend p.depth p.root arguments
  match c.isProgram, words (p.flagsOf c) rest with
  | true, w :: _ => .error (.unknownCommand w (p.callOf c.path) (p.suggestions c.path w))
  | _, _ => .ok (c, rest)

def accepts (c : Command α) (arguments : List Text) : Except UsageProblem Unit :=
  match c.arity, arguments with
  | .none, w :: _ => .error (.unexpected w (p.callOf c.path))
  | .atLeast n, _ =>
    if arguments.length < n then .error (.tooFew n arguments.length) else .ok ()
  | _, _ => .ok ()

end Program

end Midlevel.CommandLine
