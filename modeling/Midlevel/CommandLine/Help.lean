import Midlevel.CommandLine.Command

/-!
Help texts: what a command does, how it is called, and the commands and flags it has.
-/

namespace Midlevel.CommandLine

/-! ### Flags -/

namespace Flag

def kindNote : Kind → Text
  | .toggle => []
  | .text => " string"
  | .number => " int"
  | .list => " strings"

def nameColumn (f : Flag) : Text :=
  let front : Text := match f.letter with
    | some l => "  -" ++ [l] ++ ", --"
    | none => "      --"
  front ++ f.name ++ kindNote f.kind

def helpColumn (f : Flag) : Text :=
  let default : Text := if f.default = [] then [] else " (default " ++ f.default.quote ++ ")"
  f.help ++ default

def listing (flags : List Flag) : Text :=
  let width := (flags.map (·.nameColumn.length)).foldl Nat.max 0
  let sorted := flags.mergeSort fun a b => !Text.lt b.name a.name
  Text.join "\n" (sorted.map fun f => Text.padRight (width + 3) f.nameColumn ++ f.helpColumn)

end Flag

/-! ### Commands -/

namespace Program

variable {α : Type} (p : Program α)

/-- The flags on which help and the version of the program are shown instead of anything else. -/
def askingFlags (c : Command α) : List Flag :=
  let name := if c.isProgram then p.name else c.name
  let version : List Flag :=
    [{ name := "version", letter := some 0x76, kind := .toggle, help := "version for " ++ name }]
  [{ name := helpName, letter := some 0x68, kind := .toggle, help := "help for " ++ name }] ++
    if c.isProgram then version else []

def acceptedFlags (c : Command α) : List Flag := p.askingFlags c ++ p.flagsOf c

def titled (title : Text) (lines : Text) : Text := "\n\n" ++ title ++ ":\n" ++ lines

def useLine (c : Command α) : Text :=
  let line := p.callOf c.path ++ c.arguments
  if c.terse ∨ c.arguments.startsWith " [flags]" then line else line ++ " [flags]"

def commandWidth : Nat := 11

def commandLine (c : Command α) : Text :=
  "  " ++ Text.padRight commandWidth c.name ++ " " ++ c.summary

def commandLines (cs : List (Command α)) : Text :=
  let shown := cs.filter fun c => p.isListed c || c.name = helpName
  Text.join "\n" ((shown.mergeSort fun a b => !Text.lt b.name a.name).map commandLine)

/-- How a command is called. `asking` says whether the flags that ask for help are shown. -/
def usage (c : Command α) (asking : Bool) : Text :=
  let holds := (p.below c.path).any p.isListed
  let own := (if asking then p.askingFlags c else []) ++ c.flags ++ if c.isProgram then
    p.flags else []
  let inherited := if c.isProgram then [] else p.flags
  let call : Text := if c.work.isSome then "\n  " ++ p.useLine c else []
  let calls : Text := if holds then "\n  " ++ p.callOf c.path ++ " [command]" else []
  let commands : Text := if holds then titled "Available Commands" (p.commandLines (p.below c.path))
    else []
  let flags : Text := if own.isEmpty then [] else titled "Flags" (Flag.listing own)
  let globals : Text := if inherited.isEmpty then []
    else titled "Global Flags" (Flag.listing inherited)
  let more : Text :=
    if holds then
      "\n\nUse \"" ++ p.callOf c.path ++ " [command] --help\" for more information about a command."
    else []
  "Usage:" ++ call ++ calls ++ commands ++ flags ++ globals ++ more ++ "\n"

def help (c : Command α) : Text :=
  let about := if c.description = [] then c.summary else c.description
  about ++ "\n\n" ++ p.usage c true

def topic (t : Text) : Text :=
  let plain := t.pieces.all fun
    | .char c => c ≠ '\x60' && (c = '\t' || 0x20 ≤ c.toNat) && c.toNat ≠ 0x7F && c.toNat ≠ 0xFEFF
    | .stray _ => false
  if plain then "\x60" ++ t ++ "\x60" else t.quote

def unknownTopic (ws : List Text) : Text :=
  "Unknown help topic [" ++ Text.join " " (ws.map topic) ++ "]\n" ++ p.usage p.root false

end Program

end Midlevel.CommandLine
