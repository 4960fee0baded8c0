import Midlevel.Text

/-!
What a build of the program says of itself.
-/

namespace Midlevel

structure BuildInfo where
  version : Text
  commit : Text := []
  date : Text := []
  compiler : Text
  deriving DecidableEq

namespace BuildInfo

def text (i : BuildInfo) : Text :=
  let commit : Text := if i.commit = [] then [] else " (" ++ i.commit.take 12 ++ ")"
  let date : Text := if i.date = [] then [] else " built " ++ i.date
  "virc " ++ i.version ++ commit ++ date ++ " " ++ i.compiler

/-- Up to `n` parts divided by dots; the last one may have dots in it. -/
def dotted : (n : Nat) → Text → List Text
  | n + 2, t =>
    match Text.cut? 0x2E t with
    | some (part, rest) => part :: dotted (n + 1) rest
    | none => [t]
  | _, t => [t]

def palette : List Text.Colour := [.yellow, .green, .blue]

def paint (coloured : Bool) (c : Text.Colour) (part : Text) : Text := Text.styled coloured c part

def colouredVersion (i : BuildInfo) (coloured : Bool) : Text :=
  let (core, suffix) := (Text.cut? 0x2D i.version).getD (i.version, [])
  let parts := List.zipWith (paint coloured) palette (dotted 3 core)
  let tail : Text := if suffix = [] then [] else "-" ++ suffix
  Text.join "." parts ++ tail

end BuildInfo

end Midlevel
