import Midlevel.Pipeline.Basic
import Midlevel.Progress.Bar
import Midlevel.Text.Columns
import Midlevel.Text.Terminal

/-!
The view of a run in progress: a line for each input and a bar for all of them.
-/

namespace Midlevel.Progress

open Pipeline (Stage Status)

structure Item where
  path : Text
  label : Text := "queued"
  stage : Option Stage := none
  final : Bool := false

/-- How much of the work on an input comes before the end of a stage. -/
def stageShare : Option Stage → Float
  | some .load => 0.05
  | some .generate => 0.3
  | some .optimise => 0.6
  | some .lower => 0.9
  | none => 0

def stageLabel : Stage → Text
  | .load => "loading"
  | .generate => "generating"
  | .optimise => "optimising"
  | .lower => "lowering"

def label? : Option Stage → Status → Option Text
  | _, .queued => some "queued"
  | _, .cached => some "cached"
  | _, .done => some "done"
  | _, .error => some "error"
  | some stage, .working => some (stageLabel stage)
  | none, .working => none

namespace Item

def share (i : Item) : Float := if i.final then 1 else stageShare i.stage

def isFinal : Status → Bool
  | .done | .error | .cached => true
  | .queued | .working => false

def after (i : Item) (stage : Option Stage) (status : Option Status) : Item :=
  match status with
  | none => i
  | some status =>
    let i := match label? stage status with
      | some label => { i with label, stage }
      | none => i
    { i with final := i.final || isFinal status }

end Item

structure View where
  title : Text
  items : List Item
  width : Int := 80
  bar : Bar := { width := 76 }
  turns : Nat := 0
  done : Bool := false

namespace View

variable (v : View)

def start (title : Text) (inputs : List Text) : View :=
  { title, items := inputs.map fun path => { path } }

def share (v : View) : Float :=
  (v.items.foldl (fun sum i => sum + i.share) 0) / Float.ofNat v.items.length

def changeLast (path : Text) (f : Item → Item) (items : List Item) : Option (List Item) :=
  if items.any (·.path = path) then
    let after := items.reverse.takeWhile (·.path ≠ path)
    some (items.take (items.length - after.length - 1) ++
      (items[items.length - after.length - 1]?.map f).toList ++ after.reverse)
  else none

def event (input : Text) (stage : Option Stage) (status : Option Status) : View :=
  match changeLast input (·.after stage status) v.items with
  | none => v
  | some items =>
    let v := { v with items }
    { v with bar := v.bar.aim v.share }

def close : View := { v with done := true }

def resize (width : Int) : View :=
  if width ≤ 0 then v else { v with width, bar := { v.bar with width := width - 4 } }

def tick : View := if v.done then v else { v with turns := v.turns + 1 }

def spinner : List Text := ["⣾ ", "⣽ ", "⣻ ", "⢿ ", "⡿ ", "⣟ ", "⣯ ", "⣷ "]

def spinnerFrame (turns : Nat) : Text := spinner.getD (turns % spinner.length) []

def untab (t : Text) : Text := t.flatMap fun b => if b = 0x09 then Text.blanks 4 else [b]

def block (t : Text) : Text :=
  let lines := Text.split 0x0A (untab t)
  let width := (lines.map Text.terminalColumns).foldl Nat.max 0
  if lines.length ≤ 1 then lines.headD []
  else Text.join "\n" (lines.map fun l => l ++ Text.blanks (width - l.terminalColumns))

def header : Text :=
  if v.done then "done: " ++ v.title else spinnerFrame v.turns ++ " " ++ v.title

def line (nameWidth : Nat) (i : Item) : Text :=
  "  " ++ Text.padLeft 12 i.label ++ " " ++ i.path.truncated nameWidth "..." ++ "\n"

def text : Text :=
  if v.items.isEmpty then []
  else
    let nameWidth := if v.width - 16 < 20 then 20 else (v.width - 16).toNat
    let bar := if v.done then v.bar.viewAt 1 else v.bar.view
    block v.header ++ "\n\n" ++ v.items.flatMap (line nameWidth) ++ "\n" ++ bar ++ "\n"

end View

end Midlevel.Progress
