import Midlevel.Text

/-!
A bar that fills up. The share it shows follows the share it should show like a critically damped
spring, one step for each frame.
-/

namespace Midlevel.Progress

structure Bar where
  width : Int
  shown : Float := 0
  target : Float := 0
  velocity : Float := 0
  moving : Bool := false

namespace Bar

variable (b : Bar)

def interval : Float := 0.016666666

def frequency : Float := 18

def aim (share : Float) : Bar :=
  { b with target := if share < 0 then 0 else if 1 < share then 1 else share, moving := true }

def step : Bar :=
  let d := b.shown - b.target
  if d.abs < 0.001 && b.velocity < 0.01 then { b with moving := false }
  else
    let decay := Float.exp (-frequency * interval)
    let reach := interval * decay
    let pull := reach * frequency
    { b with
      shown := d * (pull + decay) + b.velocity * reach + b.target
      velocity := d * (-frequency * pull) + b.velocity * (-pull + decay)
      moving := true }

/-- The nearest whole number; a half goes to the even one. -/
def roundEven (x : Float) : Nat :=
  let below := x.floor.toUInt64.toNat
  let rest := x - x.floor
  if rest < 0.5 then below
  else if 0.5 < rest then below + 1
  else if below % 2 = 0 then below
  else below + 1

/-- The nearest whole number; a half goes away from zero. -/
def roundUp (x : Float) : Nat := x.round.toUInt64.toNat

def within01 (x : Float) : Float := if x < 0 then 0 else if 1 < x then 1 else x

def repeated (n : Nat) (t : Text) : Text := (List.replicate n t).flatten

def viewAt (share : Float) : Text :=
  let share := within01 share
  let percent : Text := " " ++ Text.padLeft 3 (Text.ofNat (roundEven (share * 100))) ++ "%"
  let total := (b.width - percent.length).toNat
  let full := Nat.min total (roundUp (Float.ofNat total * share))
  repeated full "█" ++ repeated (total - full) "░" ++ percent

def view : Text := b.viewAt b.shown

end Bar

end Midlevel.Progress
