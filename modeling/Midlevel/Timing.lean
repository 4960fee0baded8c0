import Midlevel.Text.Utf8

/-!
Timed phases. A report adds phases of one name up, in the order in which the names first occurred.
-/

namespace Midlevel.Timing

structure Phase where
  name : Text
  note : Text := []
  micros : Nat := 0
  deriving DecidableEq

structure Timer where
  phases : List Phase := []
  deriving DecidableEq

structure Total where
  name : Text
  count : Nat
  note : Text
  micros : Nat
  deriving DecidableEq

namespace Timer

variable (t : Timer)

def start (name : Text) : Int × Timer :=
  (t.phases.length, { phases := t.phases ++ [{ name }] })

def stop (handle : Int) (note : Text) : Timer :=
  if handle < 0 then t else { phases := t.phases.modify handle.toNat ({ · with note }) }

def account (totals : List Total) (p : Phase) : List Total :=
  if totals.any (·.name = p.name) then
    totals.map fun t =>
      if t.name = p.name then
        { t with count := t.count + 1, micros := t.micros + p.micros,
                 note := if p.note = [] then t.note else p.note }
      else t
  else totals ++ [{ name := p.name, count := 1, note := p.note, micros := p.micros }]

def report : List Total := t.phases.foldl account []

def millis (micros : Nat) : Text :=
  Text.padLeft 9 (Text.ofNat (micros / 1000) ++ "." ++ Text.ofNatPadded 3 (micros % 1000)) ++ " ms"

def nameColumn (name : Text) : Text :=
  name ++ Text.blanks (24 - name.pieces.length)

def showTotal (t : Total) : Text :=
  let note : Text := if t.note = [] then [] else "  // " ++ t.note
  "  " ++ nameColumn t.name ++ " " ++ Text.padLeft 3 (Text.ofNat t.count) ++ "x " ++
    millis t.micros ++
    note ++ "\n"

def summary : Text :=
  let total := t.phases.foldl (fun n p => n + p.micros) 0
  "timings:\n" ++ t.report.flatMap showTotal ++ "  " ++ nameColumn "total" ++ "      " ++
    millis total ++ "\n"

end Timer

end Midlevel.Timing
