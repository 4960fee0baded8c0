import Midlevel.Text

/-!
Points in time and their text.
-/

namespace Midlevel.Trace

/-- A point in time, seen from a zone that is `offset` seconds ahead of UTC. -/
structure Timestamp where
  seconds : Int
  nanos : Int := 0
  offset : Int := 0
  deriving DecidableEq

namespace Timestamp

def zero : Timestamp := { seconds := -62135596800 }

/-- Year, month and day of the civil calendar, from the number of days since the start of 1970.
Years are counted from March, so that a leap day ends its year. -/
def civil (days : Int) : Int × Nat × Nat :=
  let shifted := days + 719468
  let era := shifted.fdiv 146097
  let dayOfEra := (shifted - era * 146097).toNat
  let yearOfEra := (dayOfEra - dayOfEra / 1460 + dayOfEra / 36524 - dayOfEra / 146096) / 365
  let dayOfYear := dayOfEra - (365 * yearOfEra + yearOfEra / 4 - yearOfEra / 100)
  let month := (5 * dayOfYear + 2) / 153
  let day := dayOfYear - (153 * month + 2) / 5 + 1
  let year := era * 400 + yearOfEra
  if month < 10 then (year, month + 3, day) else (year + 1, month - 9, day)

/-- From the first of March of the year -292277022400, where counting starts, to the start of 1970,
in seconds. -/
def epoch : Int := 9223372028741760000

/-- The seconds on a clock of 64 bits, from the start of 1970 on: where they do not fit they run
around. -/
def onClock (seconds : Int) : Int := (seconds + epoch).fmod 18446744073709551616 - epoch

def yearText (y : Int) : Text :=
  if y < 0 then "-" ++ Text.ofNatPadded 4 y.natAbs else Text.ofNatPadded 4 y.toNat

def zoneText (offset : Int) : Text :=
  if offset = 0 then "Z"
  else
    let minutes := offset.tdiv 60
    let sign : Text := if minutes < 0 then "-" else "+"
    sign ++ Text.ofNatPadded 2 (minutes.natAbs / 60) ++ ":" ++
      Text.ofNatPadded 2 (minutes.natAbs % 60)

/-- The date and the time of day with six decimals, which are cut off and not rounded. -/
def text (t : Timestamp) : Text :=
  let seconds := onClock (t.seconds + t.nanos.fdiv 1000000000 + t.offset)
  let micros := (t.nanos.fmod 1000000000).toNat / 1000
  let (year, month, day) := civil (seconds.fdiv 86400)
  let clock := (seconds.fmod 86400).toNat
  let two := Text.ofNatPadded 2
  yearText year ++ "-" ++ two month ++ "-" ++ two day ++ "T" ++ two (clock / 3600) ++ ":" ++
    two (clock / 60 % 60) ++ ":" ++ two (clock % 60) ++ "." ++ Text.ofNatPadded 6 micros ++
    zoneText t.offset

end Timestamp

end Midlevel.Trace
