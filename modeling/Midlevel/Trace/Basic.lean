import Midlevel.Text.LowerCase
import Midlevel.Text.Quoted

/-!
What traces are made of: how coarse an event is, how much a level records, where events are kept and
how they are written.
-/

namespace Midlevel.Trace

/-- The granularity of an event; a lower code is coarser. -/
structure Scope where
  code : UInt8
  deriving DecidableEq

namespace Scope

def driver : Scope := ⟨1⟩

def module : Scope := ⟨2⟩

def pass : Scope := ⟨3⟩

def function : Scope := ⟨4⟩

def name (s : Scope) : Text :=
  match s.code with
  | 1 => "driver"
  | 2 => "module"
  | 3 => "pass"
  | 4 => "function"
  | _ => "unknown"

def depth (s : Scope) : Nat := s.code.toNat - 1

end Scope

inductive Kind where
  | begin
  | finish
  | point
  | other (code : UInt8)
  deriving DecidableEq

namespace Kind

def ofCode : UInt8 → Kind
  | 1 => begin
  | 2 => finish
  | 3 => point
  | n => other n

def name : Kind → Text
  | begin => "begin"
  | finish => "end"
  | point => "point"
  | other _ => "unknown"

def arrow : Kind → Text
  | begin => "-> "
  | finish => "<- "
  | point | other _ => "*  "

end Kind

inductive Level where
  | off
  | phase
  | detail
  | debug
  | other (code : UInt8)
  deriving DecidableEq

namespace Level

def ofCode : UInt8 → Level
  | 0 => off
  | 1 => phase
  | 2 => detail
  | 3 => debug
  | n => other n

def code : Level → UInt8
  | off => 0
  | phase => 1
  | detail => 2
  | debug => 3
  | other n => n

def name : Level → Text
  | off => "off"
  | phase => "phase"
  | detail => "detail"
  | debug => "debug"
  | other _ => "unknown"

def records : Level → Scope → Bool
  | phase, s => s.code ≤ Scope.module.code
  | detail, s => s.code ≤ Scope.pass.code
  | debug, _ => true
  | off, _ | other _, _ => false

def parse (t : Text) : Except Text Level :=
  match t.keyword? [([], off), ("off", off), ("phase", phase), ("detail", detail),
      ("debug", debug)] with
  | some l => .ok l
  | none => .error ("invalid trace level: " ++ t.quote ++ " (expected: off|phase|detail|debug)")

end Level

inductive Mode where
  | stream
  | ring
  | both
  | other (code : UInt8)
  deriving DecidableEq

namespace Mode

def ofCode : UInt8 → Mode
  | 1 => stream
  | 2 => ring
  | 3 => both
  | n => other n

def code : Mode → UInt8
  | stream => 1
  | ring => 2
  | both => 3
  | other n => n

def name : Mode → Text
  | stream => "stream"
  | ring => "ring"
  | both => "both"
  | other _ => "unknown"

def parse (t : Text) : Except Text Mode :=
  match t.keyword? [([], stream), ("stream", stream), ("ring", ring), ("both", both)] with
  | some m => .ok m
  | none => .error ("invalid storage mode: " ++ t.quote ++ " (expected: stream|ring|both)")

end Mode

inductive Format where
  | text
  | ndjson
  deriving DecidableEq

namespace Format

def code : Format → UInt8
  | text => 0
  | ndjson => 1

def parse (t : Text) : Except Text Format :=
  match t.keyword? [([], text), ("text", text), ("ndjson", ndjson), ("json", ndjson)] with
  | some f => .ok f
  | none => .error ("invalid trace format: " ++ t.quote ++ " (expected: text|ndjson)")

end Format

end Midlevel.Trace
