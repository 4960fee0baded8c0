import Midlevel.Error
import Midlevel.Text.LowerCase
import Midlevel.Text

/-!
Diagnostics: what is told of errors, where they are, and how bad they are. A bag collects them;
reporters pass them on.
-/

namespace Midlevel

/-- How bad a diagnostic is; higher codes are worse. -/
structure Severity where
  code : UInt8
  deriving DecidableEq

namespace Severity

def info : Severity := ⟨0⟩

def warning : Severity := ⟨1⟩

def error : Severity := ⟨2⟩

def internal : Severity := ⟨3⟩

def name (s : Severity) : Text :=
  match s.code with
  | 0 => "info"
  | 1 => "warning"
  | 2 => "error"
  | 3 => "internal error"
  | _ => "unknown"

def colour (s : Severity) : Text.Colour :=
  match s.code with
  | 0 => .cyan
  | 1 => .yellow
  | 3 => .magenta
  | _ => .red

end Severity

structure Location where
  input : Text := []
  func : Text := []
  block : Text := []
  deriving DecidableEq

def marked (mark part : Text) : List Text := if part = [] then [] else [mark ++ part]

def Location.text (l : Location) : Text :=
  Text.join " " (marked [] l.input ++ marked "@" l.func ++ marked "#" l.block)

structure Diagnostic where
  severity : Severity
  code : Code
  message : Text
  location : Location
  notes : List Text := []
  deriving DecidableEq

namespace Diagnostic

/-- The first line of an error is the message, further lines are notes. -/
def ofError (location : Location) (e : Error) : Diagnostic :=
  let lines := Text.split 0x0A e.message.trim
  { severity := if e.code = .ofCause .internal then .internal else .error
    code := e.code
    message := lines.headD []
    location
    notes := (lines.tail.map Text.trim).filter (· ≠ []) }

/-- What two diagnostics have in common that say the same: all but the notes. -/
def key (d : Diagnostic) : Diagnostic := { d with notes := [] }

def compareAll : List Ordering → Ordering
  | [] => .eq
  | .eq :: os => compareAll os
  | o :: _ => o

def order (x y : Diagnostic) : Ordering :=
  compareAll [Text.compare x.location.input y.location.input,
    Text.compare x.location.func y.location.func,
    Text.compare x.location.block y.location.block, compare y.severity.code x.severity.code,
    compare x.code.number y.code.number]

def short (d : Diagnostic) : Text :=
  let place : Text := if d.location.text = [] then [] else " " ++ d.location.text
  d.code.id ++ " " ++ d.severity.name ++ place ++ ": " ++ d.message ++ "\n"

def labelled (coloured : Bool) (label text : Text) : Text :=
  "  " ++ Text.styled coloured .blue label ++ " " ++ text ++ "\n"

def pretty (coloured notes : Bool) (d : Diagnostic) : Text :=
  let head : Text := Text.styled coloured d.severity.colour
    (d.severity.name ++ "[" ++ d.code.id ++ "]")
  let place : Text := if d.location.text = [] then [] else labelled coloured "-->" d.location.text
  let notes : Text := if notes then d.notes.flatMap (labelled coloured "= note:") else []
  head ++ ": " ++ d.message ++ "\n" ++ place ++ notes

end Diagnostic

def dedup (seen : List Diagnostic) : List Diagnostic → List Diagnostic
  | [] => []
  | d :: ds => if d.key ∈ seen then dedup seen ds else d :: dedup (d.key :: seen) ds

/-- A collection of diagnostics, at most `limit` of them if that is positive. -/
structure Bag where
  items : List Diagnostic := []
  limit : Int := 0

namespace Bag

variable (b : Bag)

def isFull : Bool := 0 < b.limit && b.limit ≤ b.items.length

def add (d : Diagnostic) : Bag := if b.isFull then b else { b with items := b.items ++ [d] }

def hasErrors : Bool := b.items.any fun d => Severity.error.code ≤ d.severity.code

def hasWarnings : Bool := b.items.any fun d => Severity.warning.code ≤ d.severity.code

def merge (other : Bag) : Bag :=
  let items := b.items ++ other.items
  { items, limit := if 0 < b.limit ∧ b.limit < items.length then items.length else b.limit }

def sort : Bag := { b with items := b.items.mergeSort fun x y => (x.order y).isLE }

def dedup (b : Bag) : Bag := { b with items := Midlevel.dedup [] b.items }

def short (b : Bag) : Text := b.items.flatMap (·.short)

def pretty (b : Bag) (coloured notes : Bool) : Text := b.items.flatMap (·.pretty coloured notes)

end Bag

end Midlevel
