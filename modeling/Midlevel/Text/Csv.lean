import Midlevel.Text

/-!
Lists of texts on one line: fields divided by commas. A field in double quotes may hold commas, line
ends and, written twice, quotes.
-/

namespace Midlevel.Csv

inductive Problem where
  | missing
  /-- A quote within a field that does not start with one. -/
  | bareQuote (first line column : Nat)
  /-- A quoted field that does not end, or goes on after its last quote. -/
  | misquoted (first line column : Nat)
  deriving DecidableEq

namespace Problem

def place (first line column : Nat) : Text :=
  let record : Text := if first = line then [] else "record on line " ++ Text.ofNat first ++ "; "
  record ++ "parse error on line " ++ Text.ofNat line ++ ", column " ++ Text.ofNat column ++ ": "

def message : Problem → Text
  | missing => "EOF"
  | bareQuote first line column => place first line column ++ "bare \" in non-quoted field"
  | misquoted first line column =>
    place first line column ++ "extraneous or missing \" in quoted-field"

end Problem

def quoteMark : UInt8 := 0x22

def comma : UInt8 := 0x2C

def newline : UInt8 := 0x0A

def carriageReturn : UInt8 := 0x0D

/-- One kind of line end. A carriage return at the very end is dropped. -/
def unifyLines : Text → Text
  | [] => []
  | [b] => if b = carriageReturn then [] else [b]
  | a :: b :: r =>
    if a = carriageReturn ∧ b = newline then newline :: unifyLines r else a :: unifyLines (b :: r)

/-- Leaves empty lines out; the number is that of the line it stops at. -/
def skipEmpty (line : Nat) : Text → Nat × Text
  | [] => (line, [])
  | b :: r => if b = newline then skipEmpty (line + 1) r else (line, b :: r)

inductive Place where
  | start
  | plain
  | quoted
  /-- Behind a quote that ends the field, unless another one follows. -/
  | closed
  deriving DecidableEq

/-- Reads on in a record that starts on the line `first`. The bytes of the field so far come last
first. -/
def fields (first : Nat) : Place → (line column : Nat) → (field : Text) → Text →
    Except Problem (List Text)
  | .quoted, line, column, _, [] => .error (.misquoted first line column)
  | .start, _, _, field, [] | .plain, _, _, field, [] | .closed, _, _, field,
    [] => .ok [field.reverse]
  | .start, line, column, field, b :: r =>
    if b = quoteMark then fields first .quoted line (column + 1) field r
    else if b = comma then (field.reverse :: ·) <$> fields first .start line (column + 1) [] r
    else if b = newline then .ok [field.reverse]
    else fields first .plain line (column + 1) (b :: field) r
  | .plain, line, column, field, b :: r =>
    if b = quoteMark then .error (.bareQuote first line column)
    else if b = comma then (field.reverse :: ·) <$> fields first .start line (column + 1) [] r
    else if b = newline then .ok [field.reverse]
    else fields first .plain line (column + 1) (b :: field) r
  | .quoted, line, column, field, b :: r =>
    if b = quoteMark then fields first .closed line (column + 1) field r
    else if b = newline ∧ r ≠ [] then fields first .quoted (line + 1) 1 (b :: field) r
    else fields first .quoted line (column + 1) (b :: field) r
  | .closed, line, column, field, b :: r =>
    if b = quoteMark then fields first .quoted line (column + 1) (b :: field) r
    else if b = comma then (field.reverse :: ·) <$> fields first .start line (column + 1) [] r
    else if b = newline then .ok [field.reverse]
    else .error (.misquoted first line (column - 1))

def record (t : Text) : Except Problem (List Text) :=
  match skipEmpty 1 (unifyLines t) with
  | (_, []) => .error .missing
  | (line, rest) => fields line .start line 1 [] rest

end Midlevel.Csv
