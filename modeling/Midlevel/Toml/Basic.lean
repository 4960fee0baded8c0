import Midlevel.Text.Utf8

/-!
TOML as it is written: a document is a list of statements, each of which opens a table, adds a table
to a list, or gives a key its value.
-/

namespace Midlevel.Toml

abbrev Key := List Text

inductive Value where
  | text (t : Text)
  | int (n : Int)
  | bool (b : Bool)
  /-- A number with a fraction or an exponent. No setting reads one, so its value is not kept. -/
  | float
  | moment
  | array (items : List Value)
  | table (pairs : List (Key × Value))

inductive Statement where
  | openTable (key : Key)
  | addTable (key : Key)
  | assign (key : Key) (value : Value)

namespace Key

def isBare (c : Char) : Bool := c.isAlphanum || c == '_' || c == '-'

def escape (c : Char) : Text :=
  match c with
  | '"' => "\\\""
  | '\\' => "\\\\"
  | '\n' => "\\n"
  | '\t' => "\\t"
  | '\r' => "\\r"
  | c =>
    if c.toNat = 0x08 then "\\b"
    else if c.toNat = 0x0C then "\\f"
    else if c.toNat < 0x20 ∨ c.toNat = 0x7F then "\\u" ++ Text.hex 4 c.toNat
    else Text.ofChars [c]

def partText (part : Text) : Text :=
  if part ≠ [] ∧ part.chars.all isBare then part else "\"" ++ part.chars.flatMap escape ++ "\""

def text (k : Key) : Text := Text.join "." (k.map partText)

end Key

end Midlevel.Toml
