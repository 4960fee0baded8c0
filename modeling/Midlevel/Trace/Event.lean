import Midlevel.Text.Utf8
import Midlevel.Trace.Basic
import Midlevel.Trace.Timestamp

/-!
Events and the lines that show them. In strings of JSON what a web page would take for markup is
escaped too, and a byte that is no character becomes the replacement character.
-/

namespace Midlevel.Text

def jsonChar (c : Char) : Text :=
  match c with
  | '"' => "\\\""
  | '\\' => "\\\\"
  | '\x08' => "\\b"
  | '\x0c' => "\\f"
  | '\n' => "\\n"
  | '\r' => "\\r"
  | '\t' => "\\t"
  | c =>
    let n := c.toNat
    if n < 0x20 ∨ c = '<' ∨ c = '>' ∨ c = '&' ∨ n = 0x2028 ∨ n = 0x2029 then "\\u" ++ hex 4 n
    else ofChars [c]

def json (t : Text) : Text := "\"" ++ t.chars.flatMap jsonChar ++ "\""

end Midlevel.Text

namespace Midlevel.Trace

abbrev Extras := List (Text × Text)

namespace Extras

def put (es : Extras) (key value : Text) : Extras :=
  if es.any (·.1 = key) then es.map fun e => if e.1 = key then (key, value) else e
  else es ++ [(key, value)]

def sorted (es : Extras) : Extras := es.mergeSort fun a b => !Text.lt b.1 a.1

end Extras

structure Event where
  time : Timestamp := .zero
  seq : UInt64 := 0
  kind : Kind
  scope : Scope
  span : UInt64 := 0
  parent : UInt64 := 0
  thread : UInt64 := 0
  name : Text
  detail : Text := []
  extras : Extras := []

namespace Event

def showExtra (e : Text × Text) : Text := e.1 ++ "=" ++ e.2

def textLine (e : Event) : Text :=
  let detail : Text := if e.detail = [] then [] else " (" ++ e.detail ++ ")"
  let extras : Text :=
    if e.extras = [] then []
    else " \x7b" ++ Text.join ", " (e.extras.sorted.map showExtra) ++ "\x7d"
  "#" ++ Text.padRight 6 (Text.ofNat e.seq.toNat) ++ " " ++ Text.blanks (2 * e.scope.depth) ++
    e.kind.arrow ++ e.name ++ detail ++ extras ++ "\n"

def field (key value : Text) : Text := Text.json key ++ ":" ++ value

def numberField (key : Text) (n : UInt64) : List Text :=
  if n = 0 then [] else [field key (Text.ofNat n.toNat)]

def object (fields : List Text) : Text := "\x7b" ++ Text.join "," fields ++ "\x7d"

def ndjsonLine (e : Event) : Text :=
  let detail := if e.detail = [] then [] else [field "detail" e.detail.json]
  let extras :=
    if e.extras = [] then []
    else [field "extra" (object (e.extras.sorted.map fun x => field x.1 x.2.json))]
  object ([field "time" e.time.text.json, field "seq" (Text.ofNat e.seq.toNat),
      field "kind" e.kind.name.json, field "scope" e.scope.name.json] ++
    numberField "span_id" e.span ++ numberField "parent_id" e.parent ++
    numberField "gid" e.thread ++ [field "name" e.name.json] ++ detail ++ extras) ++ "\n"

def line (e : Event) : Format → Text
  | .text => e.textLine
  | .ndjson => e.ndjsonLine

end Event

end Midlevel.Trace
