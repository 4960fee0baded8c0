import Midlevel.Error
import Midlevel.Json
import Midlevel.Text.Utf8

/-!
Writing answers.
-/

namespace Midlevel.Service

abbrev Fields := List (Text × Json)

def record (fields more : Fields) : Json := .object (fields ++ more)

def ofInt (n : Int) : Json := .number n 0

def ofNat (n : Nat) : Json := ofInt n

def ofText (t : Text) : Json := if t.isUtf8 then .text t else .object [("hex", .text t.toHex)]

instance : Coe Text Json := ⟨ofText⟩

instance : Coe Int Json := ⟨ofInt⟩

instance : Coe Nat Json := ⟨ofNat⟩

instance : Coe Bool Json := ⟨.bool⟩

def ofTexts (ts : List Text) : Json := .list (ts.map ofText)

def ofOption (o : Option Json) : Json := o.getD .null

def done : Json := .object [("ok", .bool true)]

def notFound : Json := .object [("found", .bool false)]

def refused : Json := .object [("error", .text "bad_input")]

def errorFields (e : Error) : Fields := [("error", e.code.id), ("message", e.message)]

def faultFields : Fault → Fields
  | .error e => errorFields e
  | .crash c => [("panic", c.message)]

def ofFault (f : Fault) : Json := .object (faultFields f)

def ofReason (reason : Text) : Json := .object (errorFields (.plain reason))

end Midlevel.Service
