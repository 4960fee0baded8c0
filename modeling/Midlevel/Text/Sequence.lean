import Midlevel.Text.Utf8

/-!
Byte sequences as their first bytes announce them. The first byte of a character says how many bytes
follow; those that do follow are read with it, even where they make up no character. A text that
ends before all the announced bytes have come is cut off there.
-/

namespace Midlevel.Text

inductive Sequence where
  | char (c : Char)
  | broken (bytes : Text)
  | cut (bytes : Text)
  deriving DecidableEq

namespace Sequence

def bytes : Sequence → Text
  | char c => String.utf8EncodeChar c
  | broken bs => bs
  | cut bs => bs

end Sequence

def announced (b : UInt8) : Nat :=
  if b < 0xC2 then 0 else if b < 0xE0 then 1 else if b < 0xF0 then 2 else if b < 0xF8 then 3 else 0

/-- The sequence that starts with byte `b` when `r` follows, and how many bytes of `r` it takes. -/
def sequence (b : UInt8) (r : Text) : Sequence × Nat :=
  if (r.take (announced b)).length < announced b then (.cut (b :: r), r.length)
  else
    match piece b r with
    | (.char c, k) => (.char c, k)
    | (.stray _, _) =>
      let more := (r.take (announced b)).takeWhile isContinuation
      (.broken (b :: more), more.length)

def sequencesAfter : (skip : Nat) → Text → List Sequence
  | _, [] => []
  | k + 1, _ :: r => sequencesAfter k r
  | 0, b :: r => (sequence b r).1 :: sequencesAfter (sequence b r).2 r

def sequences (t : Text) : List Sequence := sequencesAfter 0 t

end Midlevel.Text
