import Midlevel.Text

/-!
Reading UTF-8 out of bytes. Each well-formed character is one piece; a byte that starts none is a
piece of its own, so nothing is lost and every reading ends.
-/

namespace Midlevel.Text

inductive Piece where
  | char (c : Char)
  | stray (b : UInt8)
  deriving DecidableEq

namespace Piece

def toChar : Piece → Char
  | char c => c
  | stray _ => '�'

def bytes : Piece → Text
  | char c => String.utf8EncodeChar c
  | stray b => [b]

end Piece

def isContinuation (b : UInt8) : Bool := 0x80 ≤ b && b ≤ 0xBF

def low6 (b : UInt8) : Nat := b.toNat % 64

/-- The piece that starts with byte `b` when `r` follows, and how many bytes of `r` it takes. -/
def piece (b : UInt8) (r : Text) : Piece × Nat :=
  if b < 0x80 then (.char (Char.ofNat b.toNat), 0)
  else if 0xC2 ≤ b && b ≤ 0xDF then
    match r with
    | b₁ :: _ =>
      if isContinuation b₁ then (.char (Char.ofNat (b.toNat % 32 * 64 + low6 b₁)), 1)
      else (.stray b, 0)
    | _ => (.stray b, 0)
  else if 0xE0 ≤ b && b ≤ 0xEF then
    match r with
    | b₁ :: b₂ :: _ =>
      if (if b = 0xE0 then 0xA0 else 0x80) ≤ b₁ && b₁ ≤ (if b = 0xED then 0x9F else 0xBF)
          && isContinuation b₂ then
        (.char (Char.ofNat (b.toNat % 16 * 4096 + low6 b₁ * 64 + low6 b₂)), 2)
      else (.stray b, 0)
    | _ => (.stray b, 0)
  else if 0xF0 ≤ b && b ≤ 0xF4 then
    match r with
    | b₁ :: b₂ :: b₃ :: _ =>
      if (if b = 0xF0 then 0x90 else 0x80) ≤ b₁ && b₁ ≤ (if b = 0xF4 then 0x8F else 0xBF)
          && isContinuation b₂ && isContinuation b₃ then
        (.char (Char.ofNat (b.toNat % 8 * 262144 + low6 b₁ * 4096 + low6 b₂ * 64 + low6 b₃)), 3)
      else (.stray b, 0)
    | _ => (.stray b, 0)
  else (.stray b, 0)

def piecesAfter : (skip : Nat) → Text → List Piece
  | _, [] => []
  | k + 1, _ :: r => piecesAfter k r
  | 0, b :: r => (piece b r).1 :: piecesAfter (piece b r).2 r

def pieces (t : Text) : List Piece := piecesAfter 0 t

def ofPieces (ps : List Piece) : Text := ps.flatMap Piece.bytes

def chars (t : Text) : List Char := t.pieces.map Piece.toChar

def ofChars (cs : List Char) : Text := cs.flatMap String.utf8EncodeChar

def isUtf8 (t : Text) : Bool :=
  t.pieces.all fun
    | .char _ => true
    | .stray _ => false

end Midlevel.Text
