import Midlevel.Text.Cluster
import Midlevel.Text.Terminal.Tables

/-!
The columns that a line takes on a terminal that obeys control sequences. A sequence takes no
column; of the rest every cluster is as wide as its characters say.
-/

namespace Midlevel.Text

namespace Terminal

/-! ### Control sequences -/

inductive State where
  | ground
  | escape
  | escapeIntermediate
  | controlEntry
  | controlParam
  | controlIntermediate
  | deviceEntry
  | deviceParam
  | deviceIntermediate
  | deviceString
  | systemString
  /-- A message to somebody else: a start of string, a privacy message or an application's
  command. -/
  | message
  | character
  deriving DecidableEq

def within (lo hi b : UInt8) : Bool := lo ≤ b && b ≤ hi

/-- The control characters that leave a sequence as it is: all but those that cancel it or
start one. -/
def isPassive (b : UInt8) : Bool := b ≤ 0x17 || b = 0x19 || within 0x1C 0x1F b

def isIntermediate (b : UInt8) : Bool := within 0x20 0x2F b

def isParameter (b : UInt8) : Bool := within 0x30 0x3F b

def isFinal (b : UInt8) : Bool := within 0x40 0x7E b

def isDelete (b : UInt8) : Bool := b = 0x7F

def State.anywhere (b : UInt8) : State :=
  if b = 0x1B then .escape
  else if b = 0x90 then .deviceEntry
  else if b = 0x9B then .controlEntry
  else if b = 0x9D then .systemString
  else if b = 0x98 || b = 0x9E || b = 0x9F then .message
  else if within 0xC2 0xF4 b then .character
  else .ground

def State.afterEscape (b : UInt8) : State :=
  if isPassive b || isDelete b then .escape
  else if isIntermediate b then .escapeIntermediate
  else if b = 0x50 then .deviceEntry
  else if b = 0x5B then .controlEntry
  else if b = 0x5D then .systemString
  else if b = 0x58 || b = 0x5E || b = 0x5F then .message
  else anywhere b

/-- Where the beginning of a device's string leads; control characters for the layout start the
string, and so does an escape, which lets whole sequences through. -/
def State.afterDeviceEntry (b : UInt8) : State :=
  if within 0x08 0x0D b || b = 0x1B || isFinal b then .deviceString
  else if isPassive b || isDelete b then .deviceEntry
  else if isIntermediate b then .deviceIntermediate
  else if isParameter b then .deviceParam
  else anywhere b

def State.next (s : State) (b : UInt8) : State :=
  match s with
  | .ground | .character => anywhere b
  | .escape => afterEscape b
  | .escapeIntermediate =>
    if isPassive b || isDelete b || isIntermediate b then .escapeIntermediate else anywhere b
  | .controlEntry =>
    if isPassive b || isDelete b then .controlEntry
    else if isIntermediate b then .controlIntermediate
    else if isParameter b then .controlParam
    else anywhere b
  | .controlParam =>
    if isPassive b || isDelete b || isParameter b then .controlParam
    else if isIntermediate b then .controlIntermediate
    else anywhere b
  | .controlIntermediate =>
    if isPassive b || isDelete b || isIntermediate b then .controlIntermediate else anywhere b
  | .deviceEntry => afterDeviceEntry b
  | .deviceParam =>
    if isPassive b || isDelete b || isParameter b then .deviceParam
    else if isIntermediate b then .deviceIntermediate
    else if isFinal b then .deviceString
    else anywhere b
  | .deviceIntermediate =>
    if isPassive b || isDelete b || isIntermediate b then .deviceIntermediate
    else if isParameter b || isFinal b then .deviceString
    else anywhere b
  | .deviceString =>
    if b = 0x1B then .escape else if b = 0x18 || b = 0x1A || b = 0x9C then .ground
      else .deviceString
  | .systemString =>
    if b = 0x1B then .escape
    else if b = 0x07 || b = 0x18 || b = 0x1A || b = 0x9C then .ground
    else .systemString
  | .message => if isPassive b || within 0x20 0x7F b then .message else anywhere b

/-! ### Clusters -/

open Cluster (Role)

def charColumns (c : Char) : Role → Nat
  | .carriageReturn | .lineFeed | .control | .extend | .joiner => 0
  | .regional => 2
  | .pictograph => if emoji.contains c.toNat then 2 else 1
  | _ =>
    if c.toNat = 0x2E3A then 3
    else if c.toNat = 0x2E3B then 4
    else if fullWidth.contains c.toNat then 2
    else 1

def pieceColumns (p : Piece) : Nat := charColumns p.toChar (.ofPiece p)

/-- The columns of a pictograph after some further character: a variation selector decides. -/
def restyled (columns : Nat) (p : Piece) : Nat :=
  if p.toChar.toNat = 0xFE0E then 1 else if p.toChar.toNat = 0xFE0F then 2 else columns

/-- The columns of a cluster: those of all its characters, but a flag and a Korean syllable that
starts with a consonant are as wide as their first part, and a pictograph is not widened by what
follows. -/
def clusterColumns : List Piece → Nat
  | [] => 0
  | p :: ps =>
    match Role.ofPiece p with
    | .pictograph => ps.foldl restyled (pieceColumns p)
    | .regional | .leading => pieceColumns p
    | _ => ps.foldl (fun n q => n + pieceColumns q) (pieceColumns p)

/-- The columns of the pieces that follow in some state, when `skip` of them are already counted.
Bytes inside a sequence are read one by one, whatever character they belong to. -/
def columnsAfter : (skip : Nat) → State → List Piece → Nat
  | _, _, [] => 0
  | k + 1, s, _ :: ps => columnsAfter k s ps
  | 0, s, p :: ps =>
    if p.bytes.head?.any (s.next · = .character) then
      let more := Cluster.joined .ofPiece (.start (.ofPiece p)) ps
      clusterColumns (p :: more) + columnsAfter more.length .ground ps
    else
      (if s = .ground && p.bytes.all (within 0x20 0x7F) then 1 else 0) +
        columnsAfter 0 (p.bytes.foldl State.next s) ps

end Terminal

def terminalColumns (t : Text) : Nat := Terminal.columnsAfter 0 .ground t.pieces

end Midlevel.Text
