import Midlevel.Layout.Basic
import Midlevel.Type.Label
import Midlevel.Integer

/-!
Computing layouts. Aggregates place their parts in order, each at the least multiple of its
alignment; a refcounted box is a count followed by the fields of its struct. Answers, failures
included, are remembered, and a value type that contains itself is found by the chain of types whose
layouts are still being computed.
-/

namespace Midlevel.Layout

abbrev Answer := Except LayoutError TypeLayout

/-- The layouts known so far; the latest answer for a type comes first. -/
abbrev Memory := List (TypeId × Answer)

abbrev Query := StateM Memory

def remembered? (m : Memory) (id : TypeId) : Option Answer := (m.find? (·.1 = id)).map (·.2)

/-- The least multiple of `align` that is not below `n`. -/
def roundUp (n align : Int) : Int :=
  if align ≤ 1 then n
  else
    let r := n.tmod align
    if r = 0 then n else Word.wrap (n + Word.wrap (align - r))

/-- A machine that states no pointer size or alignment has 8-byte pointers, aligned to
their size. -/
def pointerLayout (target : Target) : TypeLayout :=
  let size := if target.pointerSize ≤ 0 then 8 else target.pointerSize
  let align := if target.pointerAlign ≤ 0 then size else target.pointerAlign
  { size, align }

def place (acc part : TypeLayout) : TypeLayout :=
  let align := if part.align < 1 then 1 else part.align
  let offset := roundUp acc.size align
  { size := Word.wrap (offset + part.size)
    align := if acc.align < align then align else acc.align
    fields := acc.fields ++ [{ offset, align }] }

def sizeLimit : Int := 0xFFFFFFFF

def close (label : Text) (acc : TypeLayout) : Answer :=
  if acc.size < 0 ∨ sizeLimit < acc.size then .error (.overflow label "out of range")
  else .ok { acc with size := roundUp acc.size acc.align }

def placeAll (part : TypeId → Query Answer) : List TypeId → TypeLayout → Query Answer
  | [], acc => pure (.ok acc)
  | e :: es, acc => do
    match ← part e with
    | .error err => pure (.error err)
    | .ok l => placeAll part es (place acc l)

def aggregate (part : TypeId → Query Answer) (label : Text) : List TypeId → Query Answer
  | [] => pure (.ok .empty)
  | elems => do
    match ← placeAll part elems .empty with
    | .error err => pure (.error err)
    | .ok acc => pure (close label acc)

def compute (types : TypeTable) (target : Target) (part : TypeId → Query Answer) (id : TypeId) :
    Query Answer :=
  let label := types.label id
  match types.desc? id with
  | none => pure (.error (.unsized label))
  | some d =>
    match d.kind with
    | .void => pure (.ok .empty)
    | .bool => pure (.ok (.scalar 1))
    | .int | .float => pure (.ok (.scalar ((d.width + 7) / 8 : Nat)))
    | .opaquePointer | .pointer | .fn => pure (.ok (pointerLayout target))
    | .concept =>
      let p := pointerLayout target
      pure (.ok { size := Word.wrap (2 * p.size), align := p.align,
                  fields := [⟨0, p.align⟩, ⟨p.size, p.align⟩] })
    | .struct => aggregate part label ((types.structFields id).map (·.type))
    | .tuple =>
      match types.tuple? id with
      | none => pure (.ok .empty)
      | some elems => aggregate part label elems
    | .refBox => aggregate part label (.int64 :: (types.structFields d.elem).map (·.type))
    | .invalid | .other _ => pure (.error (.unsized label))

/-- The failure of a type that is reached again while the types in `pending`, innermost first, are
being laid out. -/
def cycleError (types : TypeTable) (pending : List TypeId) (id : TypeId) : LayoutError :=
  let inner := (pending.takeWhile (· ≠ id)).reverse
  .recursive (types.label id) ((id :: inner ++ [id]).map types.label)

def query (types : TypeTable) (target : Target) : (depth : Nat) → (pending : List TypeId) → TypeId →
    Query Answer
  | 0, pending, id => pure (.error (cycleError types pending id))
  | depth + 1, pending, id => do
    match remembered? (← get) id with
    | some answer => pure answer
    | none =>
      if id ∈ pending then pure (.error (cycleError types pending id))
      else
        let answer ← compute types target (query types target depth (id :: pending)) id
        modify ((id, answer) :: ·)
        pure answer

/-- The layout of `id`. No chain of distinct types is longer than the table, so the depth
suffices. -/
def layoutOf (types : TypeTable) (target : Target) (id : TypeId) : Query Answer :=
  query types target (types.descs.size + 2) [] id

def measure (types : TypeTable) (target : Target) (f : TypeLayout → Int) (id : TypeId) :
    Query (Except LayoutError Int) := do
  return (← layoutOf types target id).map f

def sizeOf (types : TypeTable) (target : Target) : TypeId → Query (Except LayoutError Int) :=
  measure types target (·.size)

def alignOf (types : TypeTable) (target : Target) : TypeId → Query (Except LayoutError Int) :=
  measure types target (·.align)

def fieldOffset (types : TypeTable) (target : Target) (id : TypeId) (index : Int) :
    Query (Except LayoutError Int) :=
  measure types target
    (fun l => if index < 0 then 0 else ((l.fields[index.toNat]?).map (·.offset)).getD 0) id

end Midlevel.Layout
