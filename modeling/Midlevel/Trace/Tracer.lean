import Midlevel.Trace.Event

/-!
Recording events. A tracer writes each event to a stream, keeps the newest in a ring, or both. A
span that its level filters out is inert and passes the id of its parent on, so children still nest
under the nearest recorded ancestor.
-/

namespace Midlevel.Trace

/-- An event kept in a ring. The end of a span that has extras is live: it shows those that the span
has when the ring is read. -/
structure Entry where
  event : Event
  live : Bool

def Entry.blank : Entry :=
  { event := { kind := .other 0, scope := ⟨0⟩, name := [] }, live := false }

/-- A buffer that is written around: `head` is the next cell to write, and `full` says that every
cell has been written. -/
structure Ring where
  capacity : Nat
  positive : 0 < capacity := by decide
  cells : Vector Entry capacity := .replicate capacity .blank
  head : Fin capacity := ⟨0, positive⟩
  full : Bool := false

namespace Ring

def ofCapacity (capacity : Int) : Ring :=
  if h : capacity ≤ 0 then { capacity := 4096 }
    else { capacity := capacity.toNat, positive := by omega }

def push (r : Ring) (e : Entry) : Ring :=
  let next : Fin r.capacity := ⟨(r.head + 1) % r.capacity, Nat.mod_lt _ r.positive⟩
  { r with cells := r.cells.set r.head e, head := next, full := r.full || next.val == 0 }

/-- The entries, oldest first. -/
def toList (r : Ring) : List Entry :=
  let newest := r.cells.toList.take r.head
  if r.full then r.cells.toList.drop r.head ++ newest else newest

end Ring

structure Stream where
  format : Format
  written : List Text := []

structure Span where
  /-- 0 for a span that is not recorded. -/
  id : UInt64
  parent : UInt64
  scope : Scope
  name : Text

namespace Span

def anchor (s : Span) : UInt64 := if s.id = 0 then s.parent else s.id

def none : Span := { id := 0, parent := 0, scope := ⟨0⟩, name := [] }

end Span

structure Tracer where
  level : Level
  stream : Option Stream := none
  ring : Option Ring := none
  time : Timestamp := .zero
  seqs : UInt64 := 0
  spans : UInt64 := 0
  extras : List (UInt64 × Extras) := []

namespace Tracer

variable (t : Tracer)

def off : Tracer := { level := .off }

def enabled : Bool := t.level != .off

def spanExtras (id : UInt64) : Extras :=
  ((t.extras.find? (·.1 = id)).map (·.2)).getD []

def emitToStream (e : Event) : Tracer :=
  match t.stream with
  | none => t
  | some s =>
    let seq := t.seqs + 1
    { t with seqs := seq,
             stream := some { s with written := ({ e with seq }).line s.format :: s.written } }

def emitToRing (e : Event) (live : Bool) : Tracer :=
  match t.ring with
  | none => t
  | some r =>
    let seq := t.seqs + 1
    { t with seqs := seq, ring := some (r.push { event := { e with seq }, live }) }

/-- Stream and ring each give an event a number of their own. -/
def emit (e : Event) (live : Bool := false) : Tracer :=
  if t.level.records e.scope then (t.emitToStream e).emitToRing e live else t

def begin (t : Tracer) (scope : Scope) (name : Text) (parent : UInt64) : Span × Tracer :=
  if t.enabled ∧ t.level.records scope then
    let span := { id := t.spans + 1, parent, scope, name }
    let event := { time := t.time, kind := .begin, scope, span := span.id, parent, name }
    (span, { t with spans := span.id }.emit event)
  else ({ Span.none with parent }, t)

def addExtra (s : Span) (key value : Text) : Tracer :=
  if s.id = 0 then t
  else
    let others := t.extras.filter (·.1 ≠ s.id)
    { t with extras := (s.id, (t.spanExtras s.id).put key value) :: others }

def finish (t : Tracer) (s : Span) (detail : Text) : Tracer :=
  if s.id = 0 then t
  else
    let extras := t.spanExtras s.id
    let event := { time := t.time, kind := .finish, scope := s.scope, span := s.id,
                   parent := s.parent,
                   name := s.name, detail, extras }
    t.emit event (extras ≠ [])

def point (t : Tracer) (scope : Scope) (name detail : Text) (parent : UInt64) : Tracer :=
  if t.enabled then t.emit { time := t.time, kind := .point, scope, parent, name, detail } else t

def shown (e : Entry) : Event :=
  if e.live then { e.event with extras := t.spanExtras e.event.span } else e.event

def snapshot : List Event :=
  match t.ring with
  | none => []
  | some r => r.toList.map t.shown

def streamed : Text :=
  match t.stream with
  | none => []
  | some s => s.written.reverse.flatten

/-- A tracer as it is asked for. A text stream into a file whose name says so is written as JSON. -/
def ofConfig (level : Level) (mode : Mode) (format : Format) (path : Text) (ring : Int) : Tracer :=
  let format := if path.endsWith ".ndjson" then .ndjson else format
  let stream : Stream := { format }
  match level, mode with
  | .off, _ => off
  | _, .ring => { level, ring := some (.ofCapacity ring) }
  | _, .both => { level, stream := some stream, ring := some (.ofCapacity ring) }
  | _, .stream | _, .other _ => { level, stream := some stream }

end Tracer

end Midlevel.Trace
