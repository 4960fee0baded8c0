import Mathlib.Data.List.DropRight
import Midlevel.Trace.Tracer

/-!
What a tracer holds after any number of events: the stream has all of them, the ring the newest that
fit, oldest first. One push is followed through the cells; after that only the list of the entries
is spoken of.
-/

namespace Midlevel.Trace

open List

theorem rtake_rtake_concat {α : Type} {n : Nat} (hn : 0 < n) (l : List α) (a : α) :
    (l.rtake n ++ [a]).rtake n = (l ++ [a]).rtake n := by
  obtain ⟨n, rfl⟩ := Nat.exists_eq_succ_of_ne_zero hn.ne'
  rw [rtake_concat_succ, rtake_concat_succ]
  simp only [rtake, drop_drop, length_drop]
  congr 2
  omega

namespace Ring

variable (r : Ring)

theorem length_toList : r.toList.length = if r.full then r.capacity else r.head := by
  unfold toList
  split <;> simp

theorem length_toList_le : r.toList.length ≤ r.capacity := by
  rw [length_toList]
  split
  · exact Nat.le_refl _
  · exact Nat.le_of_lt r.head.isLt

theorem toList_push_of_full (e : Entry) :
    (r.push e).toList = if r.full then r.toList.tail ++ [e] else r.toList ++ [e] := by
  obtain ⟨capacity, positive, ⟨⟨cells⟩, hsize⟩, ⟨head, hhead⟩, full⟩ := r
  simp only [size_toArray] at hsize
  obtain ⟨older, old, newer, rfl, rfl⟩ :
      ∃ older old newer, cells = older ++ old :: newer ∧ older.length = head :=
    ⟨cells.take head, cells[head], cells.drop (head + 1), by simp, by simp; omega⟩
  simp only [length_append, length_cons] at hsize
  -- the head goes on to the next cell, or from the last one back to the first
  cases newer with
  | nil =>
    have hnext : (older.length + 1) % capacity = 0 := by simp [← hsize]
    cases full <;> simp [push, toList, hnext]
  | cons x newer =>
    have hnext : (older.length + 1) % capacity = older.length + 1 :=
      Nat.mod_eq_of_lt (by simp only [length_cons] at hsize; omega)
    cases full <;> simp [push, toList, hnext, take_length_add_append]

theorem toList_push (e : Entry) : (r.push e).toList = (r.toList ++ [e]).rtake r.capacity := by
  have hlength := r.length_toList
  rw [toList_push_of_full, rtake, length_append, length_singleton]
  split at hlength
  · have hne : r.toList ≠ [] := ne_nil_of_length_pos (hlength ▸ r.positive)
    rw [if_pos ‹_›, hlength, Nat.add_sub_cancel_left, drop_one, tail_append_of_ne_nil hne]
  · rw [if_neg ‹_›, Nat.sub_eq_zero_of_le (by omega), drop_zero]

end Ring

namespace Tracer

variable {t t' : Tracer} {r : Ring} {es : List Event}

/-- Writes an event to the stream and puts it into the ring. -/
def note (t : Tracer) (e : Event) (live : Bool) : Tracer := (t.emitToStream e).emitToRing e live

/-- How far one event moves the counter of events. -/
def stride (t : Tracer) : Nat := t.stream.isSome.toNat + t.ring.isSome.toNat

/-- Events with the numbers they get, one after the other; the first gets the one that is
`first` away. -/
def numbered (t : Tracer) (first : Nat) (es : List Event) : List Event :=
  es.mapIdx fun i e => { e with seq := t.seqs + .ofNat (t.stride * i + first) }

@[simp] theorem numbered_concat (first : Nat) (e : Event) : t.numbered first (es ++ [e]) =
    t.numbered first es ++ [{ e with seq := t.seqs + .ofNat (t.stride * es.length + first) }] :=
  mapIdx_concat

section

variable (t : Tracer) (e : Event) (live : Bool)

theorem note_parts : (t.note e live).level = t.level ∧ (t.note e live).time = t.time ∧
    (t.note e live).spans = t.spans ∧ (t.note e live).extras = t.extras ∧
    (t.note e live).stream.map (·.format) = t.stream.map (·.format) ∧
    (t.note e live).ring.map (·.capacity) = t.ring.map (·.capacity) := by
  obtain ⟨level, _ | stream, _ | ring, time, seqs, spans, extras⟩ := t <;>
    exact ⟨rfl, rfl, rfl, rfl, rfl, rfl⟩

theorem note_seqs : (t.note e live).seqs = t.seqs + .ofNat t.stride := by
  obtain ⟨level, _ | stream, _ | ring, time, seqs, spans, extras⟩ := t
  · exact (UInt64.add_zero seqs).symm
  · rfl
  · rfl
  · exact UInt64.add_assoc seqs 1 1

theorem note_streamed {s : Stream} (hs : t.stream = some s) :
    (t.note e live).streamed = t.streamed ++ ({ e with seq := t.seqs + 1 }).line s.format := by
  obtain ⟨level, stream, _ | ring, time, seqs, spans, extras⟩ := t <;> cases hs <;>
    simp [note, emitToStream, emitToRing, streamed]

theorem note_ring (hr : t.ring = some r) :
    (t.note e live).ring = some (r.push ⟨{ e with seq := t.seqs + .ofNat t.stride }, live⟩) := by
  obtain ⟨level, _ | stream, ring, time, seqs, spans, extras⟩ := t <;> cases hr
  · rfl
  · rw [← note_seqs _ e live]
    rfl

end

/-- A live event is shown as it came while its span has the extras it came with. -/
theorem note_snapshot {e : Event} {live : Bool} (hr : t.ring = some r)
    (hlive : live → t.spanExtras e.span = e.extras) : (t.note e live).snapshot =
      (t.snapshot ++ [{ e with seq := t.seqs + UInt64.ofNat t.stride }]).rtake r.capacity := by
  obtain ⟨-, -, -, hextras, -⟩ := note_parts t e live
  have hshown : (t.note e live).shown = t.shown := by
    funext entry
    simp only [shown, spanExtras, hextras]
  have hnew : t.shown ⟨{ e with seq := t.seqs + .ofNat t.stride }, live⟩ =
      { e with seq := t.seqs + .ofNat t.stride } := by
    cases live with
    | false => rfl
    | true => simp only [shown, if_true, hlive rfl]
  simp only [snapshot, note_ring t e live hr, hr, hshown, Ring.toList_push, rtake, map_drop,
    map_append, map_cons,
    map_nil, hnew, length_append, length_map, length_cons, length_nil]

/-- `t'` is `t` after the events `es` came in. -/
structure Noted (t t' : Tracer) (es : List Event) : Prop where
  level : t'.level = t.level
  time : t'.time = t.time
  extras : t'.extras = t.extras
  format : t'.stream.map (·.format) = t.stream.map (·.format)
  capacity : t'.ring.map (·.capacity) = t.ring.map (·.capacity)
  seqs : t'.seqs = t.seqs + .ofNat (t.stride * es.length)
  streamed : ∀ s, t.stream = some s →
    t'.streamed = t.streamed ++ (t.numbered 1 es).flatMap (·.line s.format)
  snapshot : ∀ r, t.ring = some r →
    t'.snapshot = (t.snapshot ++ t.numbered t.stride es).rtake r.capacity

namespace Noted

theorem refl (t : Tracer) : t.Noted t [] where
  level := rfl
  time := rfl
  extras := rfl
  format := rfl
  capacity := rfl
  seqs := (UInt64.add_zero t.seqs).symm
  streamed _ _ := (append_nil _).symm
  snapshot r hr := by
    have hlength : t.snapshot.length ≤ r.capacity := by
      simpa only [Tracer.snapshot, hr, length_map] using r.length_toList_le
    simp [numbered, rtake, Nat.sub_eq_zero_of_le hlength]

theorem stride_eq (h : t.Noted t' es) : t'.stride = t.stride := by
  have hstream := congrArg Option.isSome h.format
  have hring := congrArg Option.isSome h.capacity
  simp only [Option.isSome_map] at hstream hring
  simp only [stride, hstream, hring]

theorem note (h : t.Noted t' es) (e : Event) (live : Bool)
    (hlive : live → t.spanExtras e.span = e.extras) :
    t.Noted (t'.note e live) (es ++ [e]) := by
  obtain ⟨hlevel, htime, -, hextras, hformat, hcapacity⟩ := note_parts t' e live
  refine ⟨hlevel.trans h.level, htime.trans h.time, hextras.trans h.extras, hformat.trans h.format,
    hcapacity.trans h.capacity, ?_, fun s hs => ?_, fun r hr => ?_⟩
  · rw [note_seqs, h.seqs, h.stride_eq, UInt64.add_assoc, ← UInt64.ofNat_add, length_append,
      length_singleton,
      Nat.mul_succ]
  · obtain ⟨s', hs', hsame⟩ : ∃ s', t'.stream = some s' ∧ s'.format = s.format := by
      simpa [hs, Option.map_eq_some_iff] using h.format
    rw [note_streamed t' e live hs', hsame, h.streamed s hs, numbered_concat, flatMap_append,
      flatMap_singleton,
      append_assoc, h.seqs, UInt64.ofNat_add, UInt64.add_assoc]
    rfl
  · obtain ⟨r', hr', hsame⟩ : ∃ r', t'.ring = some r' ∧ r'.capacity = r.capacity := by
      simpa [hr, Option.map_eq_some_iff] using h.capacity
    have hshown : live → t'.spanExtras e.span = e.extras := by
      simpa only [spanExtras, h.extras] using hlive
    rw [note_snapshot hr' hshown, hsame, h.snapshot r hr, rtake_rtake_concat r.positive,
      numbered_concat,
      append_assoc, h.seqs, h.stride_eq, UInt64.add_assoc, UInt64.ofNat_add]

theorem emit (h : t.Noted t' es) (e : Event) (live : Bool)
    (hlive : live → t.spanExtras e.span = e.extras)
    (hrec : t.level.records e.scope = true) :
    (t'.emit e live).spans = t'.spans ∧ t.Noted (t'.emit e live) (es ++ [e]) := by
  rw [Tracer.emit, h.level, if_pos hrec]
  exact ⟨(note_parts t' e live).2.2.1, h.note e live hlive⟩

/-- Events that are not of a span of the tracer are kept as they are. -/
theorem emitted (t : Tracer) (es : List Event) :
    t.Noted (es.foldl (Tracer.emit · ·) t) (es.filter fun e => t.level.records e.scope) := by
  induction es using reverseRecOn with
  | nil => exact .refl t
  | append_singleton es e ih =>
    rw [foldl_append, foldl_cons, foldl_nil, filter_append, filter_singleton]
    cases hrec : t.level.records e.scope with
    | false =>
      rw [Tracer.emit, ih.level, hrec]
      simpa using ih
    | true => exact (ih.emit e false nofun hrec).2

end Noted

theorem map_numbered (first : Nat) :
    (t.numbered first es).map ({ · with seq := 0 }) = es.map ({ · with seq := 0 }) :=
  ext_getElem (by simp [numbered]) (by simp [numbered])

/-- Numbers that the counter gives before it runs around increase. -/
theorem numbered_increasing {first : Nat} (hfirst : first ≤ t.stride) (hstride : 0 < t.stride)
    (hroom : t.seqs.toNat + t.stride * es.length < UInt64.size) :
    (t.numbered first es).Pairwise (·.seq < ·.seq) := by
  rw [pairwise_iff_getElem]
  intro i j hi hj hij
  simp only [numbered, length_mapIdx] at hi hj
  have hlt : t.stride * i < t.stride * j := Nat.mul_lt_mul_of_pos_left hij hstride
  have hle : t.stride * (j + 1) ≤ t.stride * es.length := Nat.mul_le_mul_left _ hj
  have hsize : UInt64.size = 2 ^ 64 := rfl
  rw [Nat.mul_succ] at hle
  simp only [numbered, getElem_mapIdx, UInt64.lt_iff_toNat_lt, UInt64.toNat_add]
  rw [UInt64.toNat_ofNat_of_lt' (by omega), UInt64.toNat_ofNat_of_lt' (by omega),
    Nat.mod_eq_of_lt (by omega),
    Nat.mod_eq_of_lt (by omega)]
  omega

/-- Whatever the capacity and the level, the ring shows the newest of the recorded events, as many
as fit, oldest first, and their numbers increase as long as the counter has not run around. -/
theorem ring_keeps_newest (t : Tracer) (c : Int) (es : List Event) :
    let recorded := es.filter fun e => t.level.records e.scope
    let events := (es.foldl (emit · ·) { t with ring := some (.ofCapacity c) }).snapshot
    events.map ({ · with seq := 0 }) =
        (recorded.rtake (if c ≤ 0 then 4096 else c.toNat)).map ({ · with seq := 0 }) ∧
      (t.seqs.toNat + 2 * recorded.length < UInt64.size → events.Pairwise (·.seq < ·.seq)) := by
  intro recorded events
  set t₀ : Tracer := { t with ring := some (.ofCapacity c) }
  have hcapacity : (Ring.ofCapacity c).capacity = if c ≤ 0 then 4096 else c.toNat := by
    unfold Ring.ofCapacity
    split <;> rfl
  have hempty : (Ring.ofCapacity c).toList = [] := by
    unfold Ring.ofCapacity
    split <;> rfl
  have hstride : 0 < t₀.stride ∧ t₀.stride ≤ 2 := by
    have hstream := t.stream.isSome.toNat_le
    simp only [t₀, stride, Option.isSome_some, Bool.toNat_true]
    omega
  have hevents : events = (t₀.numbered t₀.stride recorded).rtake
      (if c ≤ 0 then 4096 else c.toNat) := by
    rw [← hcapacity]
    have hbefore : t₀.snapshot = [] := congrArg (map t₀.shown) hempty
    have h := (Noted.emitted t₀ es).snapshot _ rfl
    rwa [hbefore, nil_append] at h
  refine ⟨?_, fun hroom => ?_⟩
  · rw [hevents, rtake, rtake, map_drop, map_drop, map_numbered, numbered, length_mapIdx]
  · have hle := Nat.mul_le_mul_right recorded.length hstride.2
    rw [hevents]
    exact (numbered_increasing (Nat.le_refl _) hstride.1
      (Nat.lt_of_le_of_lt (Nat.add_le_add_left hle _) hroom)).sublist
      (drop_sublist ..)

/-- Two cells keep the second and third recorded event; the pass is not recorded at all. The end of
a span that the tracer has not begun keeps its extras. -/
theorem newest_two_kept :
    let es : List Event := [("a", .begin, .driver), ("b", .point, .module), ("p", .begin, .pass),
        ("c", .finish, .driver)].map fun e : String × Kind × Scope =>
      { kind := e.2.1, name := e.1, scope := e.2.2, extras := [("k", "v")] }
    let events := (es.foldl (emit · ·) { level := .phase, ring := some (.ofCapacity 2) }).snapshot
    events.map (fun e => (e.name, e.extras)) = [(("b" : Text), [(("k" : Text), ("v" : Text))]),
      ("c", [("k", "v")])] ∧
      events.Pairwise (·.seq < ·.seq) :=
  ⟨by decide +kernel, (ring_keeps_newest { level := .phase } 2 _).2 (by decide +kernel)⟩

end Tracer

end Midlevel.Trace
