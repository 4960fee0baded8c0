import Mathlib.Data.List.Induction
import Mathlib.Data.List.Nodup
import Midlevel.Proofs.Trace.Ring

/-!
Traces of nested calls. A call that the level filters out leaves no events, and what it calls is
shown as if its caller had called it. `Calls.recorded` takes such calls out and `Shows` says which
events the rest leave; a run of the calls is proved to record just these.
-/

namespace Midlevel.Trace

open List

/-- Calls in order. Each begins a span under that of its caller, makes its inner calls and ends
the span. -/
inductive Calls where
  | none
  | span (scope : Scope) (name detail : Text) (inner next : Calls)

namespace Calls

def run : Calls → (parent : UInt64) → Tracer → Tracer
  | none, _, t => t
  | span scope name detail inner next, parent, t =>
    let (s, t) := t.begin scope name parent
    next.run parent ((inner.run s.anchor t).finish s detail)

def append : Calls → Calls → Calls
  | none, later => later
  | span scope name detail inner next, later => span scope name detail inner (next.append later)

/-- The calls that a level records; those that a filtered call makes move up to its place. -/
def recorded (l : Level) : Calls → Calls
  | none => none
  | span scope name detail inner next =>
    if l.records scope then span scope name detail (inner.recorded l) (next.recorded l)
    else (inner.recorded l).append (next.recorded l)

def size : Calls → Nat
  | none => 0
  | span _ _ _ inner next => inner.size + next.size + 1

theorem size_append (c d : Calls) : (c.append d).size = c.size + d.size := by
  induction c with
  | none => simp [append, size]
  | span _ _ _ inner next _ ih =>
    simp only [append, size, ih]
    omega

end Calls

namespace Tracer

variable {t : Tracer}

def beginning (t : Tracer) (scope : Scope) (name : Text) (id parent : UInt64) : Event :=
  { time := t.time, kind := .begin, scope, span := id, parent, name }

def ending (t : Tracer) (scope : Scope) (name detail : Text) (id parent : UInt64) : Event :=
  { time := t.time, kind := .finish, scope, span := id, parent, name, detail,
    extras := t.spanExtras id }

/-- The events of calls that are all recorded: those of a call enclose those of its inner calls, and
its span is their parent. -/
inductive Shows (t : Tracer) : (parent : UInt64) → Calls → List Event → Prop
  | none {parent : UInt64} : Shows t parent .none []
  | span {id parent : UInt64} {scope : Scope} {name detail : Text} {inner next : Calls}
    {es es' : List Event} :
    Shows t id inner es → Shows t parent next es' →
      Shows t parent (.span scope name detail inner next)
        (t.beginning scope name id parent :: es ++ t.ending scope name detail id parent :: es')

theorem Shows.append {parent : UInt64} {c d : Calls} {es es' : List Event}
    (hc : t.Shows parent c es)
    (hd : t.Shows parent d es') : t.Shows parent (c.append d) (es ++ es') := by
  induction hc with
  | none => exact hd
  | span hinner _ _ ih =>
    rw [append_assoc, cons_append]
    exact .span hinner (ih hd)

/-- The ids of the spans that begin. -/
def begun (es : List Event) : List UInt64 := (es.filter (·.kind = .begin)).map (·.span)

section

variable {t' : Tracer} {es : List Event} (h : t.Noted t' es) {scope : Scope}
  (hrec : t.level.records scope = true)
  (name : Text) (parent : UInt64)
include h hrec

theorem begin_noted {n : Nat} (hspans : t'.spans = .ofNat n) :
    ∃ t'', t'.begin scope name parent = (⟨.ofNat (n + 1), parent, scope, name⟩, t'') ∧
      t''.spans = .ofNat (n + 1) ∧
      t.Noted t'' (es ++ [t.beginning scope name (.ofNat (n + 1)) parent]) := by
  have henabled : t'.enabled = true := by
    rw [enabled, h.level]
    cases hl : t.level <;> simp_all [Level.records]
  have hspan : t'.spans + 1 = .ofNat (n + 1) := by rw [hspans, UInt64.ofNat_add]; rfl
  have hcounted : t.Noted { t' with spans := .ofNat (n + 1) } es :=
    ⟨h.level, h.time, h.extras, h.format, h.capacity, h.seqs, h.streamed, h.snapshot⟩
  rw [begin, if_pos ⟨henabled, by rwa [h.level]⟩, hspan]
  rw [beginning, ← h.time]
  exact ⟨_, rfl, hcounted.emit _ false nofun hrec⟩

theorem finish_noted (detail : Text) {id : UInt64} (hid : id ≠ 0) :
    (t'.finish ⟨id, parent, scope, name⟩ detail).spans = t'.spans ∧
      t.Noted (t'.finish ⟨id, parent, scope, name⟩ detail)
      (es ++ [t.ending scope name detail id parent]) := by
  have hextras : t'.spanExtras id = t.spanExtras id := by rw [spanExtras, h.extras]; rfl
  rw [finish, if_neg hid]
  dsimp only
  rw [h.time, hextras]
  exact h.emit _ _ (fun _ => rfl) hrec

end

/-- What one run of calls adds, wherever it starts: the events of the recorded calls, with the
next ids. -/
theorem run_noted (calls : Calls) (parent : UInt64) (n : Nat) (t' : Tracer) (es₀ : List Event)
    (h : t.Noted t' es₀) (hspans : t'.spans = .ofNat n)
    (hroom : n + (calls.recorded t.level).size < UInt64.size) :
    (calls.run parent t').spans = .ofNat (n + (calls.recorded t.level).size) ∧
      ∃ es, t.Noted (calls.run parent t') (es₀ ++ es) ∧ t.Shows parent (calls.recorded t.level) es ∧
        begun es = (range' (n + 1) (calls.recorded t.level).size).map UInt64.ofNat := by
  induction calls generalizing parent n t' es₀ with
  | none => exact ⟨hspans, [], by simpa [Calls.run] using h, .none, rfl⟩
  | span scope name detail inner next ihinner ihnext =>
    rw [Calls.recorded] at hroom ⊢
    cases hrec : t.level.records scope with
    | true =>
      simp only [hrec, if_true, Calls.size] at hroom ⊢
      have hne : UInt64.ofNat (n + 1) ≠ 0 := fun h => by
        have hid : (UInt64.ofNat (n + 1)).toNat = n + 1 := UInt64.toNat_ofNat_of_lt' (by omega)
        simp [h] at hid
      have hanchor : Span.anchor ⟨.ofNat (n + 1), parent, scope, name⟩ =
        .ofNat (n + 1) := if_neg hne
      obtain ⟨t₁, hbegin, hspans₁, h₁⟩ := begin_noted h hrec name parent hspans
      obtain ⟨hspans₂, es, h₂, hshows, hids⟩ :=
        ihinner (.ofNat (n + 1)) (n + 1) t₁ _ h₁ hspans₁ (by omega)
      obtain ⟨hspans₃, h₃⟩ := finish_noted h₂ hrec name parent detail hne
      obtain ⟨hspans₄, es', h₄, hshows', hids'⟩ :=
        ihnext parent _ _ _ h₃ (hspans₃.trans hspans₂) (by omega)
      rw [Calls.run, hbegin]
      dsimp only
      rw [hanchor]
      refine ⟨hspans₄.trans (by congr 1; omega), _, ?_, .span hshows hshows', ?_⟩
      · simpa using h₄
      · rw [range'_succ, ← range'_append_1, Nat.add_right_comm (n + 1), map_cons, map_append,
          ← hids, ← hids']
        simp [begun, beginning, ending]
    | false =>
      simp only [hrec, Bool.false_eq_true, if_false, Calls.size_append] at hroom ⊢
      obtain ⟨hspans₁, es, h₁, hshows, hids⟩ := ihinner parent n t' es₀ h hspans (by omega)
      obtain ⟨hspans₂, es', h₂, hshows', hids'⟩ := ihnext parent _ _ _ h₁ hspans₁ (by omega)
      have hbegin : t'.begin scope name parent = ({ Span.none with parent }, t') :=
        if_neg fun henabled => by simp [h.level, hrec] at henabled
      rw [Calls.run, hbegin]
      refine ⟨hspans₂.trans (by rw [Nat.add_assoc]), es ++ es', by rwa [← append_assoc],
        hshows.append hshows', ?_⟩
      rw [← range'_append_1, Nat.add_right_comm n, map_append, ← hids, ← hids']
      simp [begun]

/-- A run records the events of the calls that the level records, in the order of the calls: each
span lies within its nearest recorded caller and names it as its parent, and no id is used twice.
The stream has all these events after what it had, the ring the newest that fit. -/
theorem filtered_traces_nest (calls : Calls) (parent : UInt64) (t : Tracer)
    (hroom : t.spans.toNat + (calls.recorded t.level).size < UInt64.size) :
    ∃ es, t.Shows parent (calls.recorded t.level) es ∧ (begun es).Nodup ∧
    (∀ id ∈ begun es, t.spans < id) ∧
      (∀ s, t.stream = some s → (calls.run parent t).streamed =
        t.streamed ++ (t.numbered 1 es).flatMap (·.line s.format)) ∧
      ∀ r, t.ring = some r → (calls.run parent t).snapshot =
        (t.snapshot ++ t.numbered t.stride es).rtake r.capacity := by
  obtain ⟨-, es, h, hshows, hids⟩ :=
    run_noted calls parent t.spans.toNat t [] (.refl t) UInt64.ofNat_toNat.symm hroom
  have hnat : ∀ n ∈ List.range' (t.spans.toNat + 1) (calls.recorded t.level).size,
      t.spans.toNat < n ∧ (UInt64.ofNat n).toNat = n := fun n hn => by
    have hn := List.mem_range'_1.mp hn
    exact ⟨by omega, UInt64.toNat_ofNat_of_lt' (by omega)⟩
  refine ⟨es, hshows, ?_, ?_, h.streamed, h.snapshot⟩
  · rw [hids]
    refine List.Nodup.map_on (fun a ha b hb hab => ?_) (List.nodup_range' ..)
    rw [← (hnat a ha).2, hab, (hnat b hb).2]
  · rw [hids]
    intro id hid
    obtain ⟨n, hn, rfl⟩ := List.mem_map.mp hid
    rw [UInt64.lt_iff_toNat_lt, (hnat n hn).2]
    exact (hnat n hn).1

def passes : Calls :=
  .span .module "m" "ok"
    (.span .function "f" [] (.span .pass "p" [] .none .none) (.span .pass "q" [] .none .none)) .none

/-- The passes are shown under the module, since the function between them is filtered out. -/
theorem passes_nest :
    let t : Tracer :=
  { level := .detail, stream := some { format := .text }, ring := some { capacity := 4 } }
    t.spans.toNat + (passes.recorded t.level).size < UInt64.size ∧
    (passes.run 7 t).snapshot.map (fun e => (e.kind, e.name, e.span, e.parent)) =
      [(Kind.finish, ("p" : Text), 2, 1), (.begin, "q", 3, 1), (.finish, "q", 3, 1),
        (.finish, "m", 1, 7)] ∧
    ∃ es, t.Shows 7 (passes.recorded t.level) es ∧ (begun es).Nodup ∧
      (∀ id ∈ begun es, t.spans < id) ∧
      (∀ s, t.stream = some s → (passes.run 7 t).streamed =
        t.streamed ++ (t.numbered 1 es).flatMap (·.line s.format)) ∧
      ∀ r, t.ring = some r → (passes.run 7 t).snapshot =
        (t.snapshot ++ t.numbered t.stride es).rtake r.capacity :=
  ⟨by decide +kernel, by decide +kernel, filtered_traces_nest passes 7 _ (by decide +kernel)⟩

end Tracer

end Midlevel.Trace
