import Midlevel.Pipeline
import Midlevel.Proofs.Observers

/-!
A job as two steps on the disk.

A compilation touches the disk twice: it looks its key up before the work, and it stores its entry
after it. `afterLookup` is all that happens from the first answer on, up to the end or to the wish
to store something, and `afterStore` what is left then. Neither sees the disk, so whatever other
jobs do between the two steps reaches a job only through the two answers; `compile_eq_steps` says
that a job is made of these parts and nothing else.
-/

namespace Midlevel.Pipeline

open Trace

/-! ### Programs with a disk -/

section Running

variable {m : Type → Type} [Monad m] {α β : Type}

theorem run_bind_disk (x : DiskJob m α) (f : α → DiskJob m β) (w : Work) : (x >>= f).run.run w =
    x.run.run w >>= fun r => match r with
      | (.ok a, w) => (f a).run.run w
      | (.error s, w) => pure (.error s, w) := by
  refine bind_congr fun r => ?_
  rcases r with ⟨_ | _, _⟩ <;> rfl

theorem run_tryCatch_disk (x : DiskJob m α) (f : Stop → DiskJob m α) (w : Work) :
    (tryCatch x f).run.run w =
    x.run.run w >>= fun r => match r with
      | (.ok a, w) => pure (.ok a, w)
      | (.error s, w) => (f s).run.run w := by
  refine bind_congr fun r => ?_
  rcases r with ⟨_ | _, _⟩ <;> rfl

variable [LawfulMonad m]

theorem run_modifyGet_disk (f : Work → α × Work) (w : Work) :
    (modifyGet f : DiskJob m α).run.run w = pure (.ok (f w).1, (f w).2) := by
  show pure (f w) >>= _ = _
  rw [pure_bind]

theorem run_onDisk (x : m α) (w : Work) : (onDisk x : DiskJob m α).run.run w = x >>= fun a =>
    pure (.ok a, w) := by
  unfold onDisk
  simp

theorem run_pure_ (x : Job α) (w : Work) : (pure_ x : DiskJob m α).run.run w =
    pure (x.run.run w) := by
  have hget : (get : DiskJob m Work).run.run w = pure (.ok w, w) := by
    show pure (w, w) >>= _ = _
    rw [pure_bind]
  have hset (w' : Work) : (set w' : DiskJob m PUnit).run.run w = pure (.ok ⟨⟩, w') := by
    show pure (PUnit.unit, w') >>= _ = _
    rw [pure_bind]
  unfold pure_
  rw [run_bind_disk, hget, pure_bind]
  dsimp only
  rcases x.run.run w with ⟨_ | _, w'⟩
  · rw [run_bind_disk, hset, pure_bind]
    rfl
  · rw [run_bind_disk, hset, pure_bind]
    rfl

end Running

/-! ### The two steps -/

/-- The end of a job below its span: a failure is noted in the result. -/
def settle (span : Span) (outcome : Except Stop Unit) : Job Unit :=
  ending
    (match outcome with
     | .ok () => pure ()
     | .error (.failed stage p) => fail span stage p
     | .error (.crashed c) => throw (.crashed c))
    (endSpan span [])

/-- Where a job is once its lookup was answered. -/
inductive Halfway where
  | ended (r : Except Stop Unit × Work)
  /-- The job waits for its entry, if it has one, to be stored. -/
  | storing (span : Span) (e : Option Cache.Entry) (w : Work)

def begun (parent : UInt64) (w : Work) : Span × Work :=
  ((w.watch.tracer.begin .driver ("input:" ++ Path.base w.result.input) parent).1,
    Traced.setTracer (w.watch.tracer.begin .driver
      ("input:" ++ Path.base w.result.input) parent).2 w)

/-- The end of the work, unless there is an entry to store. -/
def halfway (span : Span) : Except Stop Next × Work → Halfway
  | (.ok .served, w) => .ended ((settle span (.ok ())).run.run w)
  | (.ok (.store e), w) => .storing span e w
  | (.error s, w) => .ended ((settle span (.error s)).run.run w)

/-- From the answer to the lookup to the end, or to the wish to store an entry. -/
def afterLookup (o : Options) (data : Text) (parent : UInt64)
    (found : Except Cache.Failure (Option Cache.Entry))
    (w : Work) : Halfway :=
  halfway (begun parent w).1
    ((compileWith o data (begun parent w).1.anchor found).run.run (begun parent w).2)

/-- What is left of a job when its entry was stored. -/
def afterStore (span : Span) (stored : Except Cache.Failure Unit) (w : Work) :
    Except Stop Unit × Work :=
  (settle span ((conclude stored).run.run w).1).run.run ((conclude stored).run.run w).2

variable {m : Type → Type} [Monad m] [LawfulMonad m] [Files m] (o : Options) (data : Text)
  (parent : UInt64)
  (span : Span) (w : Work)

def closed (span : Span) (w : Work) : Work := Traced.setTracer ((Traced.tracer w).finish span []) w

omit [Files m] in
theorem run_endSpan_disk :
    (endSpan span [] : DiskJob m Unit).run.run w = pure (.ok (), closed span w) :=
  run_modifyGet_disk _ w

omit [Files m] in
theorem run_settled (body : DiskJob m Unit) {handler : Stop → DiskJob m Unit}
    (hfailed : ∀ stage p, handler (.failed stage p) = pure_ (fail span stage p))
    (hcrashed : ∀ c, handler (.crashed c) = throw (.crashed c)) (w : Work) :
    (tryCatch (tryCatch body handler >>= fun _ => endSpan span [])
      fun s => endSpan span [] >>= fun _ => throw s : DiskJob m Unit).run.run w =
      body.run.run w >>= fun r => pure ((settle span r.1).run.run r.2) := by
  have hthrow (s : Stop) (w : Work) : (throw s : DiskJob m Unit).run.run w =
    pure (.error s, w) := rfl
  rw [run_tryCatch_disk, run_bind_disk, run_tryCatch_disk]
  simp only [bind_assoc]
  refine bind_congr fun r => ?_
  unfold settle ending
  rw [run_tryCatch, run_bind]
  rcases r with ⟨(⟨stage, p⟩ | c) | _, w⟩
  · dsimp only
    rw [hfailed, run_pure_]
    simp only [pure_bind]
    rcases (fail span stage p).run.run w with ⟨s | _, w⟩
    · simp only [pure_bind]
      rw [run_bind_disk, run_endSpan_disk]
      simp only [pure_bind, hthrow]
      rfl
    · simp only [pure_bind, run_endSpan_disk]
      rfl
  · simp only [pure_bind, hcrashed, hthrow]
    rw [run_bind_disk, run_endSpan_disk]
    simp only [pure_bind, hthrow]
    rfl
  · simp only [pure_bind, run_endSpan_disk]
    rfl

theorem run_compileBelow :
    (compileBelow o data parent : DiskJob m Unit).run.run w = do
      match (compileWith o data parent (← lookup o (keyOf o data))).run.run w with
      | (.ok .served, w) => return (.ok (), w)
      | (.ok (.store e), w) => return (conclude (← remember o (keyOf o data) e)).run.run w
      | (.error s, w) => return (.error s, w) := by
  unfold compileBelow
  rw [run_bind_disk, run_onDisk]
  simp only [bind_assoc, pure_bind]
  refine bind_congr fun found => ?_
  rw [run_bind_disk, run_pure_]
  simp only [pure_bind]
  rcases (compileWith o data parent found).run.run w with ⟨s | _ | e, w⟩
  · rfl
  · rfl
  · dsimp only
    rw [run_bind_disk, run_onDisk]
    simp only [bind_assoc, pure_bind]
    exact bind_congr fun stored => run_pure_ _ _

theorem compile_eq_steps :
    (compile o data parent : DiskJob m Unit).run.run w = do
      match afterLookup o data parent (← lookup o (keyOf o data)) w with
      | .ended r => pure r
      | .storing span e w => return afterStore span (← remember o (keyOf o data) e) w := by
  have hget : (get : DiskJob m Work).run.run w = pure (.ok w, w) :=
    run_modifyGet_disk (fun w => (w, w)) w
  have hbegin : (beginSpan .driver ("input:" ++ Path.base w.result.input) parent :
    DiskJob m Span).run.run w =
      pure (.ok (begun parent w).1, (begun parent w).2) := run_modifyGet_disk _ w
  unfold compile
  rw [run_bind_disk, hget, pure_bind]
  dsimp only
  rw [run_bind_disk, hbegin, pure_bind]
  dsimp only
  rw [run_settled, run_compileBelow]
  case hfailed => exact fun _ _ => rfl
  case hcrashed => exact fun _ => rfl
  simp only [bind_assoc]
  refine bind_congr fun found => ?_
  unfold afterLookup
  rcases (compileWith o data (begun parent w).1.anchor found).run.run (begun parent w).2 with
    ⟨s | _ | e, w⟩
  · simp only [pure_bind, halfway]
  · simp only [pure_bind, halfway]
  · simp only [bind_assoc, pure_bind, halfway, afterStore]

end Midlevel.Pipeline
