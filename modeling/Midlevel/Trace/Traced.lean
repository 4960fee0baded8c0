import Midlevel.Trace.Tracer

/-!
Work that is traced: any state with a tracer in it can begin and end spans.
-/

namespace Midlevel.Trace

class Traced (σ : Type) where
  tracer : σ → Tracer
  setTracer : Tracer → σ → σ

variable {σ : Type} {m : Type → Type} [MonadState σ m] [Traced σ]

def beginSpan (scope : Scope) (name : Text) (parent : UInt64) : m Span :=
  modifyGet fun s =>
    let (span, t) := (Traced.tracer s).begin scope name parent
    (span, Traced.setTracer t s)

def onTracer (f : Tracer → Tracer) : m Unit :=
  modify fun s => Traced.setTracer (f (Traced.tracer s)) s

def endSpan (span : Span) (detail : Text) : m Unit := onTracer (·.finish span detail)

def extendSpan (span : Span) (key value : Text) : m Unit := onTracer (·.addExtra span key value)

def tracePoint (scope : Scope) (name detail : Text) (parent : UInt64) : m Unit :=
  onTracer (·.point scope name detail parent)

end Midlevel.Trace
