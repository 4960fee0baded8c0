import Midlevel.Service.CommandLine
import Midlevel.Service.Config
import Midlevel.Service.Diagnostics
import Midlevel.Service.Names
import Midlevel.Service.Observe
import Midlevel.Service.Progress
import Midlevel.Service.Scopes
import Midlevel.Service.Session

/-!
Answering requests. A request names an operation; everything it needs is part of it, and nothing is
remembered from one request to the next.
-/

namespace Midlevel.Service

def operations : List (Text × (Json → Read Json)) :=
  [("generate", Generation.run),
    ("run_modules", Generation.runModules),
    ("session", Session.run),
    ("tast_encode", Trees.encode),
    ("tast_decode", Trees.decode),
    ("tast_build", Trees.build),
    ("mangle", Names.mangle),
    ("builtin", Names.primitive),
    ("library_op", Names.libraryOperator),
    ("names", Names.kind),
    ("parse", Names.setting),
    ("version", Names.version),
    ("stats", Names.stats),
    ("timer", Observe.timer),
    ("format_event", Observe.event),
    ("trace", Observe.tracer),
    ("scope", Scopes.run),
    ("diag", Diagnostics.run),
    ("digest", Caches.digest),
    ("store", Caches.run),
    ("pipeline", Pipelines.run),
    ("config", Configs.run),
    ("cli", Calls.run),
    ("ui", Views.run)]

def answer (j : Json) : Json :=
  match j.field "op" with
  | .text name =>
    match operations.find? (·.1 = name) with
    | some (_, run) =>
      match run j with
      | .ok a => a
      | .error _ => refused
    | none => refused
  | _ => refused

end Midlevel.Service
