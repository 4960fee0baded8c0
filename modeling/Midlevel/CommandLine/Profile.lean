import Midlevel.Files.Basic

/-!
Profiles of a run: of the processor's time, of the execution and of the heap, each in a file
of its own.
-/

namespace Midlevel.CommandLine

structure Profiles where
  cpu : Text := []
  execution : Text := []
  heap : Text := []
  deriving DecidableEq

namespace Profiles

variable {m : Type → Type} [Monad m] [Files m]

def writeTo (path content what : Text) : m (Except Error Unit) := do
  if path = [] then return .ok ()
  match ← Files.write path content with
  | .ok _ => return .ok ()
  | .error e => return .error (.within what e.toError)

def content (kind : Text) : Text := "virc " ++ kind ++ " profile\n"

/-- Ends the profiles; the one of the heap is only taken now. -/
def stop (p : Profiles) : m (Except Error Unit) := do
  discard (writeTo (m := m) p.cpu (content "cpu") "cpu profile")
  discard (writeTo (m := m) p.execution (content "execution") "execution trace")
  writeTo p.heap (content "heap") "heap profile"

def start (p : Profiles) : m (Except Error Unit) := do
  match ← writeTo p.cpu [] "cpu profile" with
  | .error e => return .error e
  | .ok _ =>
    match ← writeTo p.execution [] "execution trace" with
    | .ok _ => return .ok ()
    | .error e =>
      discard (stop (m := m) { p with execution := [] })
      return .error e

end Profiles

end Midlevel.CommandLine
