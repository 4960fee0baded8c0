import Midlevel.Text

/-!
Lexical scopes of a function body. A scope is a stack of frames, the innermost first; a frame holds
its bindings in the order in which they were made, so that releases come in a fixed order. What a
binding stands for is a parameter here.
-/

namespace Midlevel.Lowering

structure Binding (α : Type) where
  name : Text
  access : α
  /-- A borrowed binding is never released by its scope. -/
  borrowed : Bool := false

abbrev Frame (α : Type) := List (Binding α)

namespace Frame

variable {α : Type}

def find? (f : Frame α) (name : Text) : Option α := (f.reverse.find? (·.name = name)).map (·.access)

def remove? (f : Frame α) (name : Text) : Option (α × Frame α) :=
  let rec go : Frame α → Option (α × Frame α)
    | [] => none
    | b :: bs =>
      if b.name = name then some (b.access, bs) else (go bs).map fun (a, bs) => (a, b :: bs)
  (go f.reverse).map fun (a, bs) => (a, bs.reverse)

def owned [DecidableEq α] (f : Frame α) (except : Option α) : List α :=
  (f.filter fun b => !b.borrowed && decide (some b.access ≠ except)).map (·.access)

def owns [DecidableEq α] (f : Frame α) (a : α) : Bool :=
  f.any fun b => decide (b.access = a) && !b.borrowed

end Frame

abbrev Scope (α : Type) := List (Frame α)

namespace Scope

variable {α : Type}

def find? (s : Scope α) (name : Text) : Option α := s.findSome? (·.find? name)

def owns [DecidableEq α] (s : Scope α) (a : α) : Bool := s.any (·.owns a)

def owned [DecidableEq α] (s : Scope α) (except : Option α) : List α := s.flatMap (·.owned except)

def insert (s : Scope α) (b : Binding α) : Scope α :=
  match s with
  | [] => [[b]]
  | f :: fs => (f ++ [b]) :: fs

def enter (s : Scope α) : Scope α := [] :: s

def inner (s : Scope α) : Frame α := s.headD []

end Scope

end Midlevel.Lowering
