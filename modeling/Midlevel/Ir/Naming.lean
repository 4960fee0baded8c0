import Midlevel.Ir.Basic

/-!
The names under which a dump shows the blocks and values of a function. A name that was given is
kept by the first to have it and numbered for the others; values without a name get the least
free number.
-/

namespace Midlevel.Ir

def freeNumber (taken : List Text) (base : Text) : (tries n : Nat) → Nat
  | 0, n => n
  | tries + 1, n => if base ++ Text.ofNat n ∈ taken then freeNumber taken base tries (n + 1) else n

/-- `base` itself if it is not taken, else numbered from 1. -/
def freshName (taken : List Text) (base : Text) : Text :=
  if base ∈ taken then base ++ Text.ofNat (freeNumber taken base taken.length 1) else base

/-- The latest name first. -/
abbrev NameTable (α : Type) := List (α × Text)

namespace NameTable

variable {α : Type} [DecidableEq α]

def name? (ns : NameTable α) (a : α) : Option Text := (ns.find? (·.1 = a)).map (·.2)

def taken (ns : NameTable α) : List Text := ns.map (·.2)

def give (ns : NameTable α) (a : α) (base : Text) : NameTable α :=
  (a, freshName ns.taken base) :: ns

/-- Numbers what has no name yet; `next` is the least number to try. -/
def number (s : NameTable α × Nat) (a : α) : NameTable α × Nat :=
  let (ns, next) := s
  match ns.name? a with
  | some _ => s
  | none =>
    let k := freeNumber ns.taken [] ns.length next
    ((a, Text.ofNat k) :: ns, k + 1)

end NameTable

structure Naming where
  values : NameTable Value := []
  blocks : NameTable BlockId := []

namespace Naming

def value? (n : Naming) (v : Value) : Option Text := n.values.name? v

def block (n : Naming) (b : BlockId) : Text := (n.blocks.name? b).getD []

def definitions (m : Module) (b : BlockId) : List Value :=
  let blk := m.blocks.get b
  blk.params.map Value.param ++
    (blk.insts.filter fun i => (m.insts.get i).type ≠ .void).map Value.inst

def nameValues (m : Module) (ns : NameTable Value) (vs : List Value) : NameTable Value :=
  vs.foldl (fun ns v => if m.valueName v = [] then ns else ns.give v (m.valueName v)) ns

def ofFunc (m : Module) (f : FuncId) : Naming :=
  let blocks := (m.funcs.get f).blocks
  let values := blocks.flatMap (definitions m)
  { values := (values.foldl NameTable.number (nameValues m [] values, 0)).1
    blocks := blocks.foldl (fun ns b => ns.give b (m.blocks.get b).name) [] }

end Naming

end Midlevel.Ir
