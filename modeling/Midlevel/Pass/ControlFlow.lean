import Midlevel.Pass.Basic

/-!
Cleans control flow up in four steps: a branch on a constant becomes unconditional, blocks that only
branch on are bypassed, blocks that cannot be reached are removed, and a block whose only way in is
an unconditional branch is merged into the block before it.
-/

namespace Midlevel.Pass

open Ir Transform Build

/-- A way out of a block: where it leads and what it passes. -/
structure Exit where
  target : Option BlockId
  args : List (Option Value)
  deriving Inhabited

def exitsOf (m : Module) (branch : InstId) : List Exit :=
  (m.insts.get branch).targets.map fun e =>
    { target := (m.edges.get e).target, args := m.operandValues (m.edges.get e).args }

def rebuildBranch (branch : InstId) (cond : Option Value) (exits : List Exit) : Build Unit := do
  let b := (← inst branch).block
  eraseFrom b (some branch)
  positionAtEnd (← demand b)
  let first ← demand exits[0]?
  match cond with
  | none => let _ ← br first.target first.args
  | some c =>
    let second ← demand exits[1]?
    let _ ← condBr (some c) first.target first.args second.target second.args

/-! ### Constant branches -/

def constantBranch? (m : Module) (b : BlockId) : Option (InstId × InstId) :=
  match m.terminator b with
  | none => none
  | some t =>
    if (m.insts.get t).op ≠ .condBr then none
    else match m.operandAt t 0 with
      | some (.inst lit) => if (m.insts.get lit).op = .boolLiteral then some (t, lit) else none
      | _ => none

def foldConstantBranch (b : BlockId) : Transform Unit := do
  let m ← module
  match constantBranch? m b with
  | none => pure ()
  | some (t, lit) =>
    let exits := exitsOf m t
    let onFalse ← demand exits[1]?
    let taken := if (m.insts.get lit).payload.bool then exits.head?.getD onFalse else onFalse
    build (rebuildBranch t none [taken])
    count fun s => { s with folded := s.folded + 1 }
    if (← module).isDead (.inst lit) then
      build (erase (some lit))
      count fun s => { s with insts := s.insts + 1 }

def foldConstantBranches (f : FuncId) : Transform Unit := do
  ((← module).funcs.get f).blocks.forM foldConstantBranch

/-! ### Forwarding blocks -/

def forwarding? (m : Module) (b : BlockId) : Except Crash (Option InstId) :=
  let blk := m.blocks.get b
  match m.isEntry b, blk.params, blk.insts with
  | false, [], [i] =>
    if (m.insts.get i).op ≠ .br then .ok none
    else match (m.insts.get i).targets with
      | [] => .error .absent
      | e :: _ => .ok (if (m.edges.get e).target = some b then none else some i)
  | _, _, _ => .ok none

/-- Points the branches into `b` at `forward` instead, one after the other. Each step takes an edge
away, or the next one finds a branch that is already erased. -/
def redirectInto (b : BlockId) (forward : Exit) : (steps : Nat) → Transform Unit
  | 0 => pure ()
  | steps + 1 => do
    let m ← module
    match (m.blocks.get b).edges with
    | [] => pure ()
    | e :: _ =>
      match (m.edges.get e).source with
      | none => pure ()
      | some t =>
        if (m.insts.get t).block ≠ some b then
          let cond := if (m.insts.get t).op = .condBr then m.operandAt t 0 else none
          let exits := (exitsOf m t).map fun x => if x.target = some b then forward else x
          build (rebuildBranch t cond exits)
          redirectInto b forward steps

def bypass (b : BlockId) : Transform Unit := do
  let m ← module
  match forwarding? m b with
  | .error c => throw (.crash c)
  | .ok none => pure ()
  | .ok (some i) =>
    let forward ← demand (exitsOf m i).head?
    redirectInto b forward ((m.blocks.get b).edges.length + 1)

def bypassForwardingBlocks (f : FuncId) : Transform Unit := do
  ((← module).funcs.get f).blocks.forM bypass

/-! ### Unreachable blocks -/

def reach (m : Module) : (steps : Nat) → (stack : List (Option BlockId)) → (seen : List BlockId) →
    Except Crash (List BlockId)
  | 0, _, seen => .ok seen
  | _, [], seen => .ok seen
  | _ + 1, none :: _, _ => .error .absent
  | steps + 1, some b :: stack, seen =>
    if b ∈ seen then reach m steps stack seen
    else reach m steps (m.successors b ++ stack) (b :: seen)

/-- The blocks that can be reached from `entry`. Every block puts its successors on the
stack once. -/
def reachable (m : Module) (entry : BlockId) : Except Crash (List BlockId) :=
  reach m (1 + (m.blocks.ids.flatMap m.successors).length) [some entry] []

def removeUnreachable (f : FuncId) : Transform Unit := do
  let entry ← build (entry f)
  let m ← module
  match reachable m entry with
  | .error c => throw (.crash c)
  | .ok live =>
    let dead := (m.funcs.get f).blocks.filter (!live.contains ·)
    if !dead.isEmpty then
      let insts := (dead.flatMap fun b => (m.blocks.get b).insts).length
      count fun s => { s with insts := s.insts + insts }
      build (eraseBlocks (dead.map some))
      count fun s => { s with blocks := s.blocks + dead.length }

/-! ### Straight lines -/

/-- The block that `b` enters by its only way in. -/
def soleSuccessor? (m : Module) (b : BlockId) : Except Crash (Option BlockId) :=
  match m.terminator b with
  | none => .ok none
  | some t =>
    if (m.insts.get t).op ≠ .br then .ok none
    else match (m.insts.get t).targets with
      | [] => .error .absent
      | e :: _ =>
        match (m.edges.get e).target with
        | none => .error .absent
        | some succ =>
          .ok (if succ = b ∨ m.isEntry succ ∨ (m.blocks.get succ).edges.length ≠ 1 then
            none else some succ)

def mergeInto (b : BlockId) : (steps : Nat) → Transform Unit
  | 0 => pure ()
  | steps + 1 => do
    match soleSuccessor? (← module) b with
    | .error c => throw (.crash c)
    | .ok none => pure ()
    | .ok (some succ) =>
      build (mergeBlocks (some b) (some succ))
      count fun s => { s with merged := s.merged + 1 }
      mergeInto b steps

/-- Goes through the positions of the block list, which shrinks on the way. -/
def mergeFrom (f : FuncId) (position : Nat) : (steps : Nat) → Transform Unit
  | 0 => pure ()
  | steps + 1 => do
    let blocks := ((← module).funcs.get f).blocks
    match blocks[position]? with
    | none => pure ()
    | some b =>
      mergeInto b blocks.length
      mergeFrom f (position + 1) steps

def mergeStraightLines (f : FuncId) : Transform Unit := do
  mergeFrom f 0 ((← module).funcs.get f).blocks.length

def simplifyControlFlow (f : FuncId) : Transform Unit := do
  foldConstantBranches f
  bypassForwardingBlocks f
  removeUnreachable f
  mergeStraightLines f

def controlFlow : FunctionPass :=
  { name := "simplify-cfg", minLevel := .low, run := simplifyControlFlow }

end Midlevel.Pass
