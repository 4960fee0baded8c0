import Midlevel.Ir.Emit

/-!
Edits of code that is already built: instructions are moved, replaced, expanded and erased, and
blocks are erased, merged and reordered. Use lists, edges and the cursor stay consistent throughout.
-/

namespace Midlevel.Ir.Build

variable {α : Type}

/-! ### Instructions -/

def unlink (i : InstId) : Build Unit := do
  match (← inst i).block with
  | none => pure ()
  | some b =>
    modifyBlock b fun blk => { blk with insts := blk.insts.filter (· ≠ i) }
    modifyInst i ({ · with block := none })

def discard (i : InstId) : Build Unit := do
  dropAll i
  unlink i
  modifyInst i ({ · with erased := true })

def isDetached (i : Inst) : Bool := i.block.isNone && !i.erased

def insert (i : Option InstId) : Build Unit := do
  let refused : Error := .within "insert" (.cause .instNotInBlock)
  match i with
  | none => fail refused
  | some i =>
    let x ← inst i
    if !isDetached x then fail refused
    let b ← checkAttach x.op
    attach i b
    x.targets.forM fun e => modifyEdge e ({ · with pred := some b })

def attached (doing : Text) (i : Option InstId) : Build (InstId × BlockId) := do
  let refused : Error := .within doing (.cause .instNotInBlock)
  match i with
  | none => fail refused
  | some i =>
    match (← inst i).block with
    | none => fail refused
    | some b => return (i, b)

def detach (i : Option InstId) : Build Unit := do
  let (i, _) ← attached "detach" i
  unlink i

def move (i : Option InstId) (place : Cursor) : Build Unit := do
  let (i, _) ← attached "move" i
  if place.before = some i then return
  keepingCursor do
    setCursor place
    let _ ← checkAttach (← inst i).op
    unlink i
    insert (some i)

/-- Erases an instruction of block `parent`. One that is still read is a broken invariant. -/
def eraseFrom (parent : Option BlockId) (i : Option InstId) : Build Unit := do
  let m ← module
  let refused (name : Text) : Build Unit :=
    fail (.within ("erase from #" ++ name) (.cause .instNotInBlock))
  match parent, i with
  | none, _ => refused "<nil>"
  | some b, none => refused (m.blocks.get b).name
  | some b, some i =>
    let blk := m.blocks.get b
    let x := m.insts.get i
    if x.block ≠ some b ∨ i ∉ blk.insts then refused blk.name
    else
      if !x.uses.isEmpty then crash (.stillUsed x.op.name blk.name x.uses.length)
      let c ← cursor
      if c.before = some i then setCursor { c with before := m.nextInst i }
      discard i

def erase (i : Option InstId) : Build Unit := do
  match i with
  | none => fail (.within "erase" (.cause .instNotInBlock))
  | some j => eraseFrom (← inst j).block i

/-- A detached instruction takes the place and the uses of another, which is erased. Only a
terminator may replace a terminator. -/
def replace (old new : Option InstId) : Build Unit := do
  let (old, b) ← attached "replace" old
  let x ← inst old
  let refused : Error :=
    .within ("replace " ++ x.op.name ++ ": replacement must be detached") (.cause .instNotInBlock)
  match new with
  | none => fail refused
  | some new =>
    let y ← inst new
    if !isDetached y then fail refused
    if x.op.isTerminator ≠ y.op.isTerminator then
      fail (.within ("replace " ++ x.op.name ++ " with " ++ y.op.name) (.cause .terminatorMismatch))
    if x.op.isTerminator then
      keepingCursor do
        replaceAllUses (some (.inst old)) (some (.inst new))
        eraseFrom (some b) (some old)
        positionAtEnd b
        insert (some new)
    else
      let saved ← cursor
      keepingCursor do
        positionBefore old
        insert (some new)
        replaceAllUses (some (.inst old)) (some (.inst new))
      if saved.before = some old then setCursor { saved with before := some new }
      keepingCursor (eraseFrom (some b) (some old))

/-- What the instructions built for `i` offer in its place: the last of them. -/
def tailFor (i : InstId) (outcome : Except Error Unit) (built : List InstId) :
    Build (Except Error InstId) := do
  match outcome, built.getLast? with
  | .error e, _ => return .error e
  | .ok _, none => return .error (.cause .emptyExplosion)
  | .ok _, some tail =>
    let x ← inst i
    let y ← inst tail
    if !x.uses.isEmpty ∧ y.type ≠ x.type then
      return .error (.because .operandType ("last instruction " ++ y.op.name ++ " has type " ++
        (← label y.type) ++ ", uses expect " ++ (← label x.type)))
    return .ok tail

/-- An expansion under way: the instruction to be replaced, and what to go back to. -/
structure Explosion where
  inst : InstId
  cursor : Cursor
  journal : Option (List InstId)

def beginExplosion (i : Option InstId) : Build Explosion := do
  let (i, _) ← attached "explode" i
  let x : Explosion := { inst := i, cursor := ← cursor, journal := (← get).journal }
  positionBefore i
  modify ({ · with journal := some [] })
  return x

/-- Puts the last instruction of the journal in the place of the expanded one. If building failed,
whatever was built is taken back. -/
def endExplosion (x : Explosion) (outcome : Except Error Unit) : Build InstId := do
  let built := (← get).journal.getD []
  modify ({ · with journal := x.journal })
  match ← tailFor x.inst outcome built with
  | .error e =>
    built.reverse.forM discard
    setCursor x.cursor
    fail (.within ("explode " ++ (← inst x.inst).op.name) e)
  | .ok tail =>
    if (← inst tail).name = [] then setName (.inst tail) (← inst x.inst).name
    replaceAllUses (some (.inst x.inst)) (some (.inst tail))
    let next := (← module).nextInst x.inst
    discard x.inst
    setCursor (if x.cursor.before = some x.inst then { x.cursor with before := next } else x.cursor)
    modify ({ · with journal := x.journal.map (· ++ built) })
    return tail

/-- Replaces an instruction by what `build` builds before it; the last instruction built takes over
its uses. If `build` fails, whatever it built is taken back. -/
def explode (i : Option InstId) (build : Build Unit) : Build InstId := do
  let x ← beginExplosion i
  let outcome ← attempt build
  endExplosion x outcome

/-! ### Blocks -/

def removeBlock (b : BlockId) : Build Unit := do
  let f ← demand (← block b).func
  modifyFunc f fun fn => { fn with blocks := fn.blocks.filter (· ≠ b) }
  modifyBlock b ({ · with func := none })

def checkErasable : List (Option BlockId) → Build (List BlockId)
  | [] => return []
  | none :: _ => fail (.within "erase block" (.cause .blockNotInFunction))
  | some b :: bs => do
    let m ← module
    let blk := m.blocks.get b
    let inFunction := match blk.func with
      | none => false
      | some f => b ∈ (m.funcs.get f).blocks
    if !inFunction then fail (.within "erase block" (.cause .blockNotInFunction))
    if m.isEntry b then fail (.within ("erase block #" ++ blk.name) (.cause .entryBlock))
    return b :: (← checkErasable bs)

def checkNoDanglingBranch (bs : List BlockId) (b : BlockId) : Build Unit := do
  let blk ← block b
  blk.edges.forM fun e => do
    let p ← demand (← edge e).pred
    if !bs.contains p then crash (.danglingBranch blk.name (← block p).name)

def eraseEmptied (b : BlockId) : Build Unit := do
  let blk ← block b
  blk.params.forM fun p => do
    let x := (← module).params.get p
    if !x.uses.isEmpty then crash (.usedParam blk.name x.name)
  blk.insts.forM fun i => do
    let x ← inst i
    if !x.uses.isEmpty then crash (.usedResult blk.name x.op.name)
    if (← cursor).before = some i then clearCursor
    modifyInst i ({ · with block := none, erased := true })
  if (← cursor).block = some b then clearCursor
  modifyBlock b ({ · with insts := [] })
  removeBlock b

/-- Erases blocks that may branch to each other. A branch from outside, or a value that is read
outside, is a broken invariant. -/
def eraseBlocks (blocks : List (Option BlockId)) : Build Unit := do
  let bs ← checkErasable blocks
  bs.forM (checkNoDanglingBranch bs)
  bs.forM fun b => do (← block b).insts.forM dropAll
  bs.forM eraseEmptied

def checkSameFunc (doing : Text) (a b : Option BlockId) : Build (BlockId × BlockId × FuncId) := do
  let refused : Error := .within doing (.cause .blockNotInFunction)
  match a, b with
  | some a, some b =>
    match (← block a).func, (← block b).func with
    | some f, some g => if f = g then return (a, b, f) else fail refused
    | _, _ => fail refused
  | _, _ => fail refused

/-- The branch by which `pred` enters `succ`, if it is the only way in. -/
def soleBranch (pred succ : BlockId) : Build (Option (InstId × EdgeId)) := do
  let m ← module
  match m.terminator pred with
  | none => return none
  | some t =>
    if (m.insts.get t).op ≠ .br then return none
    let e ← demand (m.insts.get t).targets.head?
    if (m.edges.get e).target = some succ ∧ (m.blocks.get succ).edges.length = 1 ∧
        !m.isEntry succ then
      return some (t, e)
    else return none

/-- Appends `succ` to `pred`, which ends in the only branch into it. The arguments of that branch
take the place of the parameters. -/
def mergeBlocks (pred succ : Option BlockId) : Build Unit := do
  let (pred, succ, _) ← checkSameFunc "merge blocks" pred succ
  match ← soleBranch pred succ with
  | none =>
    fail (.within ("merge #" ++ (← block succ).name ++ " into #" ++ (← block pred).name)
      (.cause .instNotInBlock))
  | some (t, e) =>
    let args := (← module).operandValues (← edge e).args
    let params := (← block succ).params
    if params.length < args.length then crash .absent
    eraseFrom (some pred) (some t)
    (params.zip args).forM fun (p, a) => replaceAllUses (some (.param p)) a
    let insts := (← block succ).insts
    insts.forM fun i => do
      modifyInst i ({ · with block := some pred })
      (← inst i).targets.forM fun e => modifyEdge e ({ · with pred := some pred })
    modifyBlock pred fun blk => { blk with insts := blk.insts ++ insts }
    modifyBlock succ ({ · with insts := [] })
    let c ← cursor
    if c.block = some succ then setCursor { c with block := some pred }
    removeBlock succ

def moveBlock (b anchor : Option BlockId) (displaces : Bool)
    (side : (b anchor : BlockId) → List BlockId) : Build Unit := do
  let (b, anchor, f) ← checkSameFunc "move block" b anchor
  if b = anchor then return
  let m ← module
  if m.isEntry b ∨ (displaces ∧ m.isEntry anchor) then
    fail (.within ("move block #" ++ (m.blocks.get b).name) (.cause .entryBlock))
  modifyFunc f fun fn =>
    { fn with blocks := (fn.blocks.filter (· ≠ b)).flatMap fun x =>
                if x = anchor then side b x else [x] }

def moveBlockAfter (b anchor : Option BlockId) : Build Unit :=
  moveBlock b anchor false fun b a => [a, b]

def moveBlockBefore (b anchor : Option BlockId) : Build Unit :=
  moveBlock b anchor true fun b a => [b, a]

end Midlevel.Ir.Build
