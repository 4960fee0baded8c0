import Midlevel.Ir.Builder

/-!
Structural invariants of defined functions. A use and a branch are recorded at both ends, blocks end
in their only terminator, and nothing refers to what was erased or to another function. Every
violation is reported.
-/

namespace Midlevel.Ir.Module

variable (m : Module)

def verifyOperand (f : FuncId) (b : BlockId) (i : InstId) (o : OperandId) : List Error :=
  let violation (text : Text) : List Error :=
    [.plain ("#" ++ (m.blocks.get b).name ++ ": " ++ (m.insts.get i).op.name ++ ": " ++ text)]
  let operand := m.operands.get o
  if operand.user ≠ some i then violation "operand records a different user"
  else match operand.value with
    | none => violation "dangling operand"
    | some v =>
      if (operand.index.bind ((m.uses v)[·]?)) ≠ some o then
        violation "operand missing from its value's use list"
      else match v with
        | .inst j =>
          if (m.insts.get j).erased ∨ m.instFunc j ≠ some f then
            violation "operand references an instruction outside the function"
          else []
        | .param p =>
          if (m.blocks.get (m.params.get p).block).func ≠ some f then
            violation "operand references a parameter of an erased block"
          else []
        | .func g =>
          if (m.funcs.get g).removed then
            violation ("operand references removed function @" ++ (m.funcs.get g).name)
          else []
        | .global _ => []

def verifyEdge (f : FuncId) (e : EdgeId) : Option Error :=
  match (m.edges.get e).target with
  | none => some (.plain "branch to a block outside the function")
  | some t =>
    if (m.blocks.get t).func ≠ some f then some (.plain "branch to a block outside the function")
    else if e ∉ (m.blocks.get t).edges then
      some (.plain ("application is not registered on #" ++ (m.blocks.get t).name))
    else none

def nameOfBlock : Option BlockId → Except Crash Text
  | some b => .ok (m.blocks.get b).name
  | none => .error .absent

def verifyTarget (f : FuncId) (b : BlockId) (i : InstId) (e : EdgeId) :
    Except Crash (List Error):= do
  let place : Text := "#" ++ (m.blocks.get b).name ++ ": " ++ (m.insts.get i).op.name
  match m.verifyEdge f e with
  | some err => return [.within place err]
  | none =>
    if (m.edges.get e).pred = some b then return []
    let pred ← m.nameOfBlock (m.edges.get e).pred
    return [.plain (place ++ " application records predecessor #" ++ pred)]

def verifyInst (f : FuncId) (b : BlockId) (n : Nat) (i : InstId) : Except Crash (List Error):= do
  let blk := m.blocks.get b
  let x := m.insts.get i
  let parent : List Error :=
    if x.block = some b then []
    else [.plain ("#" ++ blk.name ++ ": " ++ x.op.name ++ " at " ++ Text.ofNat n ++
      " has wrong parent")]
  let last : List Error :=
    if x.op.isTerminator ∧ n + 1 ≠ blk.insts.length then
      [.plain ("#" ++ blk.name ++ ": terminator " ++ x.op.name ++ " at " ++ Text.ofNat n ++
        " is not last")]
    else []
  let operands := (m.allOperands i).flatMap (m.verifyOperand f b i)
  let targets ← x.targets.mapM (m.verifyTarget f b i)
  return parent ++ last ++ operands ++ targets.flatten

def verifyIncoming (b : BlockId) (e : EdgeId) : Except Crash (List Error) := do
  let edge := m.edges.get e
  let name := (m.blocks.get b).name
  if edge.target ≠ some b then
    let target ← m.nameOfBlock edge.target
    return [.plain ("#" ++ name ++ ": incoming application targets #" ++ target)]
  let args : List Error := match Build.checkArgs m b (m.operandValues edge.args) with
    | .ok () => []
    | .error err => [err]
  let detached := match edge.source with
    | none => false
    | some i => (m.insts.get i).block ≠ edge.pred ∨ (m.insts.get i).erased
  return args ++ if detached then
    [.plain ("#" ++ name ++ ": incoming application from a detached terminator")] else []

def verifyBlock (f : FuncId) (b : BlockId) : Except Crash (List Error) := do
  let blk := m.blocks.get b
  let parent : List Error :=
    if blk.func = some f then []
    else [.plain ("#" ++ blk.name ++ ": block parent is not @" ++ (m.funcs.get f).name)]
  let terminated : List Error :=
    if (m.terminator b).isSome then [] else [.plain ("#" ++ blk.name ++ ": unterminated block")]
  let insts ← blk.insts.zipIdx.mapM fun (i, n) => m.verifyInst f b n i
  let incoming ← blk.edges.mapM (m.verifyIncoming b)
  return parent ++ terminated ++ insts.flatten ++ incoming.flatten

/-- Exactly one edge without a predecessor enters the entry block, and none the others. -/
def verifyEntry (entry : BlockId) (rest : List BlockId) : List Error :=
  let open_ (b : BlockId) := (m.blocks.get b).edges.countP fun e => (m.edges.get e).pred.isNone
  if open_ entry ≠ 1 then
    [.plain ("#" ++ (m.blocks.get entry).name ++ ": entry block has " ++ Text.ofNat (open_ entry) ++
      " applications without predecessor, want 1")]
  else match rest.find? (open_ · ≠ 0) with
    | some b =>
      [.plain ("#" ++ (m.blocks.get b).name ++
        ": non-entry block has an application without predecessor")]
    | none => []

def verifyFunc (f : FuncId) : Except Crash (List Error) := do
  let fn := m.funcs.get f
  if !fn.defined then return []
  match fn.blocks with
  | [] => return [.plain "defined function has no blocks"]
  | entry :: rest =>
    let blocks ← fn.blocks.mapM (m.verifyBlock f)
    return m.verifyEntry entry rest ++ blocks.flatten

def verify : Except Crash (Option Error) := do
  let found ← m.order.filterMapM fun f => do
    match ← m.verifyFunc f with
    | [] => return none
    | es => return some (Error.within ("function @" ++ (m.funcs.get f).name) (.joined es))
  match found with
  | [] => return none
  | es => return some (.tagged .verifyFailed (.joined es))

end Midlevel.Ir.Module
