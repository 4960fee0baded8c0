import Midlevel.Ir.Printer
import Midlevel.Ir.Verifier
import Midlevel.Service.Session.Basic

/-!
Steps that look at the module.
-/

namespace Midlevel.Service.Session

open Ir

def usesStep (v : Value) : Step Json := do
  let m ← module
  return .object [("uses", .list ((m.uses v).map fun o =>
    match (m.operands.get o).user with
    | none => .null
    | some i => .list [ofText (m.insts.get i).op.name, ofBlock m (m.insts.get i).block,
        .bool (m.insts.get i).erased]))]

def ofBlocks (m : Module) (bs : List (Option BlockId)) : Except Crash Json := do
  let names ← bs.mapM fun b =>
    match b with
    | some b => .ok (ofText (m.blocks.get b).name)
    | none => .error Crash.absent
  return .list names

def callFields (m : Module) (x : Inst) : Except Crash Fields :=
  if x.op = .call ∨ x.op = .apply then
    match x.operands with
    | [] => .error .absent
    | _ :: args => .ok [("args", ofOperands m args)]
  else .ok []

def instFields (m : Module) (i : InstId) : Except Crash Fields := do
  let x := m.insts.get i
  let succs ← ofBlocks m (m.targetBlocks i)
  let call ← callFields m x
  let fields : Fields :=
    [("erased", x.erased), ("block", ofBlock m x.block), ("fn", ofFunc m (m.instFunc i)),
     ("callee", ofFunc m (m.callee i)), ("terminator", x.op.isTerminator),
     ("runtime", ofText (((Routine.ofInst? x).map (·.name)).getD [])), ("succs", succs)]
  return fields ++ call

def valueStep (v : Value) : Step Json := do
  let m ← module
  let fields : Except Crash Fields := match v with
    | .inst i => instFields m i
    | .param p =>
      .ok [("index", ofPosition m p), ("block", ofBlock m (some (m.params.get p).block))]
    | .func f => .ok [("fn", ofFunc m (some f))]
    | .global g => .ok [("elem", ofLabel m (m.globals.get g).elem)]
  match fields with
  | .error c => report (.crash c) []
  | .ok fields =>
    return record [("value", ofValue m (some v)), ("type", ofLabel m (m.valueType v)),
      ("uses", (m.uses v).length), ("dead", m.isDead v)] fields

def operandsStep (i : InstId) : Step Json := do
  let m ← module
  let x := m.insts.get i
  let ofEdge (e : EdgeId) : Json :=
    .list [ofBlock m (m.edges.get e).target, ofOperands m (m.edges.get e).args]
  return .object [("operands", ofOperands m x.operands), ("edges", .list (x.targets.map ofEdge)),
    ("count", (m.allOperands i).length)]

def blockInfoStep (b : BlockId) : Step Json := do
  let m ← module
  let blk := m.blocks.get b
  let ofEdge (e : EdgeId) : Json :=
    .list [ofBlock m (m.edges.get e).pred, ofOpcode m (m.edges.get e).source,
      ofNat (m.edges.get e).args.length]
  match ofBlocks m (m.successors b) with
  | .error c => report (.crash c) []
  | .ok succs =>
    return .object [("name", blk.name), ("fn", ofFunc m blk.func), ("entry", m.isEntry b),
      ("params", ofParams m blk.params),
      ("insts", .list (blk.insts.map fun i => ofText (m.insts.get i).op.name)),
      ("apps", .list (blk.edges.map ofEdge)),
      ("preds", .list ((m.predecessors b).map fun p => ofText (m.blocks.get p).name)),
      ("succs", succs), ("term", ofOpcode m (m.terminator b))]

def appliedArgsStep (b : BlockId) (p : Option ParamId) : Step Json :=
  building (Build.appliedArgs b p) fun vs => do
    let m ← module
    return .object [("args", .list (vs.map (ofValue m)))]

def funcInfoStep (f : FuncId) : Step Json :=
  building (Build.resultType f) fun result => do
    let m ← module
    let fn := m.funcs.get f
    return .object [("name", fn.name), ("type", ofLabel m fn.type), ("proto", !fn.defined),
      ("body", fn.defined), ("vis", fn.visibility.name), ("inline", fn.inlining.name),
      ("uses", fn.uses.length), ("external", m.externalUses f),
      ("blocks", .list (fn.blocks.map fun b => ofText (m.blocks.get b).name)),
      ("insts", (m.funcInsts f).length), ("params", ofParams m (m.funcParams f)),
      ("removed", fn.removed), ("result", ofLabel m result)]

def dumping (r : Except Crash Text) : Step Json :=
  match r with
  | .ok t => pure (.object [("dump", t)])
  | .error c => report (.crash c) []

def verifying (r : Except Crash (Option Error)) : Step Json :=
  match r with
  | .ok none => pure done
  | .ok (some e) => report (.error e) []
  | .error c => report (.crash c) []

def querySteps : List (Text × Handler) :=
  [("uses", command usesStep ["v"]),
   ("value", command valueStep ["v"]),
   ("operands", command operandsStep ["inst"]),
   ("block_info", command blockInfoStep ["block"]),
   ("applied_args", command appliedArgsStep ["block", "param"]),
   ("fn_info", command funcInfoStep ["fn"]),
   ("dump", fun _ => do dumping (← module).dump),
   ("dump_fn", command (fun f : FuncId => show Step Json from do dumping ((← module).showFunc f))
     ["fn"]),
   ("verify", fun j => do
      if ← j.flag "nil" then return done
      verifying (← module).verify),
   ("verify_fn", fun j => do
      match ← arg j "fn" with
      | none => return done
      | some f => verifying (((← module).verifyFunc f).map Error.join?))]

end Midlevel.Service.Session
