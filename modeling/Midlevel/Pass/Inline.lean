import Midlevel.Pass.Basic

/-!
Replaces calls of library operators by the primitives they stand for.
-/

namespace Midlevel.Pass

open Ir Build

def callArgs (m : Module) (i : InstId) : Option (List (Option Value)) :=
  match (m.insts.get i).operands with
  | [] => none
  | _ :: args => some (m.operandValues args)

def buildNamed (name : Text) (x : Build InstId) : Build Value := do
  let i ← x
  setName (.inst i) name
  return .inst i

/-- Unwraps the operands, applies the primitive and wraps its result. A checked operator traps on
overflow. -/
def expandOperator (call : InstId) (op : LibraryOperator) : Build Unit := do
  let args ← demand (callArgs (← module) call)
  let raw ← args.mapM fun a => return some (Value.inst (← structExtract a "value"))
  let prim ← buildNamed op.primitive.name (primitive op.primitive raw)
  let result ←
    if op.checked then do
      let overflow ← buildNamed "overflow" (tupleExtract (some prim) 1)
      let _ ← condFail (some overflow)
      buildNamed "value" (tupleExtract (some prim) 0)
    else pure prim
  let _ ← struct (← inst call).type [some result]

def operatorCalled? (m : Module) (i : InstId) : Option LibraryOperator :=
  if (m.insts.get i).erased then none
  else (m.callee i).bind fun f => LibraryOperator.named? (m.funcs.get f).name

def inlineCall (i : InstId) (op : LibraryOperator) : Build Unit := do
  match ← attempt (explode (some i) (expandOperator i op)) with
  | .ok _ => pure ()
  | .error e => fail (.within ("inline @" ++ op.name) e)

def inlineLibraryCalls (f : FuncId) : Transform Unit := do
  ((← Transform.module).funcInsts f).forM fun i => do
    match operatorCalled? (← Transform.module) i with
    | none => pure ()
    | some op =>
      Transform.build (inlineCall i op)
      Transform.count fun s => { s with inlined := s.inlined + 1 }

def libraryInline : FunctionPass :=
  { name := "stdlib-inline", minLevel := .high, run := inlineLibraryCalls }

end Midlevel.Pass
