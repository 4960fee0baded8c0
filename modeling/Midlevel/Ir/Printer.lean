import Midlevel.Error
import Midlevel.Ir.Naming
import Midlevel.Text.Quoted
import Midlevel.Type.Label

/-!
Dumps: the text of instructions, functions and modules. The text of a function is first put together
from words and from values and blocks, which are then shown by their names. An instruction that lost
an operand or an edge its syntax needs cannot be shown.
-/

namespace Midlevel.Ir

inductive Piece where
  | words (t : Text)
  | value (v : Option Value)
  | block (b : Option BlockId)

namespace Piece

def isBlank : Piece → Bool
  | words t => t.isEmpty
  | _ => false

def commas : List (List Piece) → List Piece := List.intercalate [words ", "]

end Piece

def said (t : Text) : List Piece := [.words t]

def Naming.shown (n : Naming) (m : Module) : Piece → Text
  | .words t => t
  | .block b => "#" ++ (b.map n.block).getD []
  | .value none => "<nil>"
  | .value (some (.func f)) => "@" ++ (m.funcs.get f).refName
  | .value (some (.global g)) => "@" ++ (m.globals.get g).name
  | .value (some v) =>
    match n.value? v with
    | some name => "%" ++ name
    | none => "%<" ++ m.valueName v ++ "?>"

namespace Module

variable (m : Module)

def showOperands (os : List OperandId) : List Piece :=
  Piece.commas ((m.operandValues os).map ([.value ·]))

def showEdge (e : EdgeId) : List Piece :=
  let edge := m.edges.get e
  .block edge.target :: if edge.args.isEmpty then [] else said "(" ++
    m.showOperands edge.args ++ said ")"

def showArgs (i : Inst) : Except Crash (List Piece) :=
  let operands := m.showOperands i.operands
  match i.op with
  | .intLiteral => .ok (said (Text.ofInt i.payload.int.toInt))
  | .boolLiteral => .ok (said (Text.ofBool i.payload.bool))
  | .stringLiteral => .ok (said (i.payload.encoding.name ++ " " ++ Text.quote i.payload.text))
  | .primitive => .ok (said (i.payload.primitive.name ++ " ") ++ operands)
  | .alloc | .allocObject => .ok (said (m.types.label i.payload.subject))
  | .call | .apply =>
    match i.operands with
    | [] => .error .absent
    | callee :: args =>
      .ok (.value (m.operandValue callee) :: said " (" ++ m.showOperands args ++ said ")")
  | .structExtract | .structElementPtr | .existentialWitness | .existentialPropertyPtr =>
    .ok (operands ++ said (", !" ++ i.payload.field))
  | .tupleExtract | .tupleElementPtr => .ok (operands ++ said (", !" ++ Text.ofInt i.payload.index))
  | .existentialBox => .ok (operands ++ said (", !" ++ m.types.label i.payload.subject))
  | .releaseObject | .deallocObject | .existentialRelease =>
    .ok (if i.payload.unowned then said "unowned " ++ operands else operands)
  | .br =>
    match i.targets with
    | e :: _ => .ok (m.showEdge e)
    | [] => .error .absent
  | .condBr =>
    match i.targets with
    | t :: f :: _ => .ok (operands ++ said ", " ++ m.showEdge t ++ said ", " ++ m.showEdge f)
    | _ => .error .absent
  | _ => .ok operands

def showInst (id : InstId) : Except Crash (List Piece) :=
  let i := m.insts.get id
  (m.showArgs i).map fun args =>
    let body := if args.all Piece.isBlank then said i.op.name else said (i.op.name ++ " ") ++ args
    if i.type = .void then body
    else .value (some (.inst id)) :: said " = " ++ body ++ said (" : " ++ m.types.label i.type)

def showLine (i : InstId) : Except Crash (List Piece) :=
  (m.showInst i).map fun shown => said "  " ++ shown ++ said "\n"

def showBlockHeader (b : BlockId) : List Piece :=
  .block (some b) :: match (m.blocks.get b).params with
    | [] => said ":\n"
    | params => said "(" ++ Piece.commas (params.map fun p =>
        .value (some (.param p)) :: said (": " ++ m.types.label (m.params.get p).type)) ++
          said "):\n"

def showAll {α : Type} (shown : α → Except Crash (List Piece)) (as : List α) :
    Except Crash (List Piece) :=
  (as.mapM shown).map List.flatten

def showBlock (b : BlockId) : Except Crash (List Piece) :=
  (showAll m.showLine (m.blocks.get b).insts).map (m.showBlockHeader b ++ ·)

def attributes (f : Func) : List Text :=
  (if f.visibility = .hidden then [] else [f.visibility.name]) ++
  (if f.inlining = .unspecified then [] else [f.inlining.name]) ++
  (if f.noReturn then [Text.ofString "noreturn"] else []) ++
  (if f.readNone then [Text.ofString "readnone"] else [])

def showHeader (f : FuncId) : Text :=
  let fn := m.funcs.get f
  let header := "func @" ++ fn.name ++ " : " ++ TypeTable.labelIn (m.typesOf f) fn.type
  match attributes fn with
  | [] => header
  | attrs => header ++ " [" ++ Text.join " " attrs ++ "]"

/-- The body of a removed function cannot be shown: its types are gone. -/
def showFunc (f : FuncId) : Except Crash Text := do
  let fn := m.funcs.get f
  if !fn.defined then return m.showHeader f ++ "\n"
  if fn.removed then throw .absent
  let body ← showAll m.showBlock fn.blocks
  return m.showHeader f ++ " \x7b\n" ++ body.flatMap ((Naming.ofFunc m f).shown m) ++ "\x7d\n"

def showType (t : TypeId) : Text := m.types.declaration t ++ "\n"

def showGlobal (g : GlobalId) : Text :=
  "global @" ++ (m.globals.get g).name ++ " : " ++ m.types.label (m.globals.get g).elem ++ "\n"

/-- Types and globals, then the functions, each after an empty line. -/
def dump : Except Crash Text := do
  let decls := m.typeDecls.flatMap m.showType ++ m.globals.ids.flatMap m.showGlobal
  let funcs ← m.order.mapM m.showFunc
  return Text.join "\n" ((if decls = [] then [] else [decls]) ++ funcs)

end Module

end Midlevel.Ir
