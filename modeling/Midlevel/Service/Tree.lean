import Midlevel.Service.Answer
import Midlevel.Service.Request
import Midlevel.Tree.Build
import Midlevel.Tree.Codec

/-!
Requests about typed trees: writing, reading and building them.
-/

namespace Midlevel.Service

open Midlevel.Tree
open Msgpack (Value)

/-! ### Modules in requests -/

def onlyHex? : List (Text × Json) → Option Json
  | [(key, v)] => if key = "hex" then some v else none
  | _ => none

mutual

/-- A module in a request is read as if it were written in the binary form. -/
def toValue : Json → Read Value
  | .null => .ok .nil
  | .bool b => .ok (.bool b)
  | .number m s => return .int (← readInt (.number m s))
  | .text t => .ok (.str t)
  | .list items => return .array (← toValues items)
  | .object fields =>
    match onlyHex? fields with
    | some (.text h) => return .str (← unhex h)
    | some _ => unreadable
    | none => return .map (← toEntries fields)

def toValues : List Json → Read (List Value)
  | [] => .ok []
  | j :: js => return (← toValue j) :: (← toValues js)

def toEntries : List (Text × Json) → Read (List (Value × Value))
  | [] => .ok []
  | (key, j) :: fs => return (.str key, ← toValue j) :: (← toEntries fs)

end

def malformed : Json := .object [("error", .text "VIR4101")]

def withModule (j : Json) (go : Tree.Module → Read Json) : Read Json := do
  match Tree.Module.ofValue? (← toValue j) with
  | some m => go m
  | none => return malformed

mutual

def ofValue : Value → Json
  | .nil | .float _ => .null
  | .bool b => .bool b
  | .uint8 n => ofNat n.toNat
  | .int64 n => ofInt n.toInt
  | .int n => ofInt n
  | .str t | .bin t | .ext _ t => ofText t
  | .array items => .list (ofValues items)
  | .map entries => .object (ofEntries entries)

def ofValues : List Value → List Json
  | [] => []
  | v :: vs => ofValue v :: ofValues vs

def ofEntries : List (Value × Value) → List (Text × Json)
  | [] => []
  | (k, v) :: es => (k.toText?.getD [], ofValue v) :: ofEntries es

end

namespace Trees

def encode (j : Json) : Read Json :=
  withModule (j.field "module") fun m => return .object [("hex", .text m.encode.toHex)]

def decode (j : Json) : Read Json := do
  match Tree.Module.decode? (← unhex (← j.get "hex")) with
  | some m => return .object [("hex", .text m.encode.toHex), ("module", ofValue m.toValue)]
  | none => return malformed

/-! ### Building -/

def argument {α : Type} [Readable α] (args : List Json) (i : Nat) : Read α :=
  match args[i]? with
  | some j => Readable.read j
  | none => unreadable

def readType : (depth : Nat) → Json → Read TypeRef
  | _, .null => .ok .void
  | _, .text t =>
    if t = "Int" then .ok .int
    else if t = "Bool" then .ok .bool
    else if t = "ptr" then .ok .opaquePointer
    else unreadable
  | depth + 1, .list (.text head :: args) =>
    if head = "builtin" then return .builtin (← argument args 0)
    else if head = "named" then return .named (← argument args 0)
    else if head = "tuple" then return .tuple (← args.mapM (readType depth))
    else unreadable
  | _, _ => unreadable

def readExpr : (depth : Nat) → Json → Read Expr
  | depth + 1, .list (.text head :: args) => do
    let type (i : Nat) : Read TypeRef := do readType depth (← argument args i)
    let expr (i : Nat) : Read Expr := do readExpr depth (← argument args i)
    let exprs (i : Nat) : Read (List Expr) := (args.drop i).mapM (readExpr depth)
    if head = "int" then return .intLit (← argument args 0)
    else if head = "bool" then return .boolLit (← argument args 0)
    else if head = "str" then return .stringLit (← argument args 0)
    else if head = "var" then return .varRef (← argument args 0) (← type 1)
    else if head = "call" then return .callTo (← argument args 0) (← type 1) (← exprs 2)
    else if head = "method" then
      return .methodCall (← expr 0) (← argument args 1) (← argument args 2) (← type 3) (← exprs 4)
    else if head = "field" then return .fieldOf (← expr 0) (← argument args 1) (← type 2)
    else if head = "tuple" then return .tupleOf (← type 0) (← exprs 1)
    else if head = "index" then return .tupleIndex (← expr 0) (← argument args 1) (← type 2)
    else if head = "struct" then return .structLit (← type 0) (← exprs 1)
    else unreadable
  | _, _ => unreadable

mutual

def readBranch : (depth : Nat) → Json → Read Branch
  | depth + 1, .list (.text head :: args) => do
    if head = "when" then
      return .when (← readExpr depth (← argument args 0)) (← (args.drop 1).mapM (readStmt depth))
    else if head = "else" then return .otherwise (← args.mapM (readStmt depth))
    else unreadable
  | _, _ => unreadable

def readStmt : (depth : Nat) → Json → Read Stmt
  | depth + 1, .list (.text head :: args) => do
    let expr (i : Nat) : Read Expr := do readExpr depth (← argument args i)
    let body (i : Nat) : Read (List Stmt) := (args.drop i).mapM (readStmt depth)
    if head = "let" then return .letVar (← argument args 0) (← expr 1)
    else if head = "let_typed" then
      return .letTyped (← argument args 0) (← readType depth (← argument args 1)) (← expr 2)
    else if head = "var" then return .mutVar (← argument args 0) (← expr 1)
    else if head = "assign" then return .assign (← expr 0) (← expr 1)
    else if head = "do" then return .eval (← expr 0)
    else if head = "return" then
      return .ret (← args.head?.mapM (readExpr depth))
    else if head = "if" then return .chain (← args.mapM (readBranch depth))
    else if head = "while" then return .whileLoop (← expr 0) (← body 1)
    else if head = "for" then return .forLoop (← argument args 0) (← expr 1) (← expr 2) (← body 3)
    else if head = "block" then return .block (← body 0)
    else unreadable
  | _, _ => unreadable

end

def readParam (depth : Nat) : Json → Read Param
  | .list args =>
    do return { name := ← argument args 0, type := ← readType depth (← argument args 1) }
  | _ => unreadable

def readFunc (depth : Nat) (j : Json) : Read FuncDecl := do
  let params ← (← j.items "params").mapM (readParam depth)
  let result ← readType depth (j.field "result")
  let body ← (← j.items "body").mapM (readStmt depth)
  return .define (← j.get "name") (← j.get "mangled") params result body

def build (j : Json) : Read Json := do
  let depth := j.depth
  let main ← (← j.items "main").mapM (readStmt depth)
  let funcs ← (← j.items "funcs").mapM (readFunc depth)
  let m : Tree.Module := { name := ← j.get "name", main, funcs }
  let results := funcs.map fun f => Json.list [ofText f.result.text, .bool f.result.isVoid]
  return .object [("hex", .text m.encode.toHex), ("results", .list results)]

end Trees

end Midlevel.Service
