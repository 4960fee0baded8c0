import Midlevel.Msgpack
import Midlevel.Tree.Basic

/-!
Trees as bytes. A node is a map of its fields, of which those that are empty or zero are left out; a
part that may be absent is written whenever it is there, even if it is empty.
-/

namespace Midlevel.Tree

open Msgpack Midlevel.Tree.Expr History

/-! ### Writing -/

def node (fields : List (Text × Option Value)) : Value :=
  .map (fields.filterMap fun f => f.2.map (.str f.1, ·))

def ofCode (code : UInt8) : Option Value := if code = 0 then none else some (.uint8 code)

def ofFlag (b : Bool) : Option Value := if b then some (.bool true) else none

def ofText (t : Text) : Option Value := if t = [] then none else some (.str t)

def ofList (vs : List Value) : Option Value := if vs.isEmpty then none else some (.array vs)

def ofPart : Value → Option Value
  | .map [] => none
  | v => some v

mutual

def TypeRef.toValue : TypeRef → Value
  | ⟨code, name, elems⟩ =>
    node [("k", ofCode code), ("n", ofText name), ("e", ofList (TypeRef.values elems))]

def TypeRef.values : List TypeRef → List Value
  | [] => []
  | t :: ts => t.toValue :: TypeRef.values ts

end

mutual

def Expr.toValue : Expr → Value
  | ⟨code, type, int, bool, text, name, callee, object, args, index⟩ =>
    node [("kind", ofCode code), ("type", ofPart type.toValue),
      ("int", if int = 0 then none else some (.int64 int)),
      ("bool", ofFlag bool), ("text", ofText text), ("name", ofText name),
        ("callee", ofText callee),
      ("object", value? object), ("args", ofList (values args)),
      ("index", if index = 0 then none else some (.int index.toInt))]

def Expr.value? : Option Expr → Option Value
  | none => none
  | some e => some e.toValue

def Expr.values : List Expr → List Value
  | [] => []
  | e :: es => e.toValue :: values es

end

mutual

def Branch.toValue : Branch → Value
  | ⟨cond, body⟩ => node [("cond", cond.map toValue), ("body", ofList (Stmt.values body))]

def Branch.values : List Branch → List Value
  | [] => []
  | b :: bs => b.toValue :: Branch.values bs

def Stmt.toValue : Stmt → Value
  | ⟨code, name, mutable, type, target, value, branches, cond, lower, upper, body⟩ =>
    node [("kind", ofCode code), ("name", ofText name), ("mut", ofFlag mutable),
      ("type", type.map TypeRef.toValue),
      ("target", target.map toValue), ("value", value.map toValue),
      ("branches", ofList (Branch.values branches)), ("cond", cond.map toValue),
      ("from", lower.map toValue), ("to", upper.map toValue), ("body", ofList (Stmt.values body))]

def Stmt.values : List Stmt → List Value
  | [] => []
  | s :: ss => s.toValue :: Stmt.values ss

end

def Field.toValue (f : Field) : Value :=
  node [("name", ofText f.name), ("type", ofPart f.type.toValue), ("mut", ofFlag f.mutable)]

def Param.toValue (p : Param) : Value :=
  node [("name", ofText p.name), ("type", ofPart p.type.toValue)]

def FuncDecl.toValue (d : FuncDecl) : Value :=
  node [("name", ofText d.name), ("mangled", ofText d.symbol),
    ("params", ofList (d.params.map Param.toValue)),
    ("result", ofPart d.result.toValue), ("body", ofList (Stmt.values d.body)),
      ("has_body", ofFlag d.hasBody),
    ("vis", ofText d.visibility), ("inline", ofText d.inlining), ("noreturn", ofFlag d.noReturn)]

def TypeDecl.toValue (d : TypeDecl) : Value :=
  node [("kind", ofCode d.code), ("name", ofText d.name),
    ("fields", ofList (d.fields.map Field.toValue)),
    ("heap", ofFlag d.heap), ("inits", ofList (d.inits.map FuncDecl.toValue)),
      ("memberwise", ofText d.memberwise),
    ("methods", ofList (d.methods.map FuncDecl.toValue)), ("deinit", d.deinit.map FuncDecl.toValue),
    ("conforms", ofList (d.conforms.map .str))]

def Module.toValue (m : Module) : Value :=
  node [("name", ofText m.name), ("types", ofList (m.types.map TypeDecl.toValue)),
    ("funcs", ofList (m.funcs.map FuncDecl.toValue)), ("main", ofList (Stmt.values m.main)),
    ("library", ofFlag m.library)]

def Module.encode (m : Module) : Text := m.toValue.bytes

/-! ### Reading -/

def readCode (h : History) : Option UInt8 :=
  h.last (fun v => v.toInt?.map fun n => (n % 256).toNat.toUInt8) 0

def readWord (h : History) : Option Int64 := h.last (fun v => v.toInt?.map Int.toInt64) 0

def readFlag (h : History) : Option Bool := h.last Value.toBool? false

def readText (h : History) : Option Text := h.last Value.toText? []

def TypeRef.read : (depth : Nat) → History → Option TypeRef
  | 0 => fun _ => none
  | depth + 1 => record ["k", "n", "e"] fun f => do
    return { code := ← readCode (f "k"), name := ← readText (f "n"),
             elems := ← (f "e").list (TypeRef.read depth) }

def Expr.read : (depth : Nat) → History → Option Expr
  | 0 => fun _ => none
  | depth + 1 =>
    record ["kind", "type", "int", "bool", "text", "name", "callee", "object", "args",
        "index"] fun f => do
      return {
        code := ← readCode (f "kind")
        type := ← TypeRef.read depth (f "type")
        int := ← readWord (f "int")
        bool := ← readFlag (f "bool")
        text := ← readText (f "text")
        name := ← readText (f "name")
        callee := ← readText (f "callee")
        object := ← (f "object").option (read depth)
        args := ← (f "args").list (read depth)
        index := ← readWord (f "index") }

mutual

def Branch.read : (depth : Nat) → History → Option Branch
  | 0 => fun _ => none
  | depth + 1 => record ["cond", "body"] fun f => do
    return { cond := ← (f "cond").option (read depth), body := ← (f "body").list (Stmt.read depth) }

def Stmt.read : (depth : Nat) → History → Option Stmt
  | 0 => fun _ => none
  | depth + 1 =>
    record ["kind", "name", "mut", "type", "target", "value", "branches", "cond", "from", "to",
        "body"] fun f => do
      return {
        code := ← readCode (f "kind")
        name := ← readText (f "name")
        mutable := ← readFlag (f "mut")
        type := ← (f "type").option (TypeRef.read depth)
        target := ← (f "target").option (read depth)
        value := ← (f "value").option (read depth)
        branches := ← (f "branches").list (Branch.read depth)
        cond := ← (f "cond").option (read depth)
        lower := ← (f "from").option (read depth)
        upper := ← (f "to").option (read depth)
        body := ← (f "body").list (Stmt.read depth) }

end

def Field.read (depth : Nat) : History → Option Field :=
  record ["name", "type", "mut"] fun f => do
    return { name := ← readText (f "name"), type := ← TypeRef.read depth (f "type"),
             mutable := ← readFlag (f "mut") }

def Param.read (depth : Nat) : History → Option Param :=
  record ["name", "type"] fun f => do
    return { name := ← readText (f "name"), type := ← TypeRef.read depth (f "type") }

def FuncDecl.read (depth : Nat) : History → Option FuncDecl :=
  record ["name", "mangled", "params", "result", "body", "has_body", "vis", "inline",
      "noreturn"] fun f => do
    return {
      name := ← readText (f "name")
      symbol := ← readText (f "mangled")
      params := ← (f "params").list (Param.read depth)
      result := ← TypeRef.read depth (f "result")
      body := ← (f "body").list (Stmt.read depth)
      hasBody := ← readFlag (f "has_body")
      visibility := ← readText (f "vis")
      inlining := ← readText (f "inline")
      noReturn := ← readFlag (f "noreturn") }

def TypeDecl.read (depth : Nat) : History → Option TypeDecl :=
  record ["kind", "name", "fields", "heap", "inits", "memberwise", "methods", "deinit",
      "conforms"] fun f => do
    return {
      code := ← readCode (f "kind")
      name := ← readText (f "name")
      fields := ← (f "fields").list (Field.read depth)
      heap := ← readFlag (f "heap")
      inits := ← (f "inits").list (FuncDecl.read depth)
      memberwise := ← readText (f "memberwise")
      methods := ← (f "methods").list (FuncDecl.read depth)
      deinit := ← (f "deinit").option (FuncDecl.read depth)
      conforms := ← (f "conforms").texts }

def Module.read (depth : Nat) : History → Option Module :=
  record ["name", "types", "funcs", "main", "library"] fun f => do
    return {
      name := ← readText (f "name")
      types := ← (f "types").list (TypeDecl.read depth)
      funcs := ← (f "funcs").list (FuncDecl.read depth)
      main := ← (f "main").list (Stmt.read depth)
      library := ← readFlag (f "library") }

def Module.ofValue? (v : Value) : Option Module := Module.read (v.depth + 1) [v]

def Module.decode? (bytes : Text) : Option Module := (parse bytes).bind fun (v, _) => ofValue? v

end Midlevel.Tree
