import Midlevel.Tree.Basic

/-!
Making trees by hand.
-/

namespace Midlevel.Tree

namespace TypeRef

def void : TypeRef := {}

/-- A machine type by its name, with or without `Builtin.` before it. -/
def builtin (name : Text) : TypeRef :=
  { code := 1, name := "Builtin." ++ (Text.dropPrefix? "Builtin." name).getD name }

def named (name : Text) : TypeRef := { code := 2, name }

def tuple (elems : List TypeRef) : TypeRef := { code := 3, elems }

def int : TypeRef := named "Int"

def bool : TypeRef := named "Bool"

def opaquePointer : TypeRef := builtin "OpaquePointer"

end TypeRef

namespace Expr

def intLit (value : Int64) : Expr := { code := 0, type := .int, int := value }

def boolLit (value : Bool) : Expr := { code := 1, type := .bool, bool := value }

def stringLit (text : Text) : Expr := { code := 2, type := .opaquePointer, text }

def varRef (name : Text) (type : TypeRef) : Expr := { code := 3, type, name }

def callTo (callee : Text) (type : TypeRef) (args : List Expr) : Expr :=
  { code := 4, type, callee, args }

def methodCall (object : Expr) (name callee : Text) (type : TypeRef) (args : List Expr) : Expr :=
  { code := 5, type, object := some object, name, callee, args }

def fieldOf (object : Expr) (name : Text) (type : TypeRef) : Expr :=
  { code := 6, type, object := some object, name }

def tupleOf (type : TypeRef) (args : List Expr) : Expr := { code := 7, type, args }

def tupleIndex (object : Expr) (index : Int64) (type : TypeRef) : Expr :=
  { code := 8, type, object := some object, index }

def structLit (type : TypeRef) (args : List Expr) : Expr := { code := 9, type, args }

end Expr

namespace Branch

def when (cond : Expr) (body : List Stmt) : Branch := { cond := some cond, body }

def otherwise (body : List Stmt) : Branch := { body }

end Branch

namespace Stmt

def letVar (name : Text) (value : Expr) : Stmt := { code := 0, name, value := some value }

def letTyped (name : Text) (type : TypeRef) (value : Expr) : Stmt :=
  { code := 0, name, type := some type, value := some value }

def mutVar (name : Text) (value : Expr) : Stmt :=
  { code := 0, name, mutable := true, value := some value }

def assign (target value : Expr) : Stmt := { code := 1, target := some target, value := some value }

def eval (value : Expr) : Stmt := { code := 2, value := some value }

def ret (value : Option Expr) : Stmt := { code := 3, value }

def chain (branches : List Branch) : Stmt := { code := 4, branches }

def whileLoop (cond : Expr) (body : List Stmt) : Stmt := { code := 5, cond := some cond, body }

def forLoop (name : Text) (lower upper : Expr) (body : List Stmt) : Stmt :=
  { code := 6, name, lower := some lower, upper := some upper, body }

def block (body : List Stmt) : Stmt := { code := 7, body }

end Stmt

def FuncDecl.define (name symbol : Text) (params : List Param) (result : TypeRef)
    (body : List Stmt) : FuncDecl :=
  { name, symbol, params, result, body, hasBody := true }

end Midlevel.Tree
