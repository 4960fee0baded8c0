import Midlevel.Text

/-!
Typed trees: modules after type checking, as they are handed to lowering. Every node has room for
all that any kind of node needs; the kind says what counts. Kinds are open: a code that stands for
no kind is kept, and lowering refuses it.
-/

namespace Midlevel.Tree

/-! ### Types -/

structure TypeRef where
  code : UInt8 := 0
  name : Text := []
  elems : List TypeRef := []

namespace TypeRef

def isVoid (t : TypeRef) : Bool := t.code = 0

mutual

def text : TypeRef → Text
  | ⟨code, name, elems⟩ =>
    match code with
    | 0 => "()"
    | 3 => "(" ++ Text.join ", " (texts elems) ++ ")"
    | _ => name

def texts : List TypeRef → List Text
  | [] => []
  | t :: ts => t.text :: texts ts

end

end TypeRef

/-! ### Expressions -/

inductive ExprKind where
  | int
  | bool
  | string
  | var
  | call
  | methodCall
  | field
  | tuple
  | tupleIndex
  | struct
  | invalid
  deriving DecidableEq

namespace ExprKind

def known : List ExprKind :=
  [int, bool, string, var, call, methodCall, field, tuple, tupleIndex, struct]

def ofCode (n : UInt8) : ExprKind := (known[n.toNat]?).getD invalid

def name : ExprKind → Text
  | int => "int"
  | bool => "bool"
  | string => "string"
  | var => "var"
  | call => "call"
  | methodCall => "method_call"
  | field => "field"
  | tuple => "tuple"
  | tupleIndex => "tuple_index"
  | struct => "struct"
  | invalid => "invalid"

end ExprKind

structure Expr where
  code : UInt8 := 0
  type : TypeRef := {}
  int : Int64 := 0
  bool : Bool := false
  text : Text := []
  name : Text := []
  /-- The symbol that is called; `Builtin.` and a name stand for a primitive. -/
  callee : Text := []
  object : Option Expr := none
  args : List Expr := []
  index : Int64 := 0

def Expr.kind (e : Expr) : ExprKind := .ofCode e.code

/-! ### Statements -/

inductive StmtKind where
  | var
  | assign
  | expr
  | ret
  | cond
  | while
  | for
  | block
  | invalid
  deriving DecidableEq

namespace StmtKind

def known : List StmtKind := [var, assign, expr, ret, cond, .while, .for, block]

def ofCode (n : UInt8) : StmtKind := (known[n.toNat]?).getD invalid

def name : StmtKind → Text
  | var => "var"
  | assign => "assign"
  | expr => "expr"
  | ret => "return"
  | cond => "if"
  | .while => "while"
  | .for => "for"
  | block => "block"
  | invalid => "invalid"

end StmtKind

mutual

/-- One arm of a chain of conditions. An arm without a condition is always taken. -/
structure Branch where
  cond : Option Expr := none
  body : List Stmt := []

structure Stmt where
  code : UInt8 := 0
  name : Text := []
  mutable : Bool := false
  type : Option TypeRef := none
  target : Option Expr := none
  value : Option Expr := none
  branches : List Branch := []
  cond : Option Expr := none
  /-- The bounds of a counting loop; the upper one is not reached. -/
  lower : Option Expr := none
  upper : Option Expr := none
  body : List Stmt := []

end

def Stmt.kind (s : Stmt) : StmtKind := .ofCode s.code

/-! ### Declarations -/

structure Field where
  name : Text := []
  type : TypeRef := {}
  mutable : Bool := false

structure Param where
  name : Text := []
  type : TypeRef := {}

/-- A function, method, initialiser or deinitialiser. One without a body is defined elsewhere. -/
structure FuncDecl where
  name : Text := []
  symbol : Text := []
  params : List Param := []
  result : TypeRef := {}
  body : List Stmt := []
  hasBody : Bool := false
  visibility : Text := []
  inlining : Text := []
  noReturn : Bool := false

/-- A struct or a concept. The methods of a concept have no bodies, and its fields are required
properties. -/
structure TypeDecl where
  code : UInt8 := 0
  name : Text := []
  fields : List Field := []
  heap : Bool := false
  inits : List FuncDecl := []
  /-- The symbol of an initialiser that takes every field in order, if one is to be made. -/
  memberwise : Text := []
  methods : List FuncDecl := []
  deinit : Option FuncDecl := none
  conforms : List Text := []

namespace TypeDecl

def isConcept (d : TypeDecl) : Bool := d.code = 1

end TypeDecl

structure Module where
  name : Text := []
  types : List TypeDecl := []
  funcs : List FuncDecl := []
  /-- Statements outside functions, the body of `main` unless this is a library. -/
  main : List Stmt := []
  library : Bool := false

end Midlevel.Tree
