import Midlevel.Ir.Verifier
import Midlevel.Lowering.Stmt
import Midlevel.Trace.Traced
import Midlevel.Tree.Build
import Midlevel.Type.Conformance

/-!
Lowering of modules: types and functions are declared first, so that bodies may refer to any of
them. The result is verified.
-/

namespace Midlevel.Lowering

open Ir Midlevel.Tree Trace Build Lower

/-! ### Types -/

abbrev Methods := List (TypeId × List Text)

def resolveMembers (place : Text) (fields : List Field) : Build (List Member) :=
  fields.mapM fun f => do
    return { name := f.name, type := ← within (place ++ "." ++ f.name) (resolveType f.type) }

/-- Names come first, so that fields and signatures may refer to any type. -/
def declareName (d : TypeDecl) : Build TypeId := do
  if ((← types).nominal? d.name).isSome && (d.name = "Int" || d.name = "Bool") then
    fail (.plain ("type " ++ d.name ++ ": redeclares a standard library type"))
  let t ←
    if d.isConcept then onTypes (·.declareConcept { name := d.name, methods := [] })
    else onTypes (·.declareStruct { name := d.name, fields := [], heap := d.heap })
  declareType t
  return t

def conceptMethod (self : TypeId) (concept : Text) (d : FuncDecl) : Build Member := do
  let place : Text := "concept " ++ concept ++ "." ++ d.name
  let params ← within place (resolveParams d.params)
  let result ← within place (resolveType d.result)
  return { name := d.name,
           type := ← onTypes (·.function { params, result, conv := .method, self }) }

def setTypes (f : TypeTable → TypeTable) : Build Unit := onTypes fun t => ((), f t)

def declareMembers (methods : Methods) (t : TypeId) (d : TypeDecl) : Build Methods := do
  if d.isConcept then
    let ms ← d.methods.mapM (conceptMethod t d.name)
    setTypes (·.setMethods t ms)
    let ps ← resolveMembers ("concept " ++ d.name) d.fields
    setTypes (·.setProperties t ps)
    return methods
  else
    let fs ← resolveMembers ("struct " ++ d.name) d.fields
    setTypes (·.setFields t fs)
    return (t, d.methods.map (·.name)) :: methods

def checkConformance (methods : Methods) (t : TypeId) (d : TypeDecl) (concept : Text) :
    Build Unit := do
  match (← types).nominal? concept with
  | none => fail (.within (d.name ++ " conforms to " ++ concept) (.cause .unknownType))
  | some c =>
    match (← types).conforms t c fun name => ((methods.lookup t).getD []).contains name with
    | .ok _ => pure ()
    | .error reason => fail (.plain reason)

def declareTypes (decls : List TypeDecl) : Build Unit := do
  let ids ← decls.mapM declareName
  let declared := ids.zip decls
  let methods ← declared.foldlM (fun methods (t, d) => declareMembers methods t d) []
  declared.forM fun (t, d) => d.conforms.forM (checkConformance methods t d)

/-! ### Functions -/

inductive BodyKind where
  | free
  | method
  | initialiser
  | deinitialiser
  deriving DecidableEq

structure Pending where
  kind : BodyKind
  decl : FuncDecl
  func : FuncId
  self : TypeId

def visibilityOf (text : Text) : Visibility :=
  if text = "public" then .exported else if text = "internal" then .shared else .hidden

def inliningOf (text : Text) (old : Inlining) : Inlining :=
  if text = "always" || text = "always_inline" then .always
  else if text = "never" || text = "noinline" then .never
  else old

/-- Declares a function. An initialiser is always inlined. -/
def declare (kind : BodyKind) (d : FuncDecl) (type self : TypeId) : Build (List Pending) := do
  let f ← getOrAddFunction d.symbol type
  modifyFunc f fun fn =>
    { fn with
      visibility := visibilityOf d.visibility
      inlining := if kind = .initialiser then .always else inliningOf d.inlining fn.inlining
      noReturn := fn.noReturn || d.noReturn }
  return if d.hasBody then [{ kind, decl := d, func := f, self }] else []

def memberwise (d : TypeDecl) : FuncDecl :=
  let self := Expr.varRef "self" (.named d.name)
  { name := "init"
    symbol := d.memberwise
    result := .named d.name
    hasBody := true
    visibility := "public"
    inlining := "always"
    params := d.fields.map fun f => { name := f.name, type := f.type }
    body := d.fields.map fun f => .assign (.fieldOf self f.name f.type) (.varRef f.name f.type) }

def declareFree (d : FuncDecl) : Build (List Pending) := do
  let params ← within ("@" ++ d.symbol) (resolveParams d.params)
  let result ← within ("@" ++ d.symbol) (resolveType d.result)
  declare .free d (← onTypes (·.freeFunction params result)) .none

def declareMethod (self : TypeId) (d : FuncDecl) : Build (List Pending) := do
  let params ← within ("@" ++ d.symbol) (resolveParams d.params)
  let result ← within ("@" ++ d.symbol) (resolveType d.result)
  declare .method d (← onTypes (·.function { params, result, conv := .method, self })) self

def declareInit (self result : TypeId) (d : FuncDecl) : Build (List Pending) := do
  let params ← within ("@" ++ d.symbol) (resolveParams d.params)
  declare .initialiser d
    (← onTypes (·.function { params, result, conv := .initialiser, self })) self

def declareDeinit (self : TypeId) (d : FuncDecl) : Build (List Pending) := do
  let type ← onTypes (·.function { params := [], result := .void, conv := .deinitialiser, self })
  declare .deinitialiser d type self

def declareStructFunctions (d : TypeDecl) : Build (List Pending) := do
  if d.code ≠ 0 then return []
  let self := ((← types).nominal? d.name).getD .none
  let value ← resolveType (.named d.name)
  let methods ← d.methods.mapM (declareMethod self)
  let inits ← d.inits.mapM (declareInit self value)
  let fieldwise ← if d.memberwise = [] then pure [] else declareInit self value (memberwise d)
  let deinit ← d.deinit.toList.mapM (declareDeinit self)
  return methods.flatten ++ inits.flatten ++ fieldwise ++ deinit.flatten

def declareFunctions (m : Tree.Module) : Build (List Pending) := do
  let free ← m.funcs.mapM declareFree
  let owned ← m.types.mapM declareStructFunctions
  return free.flatten ++ owned.flatten

/-! ### Bodies -/

def selfParam (p : Value) : Lower Accessor := do
  if (← types).isRefCounted (← typeOf p) then return .object p false
  else return .place (← slotAt p)

def allocSelf (struct : TypeId) : Lower Accessor := do
  if (← types).isHeapAllocated struct then
    let object := Value.inst (← build (allocObject struct))
    build (setName object "self")
    let a := Accessor.object object false
    a.count .retain
    return a
  else
    let slot := Value.inst (← build (alloc struct))
    build (setName slot "self")
    return .place (← slotAt slot)

def bindingsFrom (reference : Value) (index : Nat) : List Member → Frame Accessor
  | [] => []
  | f :: fs =>
    { name := f.name, access := .place (.field reference index f.name f.type), borrowed := true } ::
      bindingsFrom reference (index + 1) fs

def fieldBindings (self : Accessor) (struct : TypeId) : Lower (Frame Accessor) := do
  let fields := (← types).structFields struct
  match self with
  | .object v _ | .place (.slot v _) => return bindingsFrom v 0 fields
  | _ => return []

/-- The binding of self and of its fields, and the parameters that are left. -/
def bindSelf (p : Pending) (params : List Value) : Lower (Frame Accessor × List Value) := do
  match p.kind with
  | .free => return ([], params)
  | .initialiser =>
    let self ← allocSelf p.self
    return ({ name := "self", access := self } :: (← fieldBindings self p.self), params)
  | .method | .deinitialiser =>
    match params with
    | [] => throw (.crash .absent)
    | v :: vs =>
      let self ← selfParam v
      let own := { name := "self", access := self, borrowed := p.kind = .deinitialiser }
      return (own :: (← fieldBindings self p.self), vs)

/-- Hands the new instance to the caller without a reference of its own. -/
def finishInit (s : Vars) : Lower Unit := do
  match s.inner.remove? "self" with
  | none => fail (.because .unknownVariable "self")
  | some (self, rest) =>
    self.count .releaseUnowned
    leave [rest]
    let v ← self.read
    discard (build (ret (some v)))

/-- Control that reaches the end of a body returns, or traps where a result is due. -/
def finishBody (kind : BodyKind) (s : Vars) : Lower Unit := do
  if ← terminated then return
  if kind = .initialiser then finishInit s
  else if (← build (resultType (← read).func)) ≠ .void then
    discard (build trap)
  else
    leave s
    discard (build (ret none))

def emitBody (p : Pending) : Lower Unit := do
  let f := (← read).func
  let params := ((← module).funcParams f).map Value.param
  let (frame, params) ← bindSelf p params
  let named ← params.mapM fun v => do
    return { name := (← module).valueName v, access := ← accessorFor v false : Binding Accessor }
  let s ← emitStmts [frame ++ named] p.decl.body
  finishBody p.kind s

def emitMain (stmts : List Stmt) : Lower Unit := do
  let s ← emitStmts [[]] stmts
  finishBody .free s

/-! ### Modules -/

structure Options where
  name : Text := []
  library : Bool := false

structure Generation where
  builder : Builder
  tracer : Tracer := .off

instance : Traced Generation where
  tracer := Generation.tracer
  setTracer t g := { g with tracer := t }

abbrev Generate := ExceptT Fault (StateM Generation)

namespace Generate

variable {α : Type}

def build (x : Build α) : Generate α := do
  let g ← get
  let (outcome, builder) := x.run.run g.builder
  set { g with builder }
  match outcome with
  | .ok a => return a
  | .error f => throw f

def lower (env : Env) (x : Lower α) : Generate α := do
  let g ← get
  let (outcome, site) := (x.run env).run.run { builder := g.builder }
  set { g with builder := site.builder }
  match outcome with
  | .ok a => return a
  | .error f => throw f

def traced (scope : Trace.Scope) (name : Text) (parent : UInt64) (x : Span → Generate α) :
    Generate α := do
  let span ← beginSpan scope name parent
  try
    let a ← x span
    endSpan span []
    return a
  catch f =>
    endSpan span []
    throw f

end Generate

def inFunction (name : Text) (x : Generate Unit) : Generate Unit := do
  try x
  catch
    | .error e => throw (.error (.within ("@" ++ name) e))
    | .crash c => throw (.crash c)

def generateBody (int bool : TypeId) (parent : UInt64) (p : Pending) : Generate Unit := do
  let fn ← Generate.build (func p.func)
  inFunction fn.name do
    Generate.traced .function ("virgen:@" ++ fn.name) parent fun _ => do
      discard (Generate.build (resolveParams p.decl.params))
      let f ← Generate.build (getOrBuildFunction fn.name fn.type (p.decl.params.map (·.name)))
      Generate.lower { int, bool, func := f, initialising := p.kind = .initialiser } (emitBody p)

def generateMain (int bool : TypeId) (parent : UInt64) (stmts : List Stmt) : Generate Unit :=
  inFunction "main" do
    Generate.traced .function "virgen:@main" parent fun _ => do
      let f ← Generate.build do
        let f ← buildFunction "main" (← onTypes (·.freeFunction [] .void)) []
        modifyFunc f ({ · with visibility := .exported })
        return f
      Generate.lower { int, bool, func := f } (emitMain stmts)

def generateModule (m : Tree.Module) (name : Text) (library : Bool) (parent : UInt64) :
    Generate Unit := do
  let (int, bool) ← Generate.build (onTypes libraryTypes)
  let bodies ← Generate.build do
    declareType int
    declareType bool
    declareTypes m.types
    declareFunctions m
  bodies.forM (generateBody int bool parent)
  if !m.library && !library then generateMain int bool parent m.main
  Generate.build clearCursor
  match (← get).builder.module.verify with
  | .error c => throw (.crash c)
  | .ok none => pure ()
  | .ok (some e) => throw (.error (.within ("virgen: generated invalid module " ++ name) e))

def generate (m : Tree.Module) (options : Options) (tracer : Tracer) (parent : UInt64) :
    Except Fault Ir.Module × Tracer :=
  let name := if options.name = [] then m.name else options.name
  let start : Generation :=
    { builder := { module := { name, providers := [.library, .objectRuntime] } }, tracer }
  let run := Generate.traced .module ("virgen:" ++ name) parent fun span =>
    generateModule m name options.library span.anchor
  let (outcome, g) := run.run.run start
  (outcome.map fun _ => g.builder.module, g.tracer)

end Midlevel.Lowering
