import Midlevel.Ir.Function
import Midlevel.Ir.Printer
import Midlevel.Layout.Engine
import Midlevel.Trace.Traced

/-!
Listings: a module as a code generator would take it. Machine types with their layouts come first,
then the routines of the object runtime that the code needs, then every function.
-/

namespace Midlevel.Listing

open Ir Trace Text

structure MachineType where
  name : Text
  size : Int
  align : Int
  deriving DecidableEq

structure Lowering where
  builder : Builder
  target : Target
  memory : Layout.Memory := []
  tracer : Tracer := .off

instance : Traced Lowering where
  tracer := Lowering.tracer
  setTracer t l := { l with tracer := t }

abbrev Lower := ExceptT Fault (StateM Lowering)

namespace Lower

variable {α : Type}

def module : Lower Module := return (← get).builder.module

def build (x : Build α) : Lower α := do
  let l ← get
  let (outcome, builder) := x.run.run l.builder
  set { l with builder }
  match outcome with
  | .ok a => return a
  | .error f => throw f

def finally_ (x : Lower α) (cleanup : Lower Unit) : Lower α := do
  try
    let a ← x
    cleanup
    return a
  catch f =>
    cleanup
    throw f

end Lower

/-! ### Types -/

def braced (parts : List Text) : Text :=
  if parts = [] then "\x7b\x7d" else "\x7b " ++ join ", " parts ++ " \x7d"

def refuse (reason : Text) : Except Fault Text := .error (.error (.plain reason))

/-- The machine name of a type. A struct inside another type is written by its name. -/
def typeNameWithin (t : TypeTable) : (depth : Nat) → (inner : Bool) → TypeId → Except Fault Text
  | 0, _, id => refuse ("unknown type id " ++ ofNat id.index)
  | depth + 1, inner, id =>
    let parts (elems : List TypeId) : Except Fault Text :=
      (elems.mapM (typeNameWithin t depth true)).map braced
    match t.desc? id with
    | none => refuse ("unknown type id " ++ ofNat id.index)
    | some d =>
      match d.kind with
      | .void => .ok "void"
      | .bool => .ok "i1"
      | .int => .ok ("i" ++ ofNat d.width)
      | .float => .ok (if d.width = 32 then "float" else "double")
      | .opaquePointer | .pointer | .fn => .ok "ptr"
      | .concept => .ok "\x7b ptr, ptr \x7d"
      | .struct =>
        if inner then .ok ("%" ++ t.nominalName id) else parts ((t.structFields id).map (·.type))
      | .tuple =>
        match t.tuple? id with
        | some elems => parts elems
        | none => .error (.crash .absent)
      | .refBox => parts [.int64, d.elem]
      | .invalid | .other _ => refuse ("unsupported type kind " ++ d.kind.name)

/-- No chain of distinct types is longer than the table. -/
def typeName (t : TypeTable) (id : TypeId) : Except Fault Text :=
  typeNameWithin t (t.descs.size + 1) false id

def lowerType (id : TypeId) : Lower MachineType := do
  let l ← get
  let types := l.builder.module.types
  match typeName types id with
  | .error f => throw f
  | .ok name =>
    let (answer, memory) := (Layout.layoutOf types l.target id).run l.memory
    set { l with memory }
    match answer with
    | .error e => throw (.error (.layout e))
    | .ok layout => return { name, size := layout.size, align := layout.align }

/-! ### Functions -/

def routinesUsed (m : Module) : List Text :=
  (m.order.flatMap m.funcInsts).foldl (fun names i =>
    match Routine.ofInst? (m.insts.get i) with
    | some r => if names.contains r.name then names else names ++ [r.name]
    | none => names) []

def declareRuntime : Build (List Text) := do
  let names := routinesUsed (← Build.module)
  names.forM fun n => do
    let _ ← Build.resolve n
  return names

/-- A function in dump syntax: a prototype as a declaration, a definition under a line of counts. -/
def emitFunction (m : Module) (f : FuncId) : Except Crash Text := do
  let fn := m.funcs.get f
  let text ← m.showFunc f
  if !fn.defined then
    return "declare " ++ (dropPrefix? "func " text).getD text ++ "\n"
  let insts := m.funcInsts f
  let calls := insts.countP fun i => (Routine.ofInst? (m.insts.get i)).isSome
  return "; @" ++ fn.name ++ ": " ++ ofNat fn.blocks.length ++ " blocks, " ++
    ofNat insts.length ++ " instructions, " ++ ofNat calls ++ " runtime calls\n" ++ text

/-! ### Modules -/

structure TypeEntry where
  label : Text
  machine : MachineType

structure Output where
  module : Text
  runtime : List Text
  types : List TypeEntry
  funcs : List Text

def lowerDecl (id : TypeId) : Lower TypeEntry := do
  let label := (← Lower.module).types.label id
  try
    let machine ← lowerType id
    return { label, machine }
  catch
    | .error e => throw (.error (.within ("lower type " ++ label) e))
    | .crash c => throw (.crash c)

def emitTraced (span : Span) (f : FuncId) : Lower Text := do
  let m ← Lower.module
  let inner ← beginSpan .function ("emit:@" ++ (m.funcs.get f).name) span.anchor
  match emitFunction m f with
  | .ok text =>
    endSpan inner []
    return text
  | .error c => throw (.crash c)

def lower (parent : UInt64) : Lower Output := do
  let module := (← Lower.module).name
  let span ← beginSpan .module ("lower:" ++ module) parent
  Lower.finally_ (do
    let runtime ← Lower.build declareRuntime
    let types ← (← Lower.module).typeDecls.mapM lowerDecl
    let funcs ← (← Lower.module).order.mapM (emitTraced span)
    return { module, runtime, types, funcs })
    (endSpan span [])

def showEntry (e : TypeEntry) : Text :=
  "%" ++ e.label ++ " = type " ++ e.machine.name ++ " ; size " ++ ofInt e.machine.size ++
    " align " ++ ofInt e.machine.align ++ "\n"

def onNewLine (t : Text) : Text := "\n" ++ t

def Output.render (o : Output) (target : Target) : Text :=
  let types : Text := if o.types.isEmpty then [] else "\n" ++ o.types.flatMap showEntry
  let runtime : Text :=
    if o.runtime.isEmpty then [] else "\n; runtime: " ++ join ", " o.runtime ++ "\n"
  "; module " ++ o.module ++ "\ntarget triple = " ++ target.triple.quote ++ "\n" ++
    types ++ runtime ++
    o.funcs.flatMap onNewLine

end Midlevel.Listing
