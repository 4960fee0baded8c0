import Midlevel.Service.Session.Basic

/-!
Steps on functions, globals, blocks and the cursor.
-/

namespace Midlevel.Service.Session

open Ir Build

def funcAnswer (j : Json) (f : FuncId) : Step Json := do
  naming j f
  let m ← module
  let fn := m.funcs.get f
  return .object [("fn", fn.name), ("type", ofLabel m fn.type), ("proto", !fn.defined)]

instance : Command (Build FuncId) := ⟨fun x _ j => building x (funcAnswer j)⟩

def attributesStep : Handler := fun j => do
  let f ← arg j "fn"
  if j.has "vis" then
    let n ← j.get "vis"
    let _ ← build (modifyFunc f ({ · with visibility := .ofCode n }))
  if j.has "inline" then
    let n ← j.get "inline"
    let _ ← build (modifyFunc f ({ · with inlining := .ofCode n }))
  if j.has "attrs" then
    let n := (← j.get "attrs" : UInt8).toNat
    let _ ← build (modifyFunc f ({ · with noReturn := n % 2 = 1, readNone := n / 2 % 2 = 1 }))
  let fn := (← module).funcs.get f
  return .object [("vis", fn.visibility.name), ("inline", fn.inlining.name),
    ("noreturn", fn.noReturn), ("readnone", fn.readNone)]

def functionSteps : List (Text × Handler) :=
  [("proto", command addFunction ["name", "type"]),
   ("unique_proto", command addUniqueFunction ["name", "type"]),
   ("get_or_insert", command getOrAddFunction ["name", "type"]),
   ("build_fn", command buildFunction ["name", "type", "params"]),
   ("build_unique_fn", command buildUniqueFunction ["name", "type", "params"]),
   ("get_or_build_fn", command getOrBuildFunction ["name", "type", "params"]),
   ("resolve", command resolve ["name"]),
   ("find_fn", fun j => do
      match (← module).funcNamed? (← j.get "name") with
      | some f => funcAnswer j f
      | none => return notFound),
   ("remove_fn", command removeFunction ["fn"]),
   ("define_body", command defineBody ["fn", "params"]),
   ("declare_type", command declareType ["type"]),
   ("global", fun j => do
      building (addGlobal (← j.get "name") (← arg j "type")) fun g => do
        naming j (Value.global g)
        let m ← module
        return .object [("type", ofLabel m (m.globals.get g).type),
          ("elem", ofLabel m (m.globals.get g).elem), ("globals", m.globals.ids.length)]),
   ("find_global", fun j => do
      let m ← module
      match m.globalNamed? (← j.get "name") with
      | none => return notFound
      | some g =>
        naming j (Value.global g)
        return .object [("found", .bool true), ("elem", ofLabel m (m.globals.get g).elem)]),
   ("attrs", attributesStep),
   ("functions", fun _ => do
      let m ← module
      return .object [("functions", .list (m.order.map fun f => ofText (m.funcs.get f).name))])]

/-! ### Blocks -/

def blockAnswer (j : Json) (b : BlockId) : Step Json := do
  naming j b
  let blk := (← module).blocks.get b
  return .object [("block", blk.name), ("params", blk.params.length),
    ("insts", blk.insts.length)]

def paramAnswer (j : Json) (p : ParamId) : Step Json := do
  naming j (Value.param p)
  let m ← module
  let x := m.params.get p
  return .object [("param", x.name), ("type", ofLabel m x.type), ("index", ofPosition m p),
    ("block", ofBlock m (some x.block))]

instance : Command (Build BlockId) := ⟨fun x _ j => building x (blockAnswer j)⟩

instance : Command (Build ParamId) := ⟨fun x _ j => building x (paramAnswer j)⟩

def blockSteps : List (Text × Handler) :=
  [("block", command appendBlock ["name", "params"]),
   ("entry", command entry ["fn"]),
   ("find_block", fun j => do
      match (← module).blockNamed? (← arg j "fn") (← j.get "name") with
      | some b => blockAnswer j b
      | none => return notFound),
   ("param", fun j => do
      let b ← arg j "block"
      if j.has "index" then
        paramAnswer j (← itemAt ((← module).blocks.get b).params (← j.get "index"))
      else building (blockParam b (← j.get "name")) (paramAnswer j)),
   ("fn_param", command funcParam ["fn", "name"]),
   ("fn_ref", fun j => do
      naming j (Value.func (← arg j "fn"))
      return done),
   ("rename_block", command (fun (b : BlockId) (name : Text) => modifyBlock b ({ · with name }))
     ["block", "name"]),
   ("set_name", command setName ["v", "name"])]

/-! ### The cursor -/

def cursorAnswer : Step Json :=
  building currentFunc fun f => do
    let m ← module
    let c := (← get).builder.cursor
    return .object [("fn", ofFunc m f), ("block", ofBlock m c.block),
      ("before", ofOpcode m c.before)]

def positioning (x : Build Unit) : Step Json := building x fun _ => cursorAnswer

def cursorSteps : List (Text × Handler) :=
  [("at_end", command (positioning ∘ positionAtEnd) ["block"]),
   ("before", command (positioning ∘ positionBefore) ["inst"]),
   ("clear", fun _ => positioning clearCursor),
   ("cursor", fun _ => cursorAnswer),
   ("save", fun j => do
      naming j (← get).builder.cursor
      cursorAnswer),
   ("restore", command (positioning ∘ setCursor) ["point"])]

end Midlevel.Service.Session
