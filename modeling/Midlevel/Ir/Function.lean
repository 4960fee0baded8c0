import Midlevel.Ir.Builder

/-!
Functions of a module: declaring, defining, resolving and removing them.
-/

namespace Midlevel.Ir.Build

def signature (f : FuncId) : Build Signature := do
  let m ← module
  match (m.typesOf f).bind (·.signature? (m.funcs.get f).type) with
  | some s => return s
  | none => crash (.notFunctionTyped (m.funcs.get f).name)

def resultType (f : FuncId) : Build TypeId := return (← signature f).result

def inFunc (name : Text) (e : Error) : Error := .within ("@" ++ name) e

def addFunction (name : Text) (type : TypeId) : Build FuncId := do
  let m ← module
  if m.types.kind type ≠ .fn then
    fail (inFunc name (.because .notFunction (m.types.label type)))
  if (m.funcNamed? name).isSome then
    fail (inFunc name (.cause .functionExists))
  let f := m.funcs.next
  modifyModule fun m =>
    { m with funcs := m.funcs.push { name, type, refName := name }, order := m.order ++ [f] }
  return f

/-- The name, with underscores added until no function has it; `tries` bounds their number. -/
def freeName (m : Module) (name : Text) : (tries : Nat) → Text
  | 0 => name
  | tries + 1 =>
    if (m.funcNamed? name).isSome then freeName m (name ++ "_") tries else name

def addUniqueFunction (name : Text) (type : TypeId) : Build FuncId := do
  let m ← module
  addFunction (freeName m name m.order.length) type

def getOrAddFunction (name : Text) (type : TypeId) : Build FuncId := do
  let m ← module
  match m.funcNamed? name with
  | none => addFunction name type
  | some f =>
    let have_ := (m.funcs.get f).type
    if have_ = type then return f
    else fail (inFunc name
      (.followed (.cause .functionExists) (" with type " ++ m.types.label have_)))

def declareFrom (name : Text) : List Provider → Build FuncId
  | [] => fail (inFunc name (.cause .unknownFunction))
  | p :: ps => do
    match p.declare? (← types) name with
    | none => declareFrom name ps
    | some (proto, types) =>
      modifyModule ({ · with types })
      let f ← addFunction name proto.type
      modifyFunc f ({ · with visibility := proto.visibility, readNone := proto.readNone })
      return f

def resolve (name : Text) : Build FuncId := do
  let m ← module
  match m.funcNamed? name with
  | some f => return f
  | none => declareFrom name m.providers

/-- Adds parameters to a block that no edge enters yet. -/
def addParams (b : BlockId) (params : List Member) : Build Unit :=
  params.forM fun p => modifyModule fun m =>
    let id := m.params.next
    { m with
      params := m.params.push { name := p.name, type := p.type, block := b }
      blocks := m.blocks.update b fun blk => { blk with params := blk.params ++ [id] } }

def newBlock (name : Text) (f : FuncId) (params : List Member) : Build BlockId := do
  let b := (← module).blocks.next
  modifyModule fun m => { m with blocks := m.blocks.push { name, func := some f } }
  addParams b params
  return b

/-- Gives a declared function its entry block. The entry edge passes every parameter to itself. -/
def defineBody (f : FuncId) (paramNames : List Text) : Build Unit := do
  let fn ← func f
  if fn.defined then fail (inFunc fn.name (.cause .hasBody))
  let sig ← signature f
  if paramNames.length ≠ sig.params.length then
    fail (inFunc fn.name (.because .operandCount (Text.ofNat paramNames.length ++
      " parameter names for " ++ Text.ofNat sig.params.length ++ " parameters")))
  let lowered ← onTypes (·.loweredParams fn.type)
  let names := if lowered.length = paramNames.length + 1 then Text.ofString "self" :: paramNames
    else paramNames
  let entry ← newBlock "entry" f (names.zipWith Member.mk lowered)
  let params := (← block entry).params
  let _ ← newEdge entry none none (params.map fun p => some (.param p))
  modifyFunc f ({ · with blocks := [entry], defined := true })

def entry (f : FuncId) : Build BlockId := do
  let fn ← func f
  match fn.defined, fn.blocks.head? with
  | true, some b => return b
  | _, _ => fail (inFunc fn.name (.cause .noFunctionBody))

def blockParam (b : BlockId) (name : Text) : Build ParamId := do
  let m ← module
  match (m.blocks.get b).params.find? fun p => (m.params.get p).name = name with
  | some p => return p
  | none =>
    fail (.within ("#" ++ (m.blocks.get b).name) (.because .noParamNamed (Text.quote name)))

def funcParam (f : FuncId) (name : Text) : Build ParamId := do
  blockParam (← entry f) name

def appliedArgs (b : BlockId) (param : Option ParamId) : Build (List (Option Value)) := do
  let m ← module
  let blk := m.blocks.get b
  match param.bind blk.params.idxOf? with
  | none =>
    let p ← demand param
    fail (.within ("#" ++ blk.name) (.because .noParamNamed (Text.quote (m.params.get p).name)))
  | some n =>
    blk.edges.mapM fun e => do
      let o ← demand (m.edges.get e).args[n]?
      return m.operandValue o

def eraseInst (i : InstId) : Build Unit := do
  dropAll i
  modifyInst i ({ · with block := none, erased := true })

/-- Takes a function that nothing outside its own body uses out of the module. -/
def removeFunction (f : FuncId) : Build Unit := do
  let fn ← func f
  if fn.removed then fail (inFunc fn.name (.cause .unknownFunction))
  let n := (← module).externalUses f
  if n ≠ 0 then
    fail (inFunc fn.name (.followed (.cause .functionInUse) (" (" ++ Text.ofNat n ++ ")")))
  fn.blocks.forM fun b => do
    (← block b).insts.forM eraseInst
    modifyBlock b ({ · with insts := [] })
  fn.blocks.forM fun b => do
    (← block b).edges.forM detachEdge
    modifyBlock b ({ · with func := none })
  modifyFunc f ({ · with blocks := [], removed := true })
  modifyModule fun m => { m with order := m.order.filter (· ≠ f) }

def declareType (t : TypeId) : Build Unit :=
  modifyModule fun m => if t ∈ m.typeDecls then m else { m with typeDecls := m.typeDecls ++ [t] }

def addGlobal (name : Text) (elem : TypeId) : Build GlobalId := do
  if elem = .none then fail (.within ("global " ++ name) (.cause .invalidType))
  if ((← module).globalNamed? name).isSome then
    fail (.within ("global " ++ name) (.cause .functionExists))
  let type ← onTypes (·.pointer elem)
  let g := (← module).globals.next
  modifyModule fun m => { m with globals := m.globals.push { name, type, elem } }
  return g

/-! ### Building functions -/

def defineAndEnter (f : FuncId) (paramNames : List Text) : Build FuncId := do
  defineBody f paramNames
  positionAtEnd (← demand (← func f).blocks.head?)
  return f

def buildFunction (name : Text) (type : TypeId) (paramNames : List Text) : Build FuncId := do
  defineAndEnter (← addFunction name type) paramNames

def buildUniqueFunction (name : Text) (type : TypeId) (paramNames : List Text) : Build FuncId := do
  defineAndEnter (← addUniqueFunction name type) paramNames

/-- The definition of that name; one that is missing is made, and only then the cursor moves. -/
def getOrBuildFunction (name : Text) (type : TypeId) (paramNames : List Text) : Build FuncId := do
  let f ← getOrAddFunction name type
  if (← func f).defined then return f else defineAndEnter f paramNames

def appendBlock (name : Text) (params : List Member) : Build BlockId := do
  match ← currentFunc with
  | none => fail (.within ("append block " ++ Text.quote name) (.cause .noInsertPoint))
  | some f =>
    let fn ← func f
    if !fn.defined then
      fail (inFunc fn.name (.within ("append block " ++ Text.quote name) (.cause .noFunctionBody)))
    match params.find? (·.type = .none) with
    | some p =>
      fail (.within ("#" ++ name)
        (.within ("parameter " ++ Text.quote p.name) (.cause .invalidType)))
    | none =>
      let b ← newBlock name f params
      modifyFunc f fun fn => { fn with blocks := fn.blocks ++ [b] }
      return b

end Midlevel.Ir.Build
