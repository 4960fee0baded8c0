import Midlevel.Lowering.Expr

/-!
Lowering of statements. A scope releases what it owns when control leaves it; a return releases
everything the function owns but the result.
-/

namespace Midlevel.Lowering

open Ir Midlevel.Tree Lower Build

def emit (x : Build InstId) : Lower Unit := discard (build x)

def releaseAll (owned : List Accessor) : Lower Unit := owned.forM (·.count .release)

def leave (s : Vars) : Lower Unit := releaseAll (s.inner.owned none)

def moveToEnd (b : BlockId) : Lower Unit := build do
  let f ← demand (← block b).func
  let last ← demand (← func f).blocks.getLast?
  if last ≠ b then moveBlockAfter (some b) (some last)

def emitVar (s : Vars) (st : Stmt) : Lower Vars := do
  match st.value with
  | none => missing
  | some e =>
    let a ← emitExpr s e
    let declared ←
      match st.type with
      | none => a.type
      | some t => build (resolveType t)
    let v ← a.retained declared
    if st.mutable then
      let slot ← build (alloc declared)
      build (setName (.inst slot) st.name)
      emit (store (some v) (some (.inst slot)))
      return s.insert { name := st.name, access := .place (← slotAt (.inst slot)) }
    else
      let named ← build (named (some v) st.name)
      return s.insert { name := st.name, access := ← accessorFor (.inst named) false }

def namesField (s : Vars) (e : Expr) : Bool :=
  match e.kind with
  | .field => e.object.any fun o => o.kind = .var && o.name == Text.ofString "self"
  | .var =>
    match s.find? e.name with
    | some (.place (.field _ _ _ _)) => true
    | _ => false
  | _ => false

/-- What was there before is released, unless it is a field that an initialiser fills. -/
def emitAssign (s : Vars) (target value : Expr) : Lower Unit := do
  let p ← emitPlace s target
  let a ← emitExpr s value
  let v ← a.retained p.type
  if !((← read).initialising && namesField s target) then p.count .release
  p.write v

/-- The result is handed back without a reference: a variable that is returned gives up its own. -/
def emitReturn (s : Vars) : Option Expr → Lower Unit
  | none => do
    releaseAll (s.owned none)
    emit (ret none)
  | some e => do
    let a ← emitExpr s e
    releaseAll (s.owned (some a))
    if s.owns a then a.count .releaseUnowned
    let v ← a.readAs (← build (resultType (← read).func))
    emit (ret (some v))

/-- A result that nobody wants is freed by retaining and releasing it. -/
def emitDiscarded (s : Vars) (e : Expr) : Lower Unit := do
  let a ← emitExpr s e
  if a.temporary then
    a.count .retain
    a.count .release

def branchTo (b : BlockId) (args : List Value) : Lower Unit :=
  emit (br (some b) (args.map some))

def branchOn (cond : Value) (onTrue onFalse : BlockId) : Lower Unit :=
  emit (condBr (some cond) (some onTrue) [] (some onFalse) [])

def newBlock (name : Text) : Lower BlockId := build (appendBlock name [])

def goTo (b : BlockId) : Lower Unit := build (positionAtEnd b)

def nextArmName (n : Nat) (next : Branch) : Text :=
  if next.cond.isNone then "else." ++ Text.ofNat (n + 1) else "if.fail." ++ Text.ofNat n

mutual

/-- Statements in order; those behind a terminator are never reached and left out. -/
def emitStmts (s : Vars) : List Stmt → Lower Vars
  | [] => return s
  | st :: sts => do
    if ← terminated then return s
    let s ← naming (st.kind.name ++ " statement") (emitStmt s st)
    emitStmts s sts

/-- One statement. The scope comes back with the variable it declares, if it declares one. -/
def emitStmt (s : Vars) : Stmt → Lower Vars
  | ⟨code, name, mutable, type, target, value, branches, cond, lower, upper, body⟩ => do
    match StmtKind.ofCode code with
    | .var => emitVar s ⟨code, name, mutable, type, target, value, [], cond, lower, upper, []⟩
    | .assign =>
      match target, value with
      | some t, some v =>
        emitAssign s t v
        return s
      | _, _ => missing
    | .expr =>
      match value with
      | none => missing
      | some e =>
        emitDiscarded s e
        return s
    | .ret =>
      emitReturn s value
      return s
    | .cond =>
      let exit ← newBlock "if.exit"
      emitArms s exit 0 branches
      if (← build (block exit)).edges.isEmpty then
        build (eraseBlocks [some exit])
        build clearCursor
      else
        moveToEnd exit
        goTo exit
      return s
    | .while =>
      match cond with
      | none => missing
      | some c =>
        let test ← newBlock "while.cond"
        let loop ← newBlock "while.body"
        let exit ← newBlock "while.exit"
        branchTo test []
        goTo test
        let c ← emitCondition s c
        branchOn c loop exit
        goTo loop
        let inner ← emitStmts s.enter body
        if !(← terminated) then
          leave inner
          branchTo test []
        moveToEnd exit
        goTo exit
        return s
    | .for =>
      match lower, upper with
      | some lo, some hi =>
        let start ← emitBound s lo
        let stop ← emitBound s hi
        let header ← build (appendBlock "for.header" [{ name, type := .int64 }])
        let loop ← newBlock "for.body"
        let exit ← newBlock "for.exit"
        branchTo header [start]
        goTo header
        let i ← build do
          return Value.param (← demand (← block header).params.head?)
        let below ← build (primitive .iLt [some i, some stop])
        branchOn (.inst below) loop exit
        goTo loop
        let wrapped ← build (struct (← read).int [some i])
        let s' := s.enter.insert { name, access := ← accessorFor (.inst wrapped) false }
        let inner ← emitStmts s' body
        if !(← terminated) then
          leave inner
          let one ← build (intLiteral 1 .int64)
          let next ← build (primitive .iAddUnchecked [some i, some (.inst one)])
          branchTo header [.inst next]
        moveToEnd exit
        goTo exit
        return s
      | _, _ => missing
    | .block =>
      let inner ← emitStmts s.enter body
      if !(← terminated) then leave inner
      return s
    | .invalid => fail (.because .unsupported ("statement kind " ++ Text.ofNat code.toNat))

/-- The arms of a chain from number `n` on. An arm without a condition ends the chain, and is
lowered where the condition before it fails. -/
def emitArms (s : Vars) (exit : BlockId) (n : Nat) : List Branch → Lower Unit
  | [] => pure ()
  | ⟨none, body⟩ :: _ => do
    let inner ← emitStmts s.enter body
    if !(← terminated) then
      leave inner
      branchTo exit []
  | ⟨some c, body⟩ :: bs => do
    let cond ← emitCondition s c
    let taken ← newBlock ("if." ++ Text.ofNat n)
    let next ←
      match bs with
      | [] => pure exit
      | b :: _ => newBlock (nextArmName n b)
    branchOn cond taken next
    goTo taken
    let inner ← emitStmts s.enter body
    if !(← terminated) then
      leave inner
      branchTo exit []
    goTo next
    emitArms s exit (n + 1) bs

end

end Midlevel.Lowering
