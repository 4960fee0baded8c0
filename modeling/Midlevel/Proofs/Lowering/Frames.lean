import Midlevel.Proofs.Ir.Framing

/-!
Lowering only ever builds: whatever relation building respects, every part of lowering respects. One
lemma for each function of the lowering, in the order in which they call each other.
-/

namespace Midlevel.Lowering

open Ir Midlevel.Tree Build

-- Instances are found for whole programs, which takes as many steps as they have.
set_option synthInstance.maxSize 1000000

variable {τ : Type} [Aspect τ] {R : τ → τ → Prop} {α : Type} (int bool : TypeId) (kind : BodyKind)
  (stmts : List Stmt)
  (b : BlockId) (self : TypeId) (d : FuncDecl) (v : Value) (temporary : Bool) (s : Vars)
    (a : Accessor) (name : Text)

/-! ### Types -/

section Types

variable [TypeFraming R]

instance (c : Cause) (detail : Text) : Frames R (because c detail : Build α) := reads_fail _

instance frames_reference (t : TypeId) : Frames R (onTypes (·.reference t)) :=
  frames_onTypes fun types => types.extends_reference t

instance (ts : List TypeId) : Frames R (onTypes (·.tuple ts)) :=
  frames_onTypes fun types => types.extends_tuple ts

instance (sig : Signature) : Frames R (onTypes (·.function sig)) :=
  frames_onTypes fun types => types.extends_function sig

instance (params : List TypeId) (result : TypeId) :
    Frames R (onTypes (·.freeFunction params result)) :=
  frames_onTypes fun types => types.extends_freeFunction params result

mutual

theorem frames_resolveType : (t : TypeRef) → Frames R (resolveType t)
  | ⟨code, name, elems⟩ => by
    have := frames_resolveTypes elems
    unfold resolveType
    split
    · infer_instance
    · split <;> infer_instance
    · refine .next fun types => ?_
      split <;> infer_instance
    · infer_instance
    · infer_instance

theorem frames_resolveTypes : (ts : List TypeRef) → Frames R (resolveTypes ts)
  | [] => by
    unfold resolveTypes
    infer_instance
  | t :: ts => by
    have := frames_resolveType t
    have := frames_resolveTypes ts
    unfold resolveTypes
    infer_instance

end

attribute [instance] frames_resolveType

@[instance] theorem reads_nominalType (t : TypeRef) : Frames R (nominalType t) := by
  refine .ite (g := .next fun types => ?_)
  split <;> infer_instance

@[instance] theorem frames_within {x : Build α} (place : Text) [hx : Frames R x] :
    Frames R (within place x) :=
  hx.tryCatch fun
    | .error _ => .throw _
    | .crash _ => .throw _

instance (params : List Tree.Param) : Frames R (resolveParams params) := .mapM

end Types

/-! ### Reading the site -/

section Reading

variable [IsPreorder τ R]

namespace Lower

instance : types.Frames R := .of_unchanged fun _ _ => rfl

instance frames_module : module.Frames R := .of_unchanged fun _ _ => rfl

instance : (typeOf v).Frames R := .of_unchanged fun _ _ => rfl

instance : (get : Lower Site).Frames R := .of_unchanged fun _ _ => rfl

instance frames_read : (read : Lower Env).Frames R := .of_unchanged fun _ _ => rfl

instance (fields : Site → List (Nat × BlockId × Value)) :
    (modify fun s => { s with fields := fields s } : Lower PUnit).Frames R :=
  .of_unchanged fun _ _ => rfl

instance (e : Error) : (fail e : Lower α).Frames R := .throw _

instance : (missing : Lower α).Frames R := .throw _

instance : Midlevel.Frames R currentBlock := .of_unchanged fun _ => rfl

instance : terminated.Frames R := by
  unfold terminated
  refine .next fun b => ?_
  cases b <;> infer_instance

end Lower

instance : (accessorFor v temporary).Frames R := .next inferInstance

instance (address : Value) : (slotAt address).Frames R := .next inferInstance

instance : a.type.Frames R := by
  cases a <;> unfold Accessor.type <;> infer_instance

instance (n k : Nat) : (checkArity n k).Frames R := by
  unfold checkArity
  infer_instance

end Reading

instance [TypeFraming R] (t : TypeId) : (loweredParams t).Frames R :=
  .build (h := frames_onTypes fun types => types.extends_loweredParams t)

section Expressions

variable [ExprFraming R] (e : Expr) (c : Change)

/-! ### Accessors -/

instance (v : Value) : Midlevel.Frames R (c.ofObject v) := by
  cases c <;> unfold Change.ofObject <;> infer_instance

instance (v : Value) : Midlevel.Frames R (c.ofBox v) := by
  cases c <;> unfold Change.ofBox <;> infer_instance

@[instance] theorem frames_countBoxed (v : Value) : (countBoxed c v).Frames R := by
  refine .next fun m => ?_
  split <;> infer_instance

instance (a : Accessor) : (countRegister c a).Frames R := by
  cases a <;> unfold countRegister <;> infer_instance

@[instance] theorem frames_baseOf (reference : Value) : (baseOf reference).Frames R := by
  refine .next fun types => .next fun t => ?_
  split <;> infer_instance

instance (base : Value) (name : Text) : (fieldAddress base name).Frames R := .next inferInstance

namespace Place

variable (p : Place)

@[instance] theorem frames_locate : p.locate.Frames R := by
  cases p with
  | slot address elem => exact .pure _
  | field self index name type =>
    refine .next fun here => .next fun s => ?_
    dsimp only
    split
    · infer_instance
    · cases here <;> infer_instance

instance : p.address.Frames R := .next inferInstance

instance frames_read : p.read.Frames R := .next inferInstance

instance (v : Value) : (p.write v).Frames R := .next inferInstance

instance frames_count (c : Change) : (p.count c).Frames R := .next inferInstance

end Place

namespace Accessor

variable (expected : TypeId)

instance frames_read : a.read.Frames R := by
  cases a <;> unfold read <;> infer_instance

instance frames_count : (a.count c).Frames R := by
  cases a <;> unfold count <;> infer_instance

instance : (a.readAs expected).Frames R := .next inferInstance

instance : (a.retained expected).Frames R := .next inferInstance

instance frames_reference : a.reference?.Frames R := by
  cases a <;> unfold reference? <;> infer_instance

instance : a.spilled.Frames R := by
  unfold spilled
  refine .next fun r => ?_
  cases r <;> infer_instance

instance : a.base?.Frames R := by
  unfold base?
  refine .next fun r => ?_
  cases r <;> infer_instance

end Accessor

instance : (boxedProperty a name).Frames R := .next inferInstance

/-! ### Expressions -/

instance {x : Build InstId} [Midlevel.Frames R x] : (result x temporary).Frames R :=
  .next inferInstance

instance (type : TypeRef) (value : Int64) : (emitInt type value).Frames R := .next inferInstance

instance (type : TypeRef) (value : Bool) : (emitBool type value).Frames R := .next inferInstance

@[instance] theorem frames_emitVarRef : (emitVarRef s name).Frames R := by
  unfold emitVarRef
  split <;> infer_instance

instance : (receiver a).Frames R := .next inferInstance

instance : (emitField a name).Frames R := by
  unfold emitField
  refine .next fun types => .next fun t => .ite (g := .next fun base => ?_)
  cases base <;> infer_instance

instance (struct : TypeId) (fields : List Member) (values : List Value) :
    (emitInstance struct fields values).Frames R := .next inferInstance

mutual

theorem frames_emitExpr (s : Vars) : (e : Expr) → (emitExpr s e).Frames R
  | ⟨code, type, int, bool, text, name, callee, object, args, index⟩ => by
    have := frames_emitValues s args
    have := frames_emitArgs s args
    unfold emitExpr
    split
    · infer_instance
    · infer_instance
    · infer_instance
    · infer_instance
    · split
      · split <;> infer_instance
      · infer_instance
    · split
      · infer_instance
      · next o =>
        have := frames_emitExpr s o
        infer_instance
    · split
      · infer_instance
      · next o =>
        have := frames_emitExpr s o
        infer_instance
    · infer_instance
    · split
      · infer_instance
      · next o =>
        have := frames_emitExpr s o
        infer_instance
    · infer_instance
    · infer_instance

theorem frames_emitValues (s : Vars) : (es : List Expr) → (emitValues s es).Frames R
  | [] => by
    unfold emitValues
    infer_instance
  | e :: es => by
    have := frames_emitExpr s e
    have := frames_emitValues s es
    unfold emitValues
    infer_instance

theorem frames_emitArgs (s : Vars) : (es : List Expr) → (ts : List TypeId) →
    (emitArgs s es ts).Frames R
  | e :: es, t :: ts => by
    have := frames_emitExpr s e
    have := frames_emitArgs s es ts
    unfold emitArgs
    infer_instance
  | [], _ => by
    unfold emitArgs
    infer_instance
  | _ :: _, [] => by
    unfold emitArgs
    infer_instance

end

attribute [instance] frames_emitExpr frames_emitArgs

instance : (emitCondition s e).Frames R := .next inferInstance

instance : (emitBound s e).Frames R := .next inferInstance

theorem frames_emitPlace (s : Vars) : (e : Expr) → (emitPlace s e).Frames R
  | ⟨code, type, int, bool, text, name, callee, object, args, index⟩ => by
    unfold emitPlace
    split
    · split <;> infer_instance
    · split
      · infer_instance
      · next o =>
        refine .next fun a => .next fun types => .next fun t => .ite (g := .next fun base => ?_)
        cases base <;> infer_instance
    · split
      · infer_instance
      · next o =>
        have := frames_emitPlace s o
        infer_instance
    · infer_instance

attribute [instance] frames_emitPlace

/-! ### Simple statements -/

instance frames_emit {x : Build InstId} [Midlevel.Frames R x] : (Lowering.emit x).Frames R := by
  unfold Lowering.emit
  infer_instance

instance frames_releaseAll (owned : List Accessor) : (releaseAll owned).Frames R := .forM

instance : (leave s).Frames R := frames_releaseAll _

@[instance] theorem frames_emitVar (st : Stmt) : (emitVar s st).Frames R := by
  unfold emitVar
  split
  · infer_instance
  · cases st.type <;> infer_instance

instance (target value : Expr) : (emitAssign s target value).Frames R := .next inferInstance

instance : (emitDiscarded s e).Frames R := .next inferInstance

end Expressions

variable {R : Ir.Module → Ir.Module → Prop} [Framing R]

instance (e : Option Expr) : (emitReturn s e).Frames R := by
  cases e <;> unfold emitReturn <;> infer_instance

instance : (moveToEnd b).Frames R := by
  unfold moveToEnd moveBlockAfter
  infer_instance

/-! ### Statements with blocks -/

instance (args : List Value) : (branchTo b args).Frames R := frames_emit

instance (cond : Value) (onTrue onFalse : BlockId) : (branchOn cond onTrue onFalse).Frames R :=
  frames_emit

instance : (newBlock name).Frames R := .build

instance : (goTo b).Frames R := .build

mutual

theorem frames_emitStmts (s : Vars) : (sts : List Stmt) → (emitStmts s sts).Frames R
  | [] => by
    unfold emitStmts
    infer_instance
  | st :: sts => by
    have := frames_emitStmt s st
    have (s : Vars) := frames_emitStmts s sts
    unfold emitStmts
    infer_instance

theorem frames_emitStmt (s : Vars) : (st : Stmt) → (emitStmt s st).Frames R
  | ⟨code, name, mutable, type, target, value, branches, cond, lower, upper, body⟩ => by
    have (s : Vars) := frames_emitStmts s body
    have (exit : BlockId) := frames_emitArms s exit 0 branches
    unfold emitStmt
    split
    · infer_instance
    · split <;> infer_instance
    · split <;> infer_instance
    · infer_instance
    · infer_instance
    · split <;> infer_instance
    · split <;> infer_instance
    · infer_instance
    · infer_instance

theorem frames_emitArms (s : Vars) (exit : BlockId) (n : Nat) : (bs : List Branch) →
    (emitArms s exit n bs).Frames R
  | [] => by
    unfold emitArms
    infer_instance
  | ⟨none, body⟩ :: _ => by
    have := frames_emitStmts s.enter body
    unfold emitArms
    infer_instance
  | ⟨some c, body⟩ :: bs => by
    have := frames_emitStmts s.enter body
    have := frames_emitArms s exit (n + 1) bs
    unfold emitArms
    cases bs <;> infer_instance

end

attribute [instance] frames_emitStmts

/-! ### Bodies -/

instance (p : Value) : (selfParam p).Frames R := .next inferInstance

instance (struct : TypeId) : (allocSelf struct).Frames R := .next inferInstance

@[instance] theorem frames_fieldBindings (self : Accessor) (struct : TypeId) :
    (fieldBindings self struct).Frames R := by
  refine .next fun _ => ?_
  split <;> infer_instance

@[instance] theorem frames_bindSelf (p : Pending) (params : List Value) :
    (bindSelf p params).Frames R := by
  unfold bindSelf
  split
  · infer_instance
  · infer_instance
  · cases params <;> infer_instance
  · cases params <;> infer_instance

@[instance] theorem frames_finishInit : (finishInit s).Frames R := by
  unfold finishInit
  split <;> infer_instance

instance : (finishBody kind s).Frames R := .next inferInstance

instance (p : Pending) : (emitBody p).Frames R := .next inferInstance

instance : (emitMain stmts).Frames R := .next inferInstance

/-! ### Declarations of functions -/

instance (type self : TypeId) : Midlevel.Frames R (declare kind d type self) := by
  unfold declare
  refine .next fun f => (frames_modifyFunc f fun _ => ?_).bind inferInstance
  exact ⟨rfl, rfl, rfl, id⟩

instance : Midlevel.Frames R (declareFree d) := .next inferInstance

instance : Midlevel.Frames R (declareMethod self d) := .next inferInstance

instance (result : TypeId) (d : FuncDecl) : Midlevel.Frames R (declareInit self result d) :=
  .next inferInstance

instance : Midlevel.Frames R (declareDeinit self d) := .next inferInstance

instance (d : TypeDecl) : Midlevel.Frames R (declareStructFunctions d) := by
  unfold declareStructFunctions
  infer_instance

instance (m : Tree.Module) : Midlevel.Frames R (declareFunctions m) := .next inferInstance

/-! ### Modules -/

instance frames_bareBody (p : Pending) : Midlevel.Frames R (bareBody int bool p) :=
  .next inferInstance

instance : Midlevel.Frames R (bareMain int bool stmts) := by
  unfold bareMain
  infer_instance

end Midlevel.Lowering
