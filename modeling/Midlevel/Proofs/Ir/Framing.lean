import Midlevel.Proofs.Ir.Outline

/-!
What building code can do to the outline of a module: types are added, instructions are added, and
functions are added, annotated and defined. A relation that allows each of these by itself is
respected by every constructor and every operation on functions but their removal.
-/

namespace Midlevel.Ir

open Aspect

variable {s : Builder} {x : Inst}

/-- A change of a function that leaves it the same function and takes no body away. -/
def Func.Refines (g : Func → Func) : Prop :=
  ∀ x : Func, (g x).name = x.name ∧ (g x).type = x.type ∧ (g x).removed = x.removed ∧
    (x.defined = true → (g x).defined = true)

/-- A relation that naming types respects. -/
class TypeFraming {τ : Type} [Aspect τ] (R : τ → τ → Prop) : Prop extends IsPreorder τ R where
  types : ∀ (s : Builder) t, s.module.types.Extends t →
    R (of s) (of { s with module := s.module.withTypes t })

/-- A relation that adding instructions at the cursor respects, as long as they do not end the
block. -/
class EmitFraming {τ : Type} [Aspect τ] (R : τ → τ → Prop) : Prop extends TypeFraming R where
  emit : ∀ (s : Builder) x vs, x.op.isTerminator = false →
    (s.module.types.Rooted → x.Proper s.module.types) →
    wp (Build.emit x vs) (fun _ t => R (of s) (of t)) (fun _ t => R (of s) (of t)) s
  name : ∀ (s : Builder) i name,
    R (of s) (of { s with module := s.module.setValueName name (.inst i) })

class DeclFraming {τ : Type} [Aspect τ] (R : τ → τ → Prop) : Prop extends TypeFraming R where
  func : ∀ (s : Builder) x, s.module.funcNamed? x.name = none → R (of s) (of { s with
    module := { s.module with funcs := s.module.funcs.push x,
                              order := s.module.order ++ [s.module.funcs.next] } })
  refine_ : ∀ (s : Builder) f g, Func.Refines g →
    R (of s) (of { s with module := s.module.updateFunc f g })

/-- A relation that lowering expressions respects, which may declare functions of the library. -/
class ExprFraming {τ : Type} [Aspect τ] (R : τ → τ → Prop) :
    Prop extends EmitFraming R, DeclFraming R

class OutlineFraming (R : Module → Module → Prop) : Prop extends TypeFraming R, QuietFraming R

class CodeFraming (R : Module → Module → Prop) : Prop extends OutlineFraming R where
  inst : ∀ (m : Module) x, (m.types.Rooted → x.Proper m.types) →
    R m { m with insts := m.insts.push x }

class Framing (R : Module → Module → Prop) : Prop extends CodeFraming R where
  func : ∀ (m : Module) x, m.funcNamed? x.name = none →
    R m { m with funcs := m.funcs.push x, order := m.order ++ [m.funcs.next] }
  refine_ : ∀ (m : Module) f g, Func.Refines g → R m (m.updateFunc f g)

set_option synthInstance.maxSize 10000

namespace Build

variable {α β τ : Type} [Aspect τ] (f : FuncId) (name : Text) (type : TypeId) (names : List Text)

section Reading

variable {R : τ → τ → Prop} [IsPreorder τ R] (op : Opcode)

theorem wp_then {x : Build α} {f : α → Build β}
    (hx : wp x (fun _ t => R (of s) (of t)) (fun _ t => R (of s) (of t)) s)
    (hf : ∀ a, Frames R (f a)) :
    wp (x >>= f) (fun _ t => R (of s) (of t)) (fun _ t => R (of s) (of t)) s := by
  exact wp_seq hx
    fun a _ ht => wp_mono (frames_iff_wp.mp (hf a) _) (fun _ _ hu => trans_of R ht hu) fun _ _ hu =>
      trans_of R ht hu

instance (n : Nat) (v : Option Value) (want : TypeId) : Frames R (checkOperand op n v want) :=
  frames_iff_wp.mpr fun _ => wp_checkOperand (fun _ _ => refl_of R _) fun _ _ _ => refl_of R _

instance (target : Option BlockId) : Frames R (checkTarget op target) :=
  frames_iff_wp.mpr fun _ => wp_checkTarget (fun _ _ => refl_of R _) fun _ _ _ _ => refl_of R _

instance (b : BlockId) (args : Args) : Frames R (checkBranchArgs op b args) :=
  frames_iff_wp.mpr fun _ => wp_checkBranchArgs (fun _ _ => refl_of R _) fun _ => refl_of R _

@[instance] theorem reads_signature : Frames R (signature f) := by
  refine .next fun m => ?_
  split <;> infer_instance

instance reads_resultType : Frames R (resultType f) := .next inferInstance

end Reading

section Code

variable {R : Module → Module → Prop} [CodeFraming R]

theorem wp_newInst_within (vs : Args) (hx : s.module.types.Rooted → x.Proper s.module.types) :
    wp (newInst x vs) (fun _ t => R s.module t.module) (fun _ t => R s.module t.module) s := by
  unfold newInst
  rw [wp_bind, wp_module]
  refine wp_then (R := R) (CodeFraming.inst s.module x hx) fun _ => Frames.bind ?_ inferInstance
  exact ⟨fun t => QuietFraming.quiet _ _ (outline_newOperands t.module vs (some _))⟩

theorem wp_emit_within (vs : Args) (hx : s.module.types.Rooted → x.Proper s.module.types) :
    wp (emit x vs) (fun _ t => R s.module t.module) (fun _ t => R s.module t.module) s := by
  unfold emit
  rw [wp_bind]
  refine wp_checkAttach (fun _ _ => refl_of R _) fun b _ => ?_
  exact wp_then (R := R) (wp_newInst_within vs hx) inferInstance

instance (target : Option BlockId) (args : Args) : Frames R (br target args) := by
  have (b : BlockId) : Frames R (newInst { op := .br, type := .void } []) :=
    frames_iff_wp.mpr fun _ => wp_newInst_within _ fun _ => trivial
  unfold br
  infer_instance

instance (cond : Option Value) (onTrue : Option BlockId) (trueArgs : Args)
    (onFalse : Option BlockId) (falseArgs : Args) :
    Frames R (condBr cond onTrue trueArgs onFalse falseArgs) := by
  have (c : Value) : Frames R (newInst { op := .condBr, type := .void } [some c]) :=
    frames_iff_wp.mpr fun _ => wp_newInst_within _ fun _ => trivial
  unfold condBr
  infer_instance

instance : EmitFraming R where
  types := TypeFraming.types
  emit _ _ vs _ hx := wp_emit_within vs hx
  name s i _ := QuietFraming.quiet _ _ (outline_updateInst s.module i fun _ => rfl)

instance (value : Option Value) : Frames R (ret value) := by
  have (vs : Args) : Frames R (emit { op := .ret, type := .void } vs) :=
    frames_iff_wp.mpr fun _ => wp_emit_within _ fun _ => trivial
  unfold ret
  refine .next fun f => ?_
  cases f <;> cases value <;> infer_instance

instance : Frames R trap := frames_iff_wp.mpr fun _ => wp_emit_within _ fun _ => trivial

end Code

/-! ### Constructors -/

variable {R : τ → τ → Prop}

theorem frames_onTypes [TypeFraming R] {f : TypeTable → α × TypeTable}
    (h : ∀ t : TypeTable, t.Extends (f t).2) : Frames R (onTypes f) :=
  ⟨fun s => TypeFraming.types s _ (h s.module.types)⟩

instance Frames.attempt {x : Build α} [h : Frames R x] : Frames R (attempt x) := by
  rw [frames_iff_wp] at h ⊢
  intro s
  rw [wp_attempt]
  refine wp_mono (h s) (fun _ _ ht => ht) fun f _ ht => ?_
  cases f <;> exact ht

section Emission

variable [EmitFraming R]

instance (priority := low) {l : Line} {x : Build InstId} [hx : Constructor l x] : Frames R x := by
  refine frames_iff_wp.mpr fun s => hx.wp (fun _ types h => TypeFraming.types s types h)
    fun types y hy => ?_
  have htypes : R (of s) (of { s with module := s.module.withTypes types }) :=
    TypeFraming.types s types hy.grows
  exact wp_mono (EmitFraming.emit _ _ _ hy.simple.op hy.proper) (fun _ _ ht => trans_of R htypes ht)
    fun _ _ ht => trans_of R htypes ht

instance (i : InstId) (name : Text) : Frames R (setName (.inst i) name) :=
  ⟨fun s => EmitFraming.name s i name⟩

end Emission

/-! ### Functions -/

instance {R : Module → Module → Prop} [Framing R] : ExprFraming R where
  func s := Framing.func s.module
  refine_ s := Framing.refine_ s.module

section Declaring

variable [DeclFraming R]

theorem frames_modifyFunc {g : Func → Func} (hg : Func.Refines g) : Frames R (modifyFunc f g) :=
  ⟨fun s => DeclFraming.refine_ s f g hg⟩

/-- A change of a function that is not about its name, its type and its body. -/
instance (uses : Func → List OperandId) (blocks : Func → List BlockId)
    (refName : Func → Text) (visibility : Func → Visibility) (readNone : Func → Bool) :
    Frames R (modifyFunc f fun x => { x with
      uses := uses x, blocks :=
  blocks x, refName := refName x, visibility := visibility x, readNone := readNone x }) :=
  frames_modifyFunc f fun _ => ⟨rfl, rfl, rfl, id⟩

instance frames_addFunction : Frames R (addFunction name type) := by
  refine frames_iff_wp.mpr fun s => ?_
  unfold addFunction
  rw [wp_bind, wp_module, wp_ite]
  refine ⟨fun _ => refl_of R _, fun _ => ?_⟩
  rw [wp_ite]
  refine ⟨fun _ => refl_of R _, fun hname => ?_⟩
  exact DeclFraming.func s { name, type, refName := name } (by simpa using hname)

instance : Frames R (getOrAddFunction name type) := by
  unfold getOrAddFunction
  refine .next fun m => ?_
  cases m.funcNamed? name <;> infer_instance

instance (ps : List Provider) : Frames R (declareFrom name ps) := by
  induction ps with
  | nil => exact reads_fail _
  | cons p ps ih =>
    refine frames_iff_wp.mpr fun s => ?_
    unfold declareFrom
    rw [wp_bind, wp_types]
    cases hd : p.declare? s.module.types name with
    | none => exact frames_iff_wp.mp ih s
    | some r =>
      obtain ⟨proto, types⟩ := r
      exact wp_then (TypeFraming.types _ _ (TypeTable.extends_declare _ hd)) inferInstance

instance : Frames R (resolve name) := by
  unfold resolve
  refine .next fun m => ?_
  cases m.funcNamed? name <;> infer_instance

end Declaring

variable {R : Module → Module → Prop} [Framing R]

instance : Frames R (defineBody f names) := by
  have (type : TypeId) : Frames R (onTypes (·.loweredParams type)) := frames_onTypes fun t =>
    t.extends_loweredParams _
  have (b : BlockId) : Frames R (modifyFunc f fun x => { x with blocks := [b], defined := true }) :=
    frames_modifyFunc f fun _ => ⟨rfl, rfl, rfl, fun _ => rfl⟩
  unfold defineBody
  infer_instance

instance : Frames R (defineAndEnter f names) := .next inferInstance

instance : Frames R (buildFunction name type names):= .next inferInstance

instance : Frames R (getOrBuildFunction name type names):= .next inferInstance

end Build

end Midlevel.Ir
