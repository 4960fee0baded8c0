import Midlevel.Proofs.Ir.Built
import Midlevel.Proofs.Ir.Framing

/-!
The passes that work on one function at a time only build and edit code: whatever relation building
code respects, they respect. In particular they leave the functions of the module alone.
-/

namespace Midlevel.Pass

open Ir Build

-- Instances are found for whole programs, which takes as many steps as they have.
set_option synthInstance.maxSize 10000

variable {R : Module → Module → Prop} [CodeFraming R] {α : Type} (b : BlockId)
  (i : Option InstId) (f : FuncId)

/-! ### Parts of a pass -/

namespace Transform

instance frames_module {R : Module → Module → Prop} [IsPreorder Module R] : Frames R module :=
  .of_unchanged fun _ => rfl

instance frames_count (change : Stats → Stats) : Frames R (count change) :=
  .of_unchanged fun _ => rfl

instance (o : Option α) : Frames R (demand o) := by
  cases o with
  | none => exact .throw _
  | some a => exact .pure a

end Transform

/-! ### Library calls -/

instance (doing : Text) (i : Option InstId) : Frames R (attached doing i) :=
  frames_iff_wp.mpr fun _ => wp_attached (fun _ => refl_of R _) fun _ _ _ _ => refl_of R _

instance (i : InstId) (outcome : Except Error Unit) (built : List InstId) :
    Frames R (tailFor i outcome built) :=
  frames_iff_wp.mpr fun _ => wp_tailFor fun _ _ => refl_of R _

instance (journal : Builder → Option (List InstId)) :
    Frames R (modify fun s => { s with journal := journal s } : Build PUnit) :=
  reads_modify (by intro _; rfl)

instance : Frames R (beginExplosion i) := .next inferInstance

instance (x : Explosion) (outcome : Except Error Unit) : Frames R (endExplosion x outcome) := by
  unfold endExplosion
  refine .next fun s => .next fun _ => .next fun r => ?_
  cases r <;> infer_instance

instance {x : Build Unit} [Frames R x] : Frames R (explode i x) := .next inferInstance

instance (name : Text) {x : Build InstId} [Frames R x] : Frames R (buildNamed name x) :=
  .next inferInstance

instance (cond : Option Value) : Frames R (condFail cond) := by
  unfold condFail
  infer_instance

instance (call : InstId) (op : LibraryOperator) : Frames R (expandOperator call op) :=
  .next inferInstance

instance (i : InstId) (op : LibraryOperator) : Frames R (inlineCall i op) := by
  unfold inlineCall
  refine .next fun r => ?_
  cases r <;> infer_instance

@[instance] theorem frames_inlineLibraryCalls : Frames R (inlineLibraryCalls f) := by
  refine .next fun m => .forM (h := fun i => .next fun m => ?_)
  split <;> infer_instance

/-! ### Dead code -/

instance (steps : Nat) (work : List InstId) : Frames R (eraseDead steps work) := by
  induction steps generalizing work with
  | zero => exact .pure _
  | succ steps ih =>
    cases work with
    | nil => exact .pure _
    | cons i work =>
      unfold eraseDead
      infer_instance

instance frames_eliminateDeadCode : Frames R (eliminateDeadCode f) := .next inferInstance

/-! ### Control flow -/

instance (branch : InstId) (cond : Option Value) (exits : List Exit) :
    Frames R (rebuildBranch branch cond exits) := by
  unfold rebuildBranch
  cases cond <;> infer_instance

@[instance] theorem frames_foldConstantBranch : Frames R (foldConstantBranch b) := by
  refine .next fun m => ?_
  split <;> infer_instance

instance : Frames R (foldConstantBranches f) := .next inferInstance

@[instance] theorem frames_redirectInto (forward : Exit) (steps : Nat) :
    Frames R (redirectInto b forward steps) := by
  induction steps with
  | zero => exact .pure _
  | succ steps ih =>
    refine .next fun m => ?_
    split
    · exact .pure _
    · split <;> infer_instance

@[instance] theorem frames_bypass : Frames R (bypass b) := by
  refine .next fun m => ?_
  split <;> infer_instance

instance : Frames R (bypassForwardingBlocks f) := .next inferInstance

@[instance] theorem reads_entry : Frames R (entry f) := by
  refine .next fun fn => ?_
  split <;> infer_instance

@[instance] theorem frames_removeUnreachable : Frames R (removeUnreachable f) := by
  refine .next fun entry => .next fun m => ?_
  split <;> infer_instance

@[instance] theorem frames_mergeInto (steps : Nat) : Frames R (mergeInto b steps) := by
  induction steps with
  | zero => exact .pure _
  | succ steps ih =>
    refine .next fun m => ?_
    split <;> infer_instance

@[instance] theorem frames_mergeFrom (position steps : Nat) :
    Frames R (mergeFrom f position steps) := by
  induction steps generalizing position with
  | zero => exact .pure _
  | succ steps ih =>
    refine .next fun m => ?_
    dsimp only
    split <;> infer_instance

instance frames_simplifyControlFlow : Frames R (simplifyControlFlow f) := by
  unfold simplifyControlFlow mergeStraightLines
  infer_instance

theorem frames_standard {p : FunctionPass} (hp : p ∈ Manager.standard.functionPasses) (f : FuncId) :
    Frames R (p.run f) := by
  simp only [Manager.standard, List.mem_cons, List.not_mem_nil, or_false] at hp
  obtain rfl | rfl | rfl := hp
  · exact frames_inlineLibraryCalls f
  · exact frames_eliminateDeadCode f
  · exact frames_simplifyControlFlow f

end Midlevel.Pass
