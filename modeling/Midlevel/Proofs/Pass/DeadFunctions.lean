import Midlevel.Proofs.Lowering.Functions
import Midlevel.Proofs.Pass.Frames

/-!
Which functions are left when dead functions have been dropped. A function is judged by its name,
its visibility and its use list alone. Code that reaches a function in another way, as a call
through a box does and the release of the last reference to an object, keeps nothing alive.
-/

namespace Midlevel.Pass

open Ir Build List Manager Func

variable {f : FuncId} {m m' : Module}
variable {w : Workspace}
variable {o : OperandId} {P : Module → Prop} {level : Level} (i : InstId)

/-! ### Taking away -/

/-- Uses and places are only taken away, and what identifies a function stays. -/
structure Fades (m m' : Module) : Prop where
  name : ∀ f, (m'.funcs.get f).name = (m.funcs.get f).name := by intro; rfl
  visibility : ∀ f, (m'.funcs.get f).visibility = (m.funcs.get f).visibility := by intro; rfl
  defined : ∀ f, (m'.funcs.get f).defined = (m.funcs.get f).defined := by intro; rfl
  uses : ∀ f, (m'.funcs.get f).uses ⊆ (m.funcs.get f).uses := by exact fun _ _ h => h
  user : ∀ o, (m'.operands.get o).user = (m.operands.get o).user := by intro; rfl
  placed : ∀ i g, m'.instFunc i = some g → m.instFunc i = some g := by exact fun _ _ h => h

instance : IsPreorder Module Fades where
  refl _ := {}
  trans _ _ _ h h' := ⟨fun f => (h'.name f).trans (h.name f),
    fun f => (h'.visibility f).trans (h.visibility f),
    fun f => (h'.defined f).trans (h.defined f), fun f _ ho => h.uses f (h'.uses f ho),
    fun o => (h'.user o).trans (h.user o), fun i g hg => h.placed i g (h'.placed i g hg)⟩

theorem fades_updateFunc (m : Module) (f : FuncId) {g : Func → Func}
    (hg : ∀ x, (g x).name = x.name ∧ (g x).visibility = x.visibility ∧ (g x).defined = x.defined)
    (huses : (g (m.funcs.get f)).uses ⊆ (m.funcs.get f).uses) : Fades m (m.updateFunc f g) where
  name f' := Pool.get_update_part _ name f f' fun x => (hg x).1
  visibility f' := Pool.get_update_part _ visibility f f' fun x => (hg x).2.1
  defined f' := Pool.get_update_part _ defined f f' fun x => (hg x).2.2
  uses f' o ho := by
    replace ho : o ∈ ((m.funcs.update f g).get f').uses := ho
    obtain h | ⟨rfl, h⟩ := m.funcs.get_update_cases f f' g
    · rwa [h] at ho
    · rw [h] at ho
      exact huses ho

theorem fades_updateInst (m : Module) (i : InstId) {g : Inst → Inst}
    (hg : ∀ x, (g x).block = x.block ∨ (g x).block = none) : Fades m (m.updateInst i g) where
  placed j f hj := by
    replace hj : (((m.insts.update i g).get j).block.bind fun b => (m.blocks.get b).func) =
      some f := hj
    obtain h | ⟨-, h⟩ := m.insts.get_update_cases i j g
    · rwa [h] at hj
    · rw [h] at hj
      obtain hb | hb := hg (m.insts.get j)
      · rwa [hb] at hj
      · rw [hb] at hj
        cases hj

theorem fades_updateBlock (m : Module) (b : BlockId) {g : Block → Block}
    (hg : ∀ x, (g x).func = x.func ∨ (g x).func = none) : Fades m (m.updateBlock b g) where
  placed j f hj := by
    obtain ⟨c, hc, hf⟩ := Option.bind_eq_some_iff.mp hj
    replace hf : ((m.blocks.update b g).get c).func = some f := hf
    refine Option.bind_eq_some_iff.mpr ⟨c, hc, ?_⟩
    obtain h | ⟨-, h⟩ := m.blocks.get_update_cases b c g
    · rwa [h] at hf
    · rw [h] at hf
      obtain hb | hb := hg (m.blocks.get c)
      · rwa [hb] at hf
      · rw [hb] at hf
        cases hf

theorem fades_updateOperand (m : Module) (o : OperandId) {g : Operand → Operand}
    (hg : ∀ x, (g x).user = x.user) :
    Fades m { m with operands := m.operands.update o g } where
  user o' := Pool.get_update_part _ Operand.user o o' hg

theorem fades_modifyUses (m : Module) {change : List OperandId → List OperandId} (v : Value)
    (h : change (m.uses v) ⊆ m.uses v) : Fades m (m.modifyUses change v) := by
  cases v with
  | inst i => exact fades_updateInst m i fun _ => .inl rfl
  | func f => exact fades_updateFunc m f (fun x => ⟨rfl, rfl, rfl⟩) h
  | param p => exact {}
  | global g => exact {}

theorem fades_removeUse {v : Value} (h : m.removeUse? v o = some m') : Fades m m' := by
  unfold Module.removeUse? at h
  split at h
  · next i last _ hlast =>
    split at h
    · obtain rfl := Option.some.inj h
      have hmem : last ∈ m.uses v := mem_of_getLast? hlast
      have hsub : ((m.uses v).set i last).dropLast ⊆ m.uses v := by
        intro o ho
        obtain ho | rfl := mem_or_eq_of_mem_set (dropLast_subset _ ho)
        · exact ho
        · exact hmem
      have hfreed : Fades m (m.modifyUses (fun us => (us.set i last).dropLast) v) :=
        fades_modifyUses m v hsub
      refine trans_of Fades hfreed
        (trans_of Fades (fades_updateOperand _ last ?_) (fades_updateOperand _ o ?_))
      · exact fun _ => rfl
      · exact fun _ => rfl
    · cases h
  · cases h

theorem fades_setOperand (h : m.setOperand? o none = some m') : Fades m m' := by
  unfold Module.setOperand? at h
  dsimp only at h
  split at h
  · obtain rfl := Option.some.inj h
    exact refl_of Fades _
  · obtain ⟨n, hn, rfl⟩ := Option.map_eq_some_iff.mp h
    have hfreed : Fades m n := by
      split at hn
      · obtain rfl := Option.some.inj hn
        exact refl_of Fades _
      · exact fades_removeUse hn
    refine trans_of Fades hfreed (fades_updateOperand n o ?_)
    exact fun _ => rfl

/-! ### Operations that take away -/

-- Instances are found for whole programs, which takes as many steps as they have.
set_option synthInstance.maxSize 10000

instance (os : List OperandId) : Frames Fades (dropOperands os) := by
  refine .forM (h := fun o => frames_iff_wp.mpr fun s => ?_)
  unfold setOperand applyUses
  rw [wp_bind, wp_module]
  dsimp only
  cases h : s.module.setOperand? o none with
  | none => exact refl_of Fades _
  | some m => exact fades_setOperand h

instance (uses operands : Inst → List OperandId) (targets : Inst → List EdgeId)
    (erased : Inst → Bool) : Frames Fades (modifyInst i fun x => { x with
      uses := uses x, operands := operands x, targets := targets x, erased := erased x }) :=
  ⟨fun s => fades_updateInst s.module i fun _ => .inl rfl⟩

instance (b : BlockId) (edges : Block → List EdgeId) (insts : Block → List InstId) :
    Frames Fades (modifyBlock b fun x => { x with edges := edges x, insts := insts x }) :=
  ⟨fun s => fades_updateBlock s.module b fun _ => .inl rfl⟩

instance (e : EdgeId) (g : Edge → Edge) : Frames Fades (modifyEdge e g) := ⟨fun _ => {}⟩

instance (e : EdgeId) : Frames Fades (detachEdge e) := by
  unfold detachEdge
  refine .next fun x => .next fun _ => .next fun _ => .next fun y => ?_
  cases y.target <;> infer_instance

instance : Frames Fades (dropAll i) := .next inferInstance

instance : Frames Fades (eraseInst i) := by
  have : Frames Fades (modifyInst i ({ · with block := none, erased := true })) :=
    ⟨fun s => fades_updateInst s.module i fun _ => .inr rfl⟩
  unfold eraseInst
  infer_instance

/-! ### Removing a function -/

def UsedElsewhere (m : Module) (f : FuncId) : Prop :=
  ∃ o ∈ (m.funcs.get f).uses, ∃ i g, (m.operands.get o).user = some i ∧
    m.instFunc i = some g ∧ g ≠ f

theorem UsedElsewhere.externalUses (h : UsedElsewhere m f) : m.externalUses f ≠ 0 := by
  obtain ⟨o, ho, i, g, huser, hplace, hne⟩ := h
  unfold Module.externalUses
  rw [Ne, length_eq_zero_iff, filter_eq_nil_iff]
  intro hall
  refine hall o ho ?_
  rw [huser]
  simpa [hplace] using hne

theorem Fades.usedElsewhere (h : Fades m m') (hf : UsedElsewhere m' f) : UsedElsewhere m f := by
  obtain ⟨o, ho, i, g, huser, hplace, hne⟩ := hf
  exact ⟨o, h.uses f ho, i, g, (h.user o).symm.trans huser, h.placed i g hplace, hne⟩

/-- What removing functions may do: those that go had no claim to stay. -/
structure Removes (m m' : Module) : Prop where
  fades : Fades m m'
  order : m'.order.Sublist m.order
  gone : ∀ f ∈ m.order, f ∉ m'.order → (m.funcs.get f).name ≠ entryPoint ∧
    ¬ ((m.funcs.get f).defined = true ∧ (m.funcs.get f).visibility = .exported) ∧
      ¬ UsedElsewhere m' f

instance : IsPreorder Module Removes where
  refl _ := ⟨refl_of Fades _, List.Sublist.refl _, fun _ h h' => absurd h h'⟩
  trans m m₁ m₂ h h' := by
    refine ⟨trans_of Fades h.fades h'.fades, h'.order.trans h.order, fun f hf hf' => ?_⟩
    by_cases hf₁ : f ∈ m₁.order
    · obtain ⟨hname, hexport, huse⟩ := h'.gone f hf₁ hf'
      rw [h.fades.name] at hname
      rw [h.fades.defined, h.fades.visibility] at hexport
      exact ⟨hname, hexport, huse⟩
    · obtain ⟨hname, hexport, huse⟩ := h.gone f hf hf₁
      exact ⟨hname, hexport, fun hu => huse (h'.fades.usedElsewhere hu)⟩

instance fades_removeFunction (f : FuncId) : Frames Fades (removeFunction f) := by
  have (b : BlockId) : Frames Fades (modifyBlock b ({ · with func := none })) :=
    ⟨fun s => fades_updateBlock s.module b fun _ => .inr rfl⟩
  have : Frames Fades (modifyFunc f ({ · with blocks := [], removed := true })) :=
    ⟨fun s => fades_updateFunc s.module f (fun _ => ⟨rfl, rfl, rfl⟩) fun _ h => h⟩
  have : Frames Fades (modifyModule fun m => { m with order := m.order.filter (· ≠ f) }) :=
    ⟨fun _ => {}⟩
  unfold removeFunction
  infer_instance

instance {R : Module → Module → Prop} [QuietFraming R] : Frames R (eraseInst i) :=
  .next inferInstance

theorem wp_removeFunction_order (f : FuncId) {s : Builder} :
    wp (removeFunction f) (fun _ t => t.module.order = s.module.order.filter (· ≠ f)) Any s := by
  have hkeep (m m' : Module) (hm : SameOutline m m') : m.order = s.module.order →
      m'.order = s.module.order :=
    hm.order_eq.trans
  unfold removeFunction
  rw [wp_bind, wp_func, wp_ite]
  refine ⟨fun _ => trivial, fun _ => ?_⟩
  rw [wp_bind, wp_module, wp_ite]
  refine ⟨fun _ => trivial, fun _ => ?_⟩
  refine wp_bind_keeping hkeep rfl fun _ t ht => wp_bind_keeping hkeep ht fun _ t ht => ?_
  show t.module.order.filter (· ≠ f) = _
  rw [show t.module.order = s.module.order from ht]

/-! ### The pass -/

theorem removes_of_dead (hdead : isDeadFunction m f = true) (hfades : Fades m m')
    (horder : m'.order = m.order.filter (· ≠ f)) : Removes m m' := by
  refine ⟨hfades, horder ▸ filter_sublist, fun g hg hg' => ?_⟩
  have hgf : g = f := by
    by_contra hne
    exact hg' (horder ▸ mem_filter.mpr ⟨hg, by simpa using hne⟩)
  subst hgf
  unfold isDeadFunction at hdead
  simp only [Bool.and_eq_true, bne_iff_ne, beq_iff_eq, Bool.or_eq_true] at hdead
  refine ⟨hdead.1.1, fun hexport => ?_, fun hu => (hfades.usedElsewhere hu).externalUses hdead.1.2⟩
  obtain h | h := hdead.2
  · rw [hexport.1] at h
    cases h
  · exact h hexport.2

theorem wp_removeDeadAmong (fs : List FuncId) :
    wp (removeDeadAmong fs) (fun removed t => Removes w.module t.module ∧
        (removed = false → t.module = w.module ∧ ∀ f ∈ fs, isDeadFunction w.module f = false) ∧
        (removed = true → ∃ f ∈ fs, f ∉ t.module.order)) Any w := by
  induction fs generalizing w with
  | nil => exact ⟨refl_of Removes _, fun _ => ⟨rfl, by simp⟩, fun h => nomatch h⟩
  | cons f fs ih =>
    unfold removeDeadAmong
    rw [wp_bind, Transform.wp_module, wp_ite]
    refine ⟨fun hdead => ?_, fun halive => ?_⟩
    · rw [wp_bind, Transform.wp_count, wp_bind, Transform.wp_build]
      refine wp_mono ((fades_removeFunction f).wp_and (wp_removeFunction_order f))
        (fun _ b ⟨hfades, horder⟩ => ?_)
        fun _ _ _ => trivial
      have hstep : Removes w.module b.module := removes_of_dead hdead hfades horder
      rw [wp_bind, Transform.wp_count, wp_bind]
      refine wp_imp ih fun _ t ⟨hrest, _⟩ => ?_
      refine ⟨trans_of Removes hstep hrest, (fun h => nomatch h),
        fun _ => ⟨f, mem_cons_self, fun hmem => ?_⟩⟩
      have hb : f ∈ b.module.order := hrest.order.subset hmem
      rw [horder] at hb
      simpa using (mem_filter.mp hb).2
    · refine wp_imp ih fun removed t ⟨hrest, hsame, hgone⟩ => ⟨hrest, fun h => ?_, fun h => ?_⟩
      · refine ⟨(hsame h).1, fun g hg => ?_⟩
        obtain rfl | hg := mem_cons.mp hg
        · exact Bool.not_eq_true _ ▸ halive
        · exact (hsame h).2 g hg
      · obtain ⟨g, hg, hg'⟩ := hgone h
        exact ⟨g, mem_cons_of_mem _ hg, hg'⟩

theorem wp_removeDeadRounds (rounds : Nat) : wp (removeDeadRounds rounds)
      (fun _ t => Removes w.module t.module ∧ (w.module.order.length < rounds →
        ∀ f ∈ t.module.order, isDeadFunction t.module f = false)) Any w := by
  induction rounds generalizing w with
  | zero => exact ⟨refl_of Removes _, fun h => absurd h (Nat.not_lt_zero _)⟩
  | succ rounds ih =>
    unfold removeDeadRounds
    rw [wp_bind, Transform.wp_module, wp_bind]
    refine wp_imp (wp_removeDeadAmong _) fun removed t ⟨hrem, hsame, hgone⟩ => ?_
    cases removed with
    | false =>
      obtain ⟨heq, halive⟩ := hsame rfl
      exact ⟨hrem, fun _ f hf => by
        rw [heq] at hf ⊢
        exact halive f hf⟩
    | true =>
      obtain ⟨f, hf, hf'⟩ := hgone rfl
      -- A round that removed something left fewer functions for the rest.
      have hless : t.module.order.length < w.module.order.length := by
        refine Nat.lt_of_le_of_ne hrem.order.length_le fun heq => hf' ?_
        rw [hrem.order.eq_of_length heq]
        exact hf
      refine wp_imp ih fun _ u ⟨hrest, hdone⟩ => ⟨trans_of Removes hrem hrest, fun hlen => hdone ?_⟩
      omega

theorem wp_removeDeadFunctions : wp removeDeadFunctions (fun _ t => Removes w.module t.module ∧
        ∀ f ∈ t.module.order, isDeadFunction t.module f = false) Any w := by
  unfold removeDeadFunctions
  exact wp_imp (wp_removeDeadRounds _) fun _ _ ⟨h, hdone⟩ => ⟨h, hdone (Nat.lt_succ_self _)⟩

/-! ### Runs of all passes -/

/-- The functions of the module, without their bodies, are the same. -/
structure SameFuncs (m m' : Module) : Prop where
  order : m'.order = m.order
  head : ∀ f, (m'.funcs.get f).head = (m.funcs.get f).head

instance : IsPreorder Module SameFuncs where
  refl _ := ⟨rfl, fun _ => rfl⟩
  trans _ _ _ h h' := ⟨h'.order.trans h.order, fun f => (h'.head f).trans (h.head f)⟩

instance : CodeFraming SameFuncs where
  quiet _ _ h := ⟨h.order_eq, h.head_eq⟩
  types _ _ _ := ⟨rfl, fun _ => rfl⟩
  inst _ _ _ := ⟨rfl, fun _ => rfl⟩

section Bare

variable {R : Module → Module → Prop} [IsPreorder Module R]

@[instance] theorem frames_bareCheck (pm : Manager) (pass : Text) :
    Frames R (bareCheck pm pass) := by
  refine .ite (h := .next fun m => ?_)
  split <;> infer_instance

end Bare

/-- What the standard passes do to the functions of a module: they stay the same until dead ones are
dropped, if they are. -/
def Swept (enabled : Bool) (m m' : Module) : Prop :=
  ∃ m₁, SameFuncs m m₁ ∧ if enabled then Removes m₁ m' ∧ ∀ f ∈ m'.order, isDeadFunction m' f =
    false else m' = m₁

theorem wp_bare_standard (verify : Bool) (disabled : List Text) (level : Level) :
    wp (bare { standard with verify, disabled } level)
      (fun _ t => Swept (enabled { standard with verify, disabled } deadFunctions.name
        deadFunctions.minLevel level) w.module t.module) Any w := by
  generalize hpm : ({ standard with verify, disabled } : Manager) = pm
  have hfunctions : pm.functionPasses = standard.functionPasses := by rw [← hpm]
  have hmodules : pm.modulePasses = [deadFunctions] := by
    rw [← hpm]
    rfl
  have hframes : Frames SameFuncs (pm.functionPasses.forM fun p => do
      if pm.enabled p.name p.minLevel level then p.bare pm) :=
    .forM_of_mem fun p hp => by
      have := frames_standard (R := SameFuncs) (hfunctions ▸ hp)
      exact .ite (h := .next inferInstance)
  refine wp_seq (wp_mono (frames_iff_wp.mp hframes w) (fun _ _ h => h) fun _ _ _ => trivial)
    fun _ t ht => ?_
  rw [hmodules]
  show wp ((if pm.enabled deadFunctions.name deadFunctions.minLevel level then deadFunctions.bare pm
    else pure ()) >>=
    fun _ => pure ()) _ _ _
  rw [wp_bind, wp_ite]
  refine ⟨fun henabled => ?_, fun hdisabled => ⟨_, ht, (if_neg hdisabled).mpr rfl⟩⟩
  refine wp_bind_of_frames (R := @Eq Module) (P := Swept _ w.module) (fun _ _ h => h ▸ id)
    (wp_located (fun _ _ h => h) ?_) inferInstance
  refine wp_imp wp_removeDeadFunctions fun _ u hu => ⟨_, ht, ?_⟩
  rw [if_pos henabled]
  exact hu

theorem swept_of_optimise {verify : Bool} {disabled : List Text} {stats : Stats}
    (h : optimise { standard with verify, disabled } level m = .ok (stats, m')) :
    Swept (enabled { standard with verify, disabled } deadFunctions.name deadFunctions.minLevel
      level) m m' := by
  rw [optimise_eq] at h
  exact of_map_run (P := fun r => Swept _ m r.2) (f := fun _ (t : Workspace) =>
    (t.stats, t.module)) h
    (wp_bare_standard verify disabled level)

/-! ### Methods and deinitialisers -/

open Lowering

/-- Dropping dead functions keeps the function whatever else it does, or is not done at all. -/
def Sheltered (enabled : Bool) (m m' : Module) (f : FuncId) : Prop :=
  enabled = false ∨ (m.funcs.get f).name = entryPoint ∨ (m.funcs.get f).visibility = .exported ∨
    UsedElsewhere m' f

theorem Swept.mem_order {enabled : Bool} (h : Swept enabled m m') (hf : f ∈ m.order)
    (hdefined : (m.funcs.get f).defined = true) (hs : Sheltered enabled m m' f) : f ∈ m'.order := by
  obtain ⟨m₁, hsame, h⟩ := h
  have hf₁ : f ∈ m₁.order := hsame.order ▸ hf
  have hname : (m₁.funcs.get f).name = (m.funcs.get f).name := (congrArg name (hsame.head f) :)
  have hvis : (m₁.funcs.get f).visibility = (m.funcs.get f).visibility :=
    (congrArg visibility (hsame.head f) :)
  have hdef : (m₁.funcs.get f).defined = (m.funcs.get f).defined :=
    (congrArg defined (hsame.head f) :)
  cases enabled with
  | false => exact h ▸ hf₁
  | true =>
    by_contra hgone
    obtain ⟨hmain, hexport, huse⟩ := h.1.gone f hf₁ hgone
    obtain hs | hs | hs | hs := hs
    · cases hs
    · exact hmain (hname.trans hs)
    · exact hexport ⟨hdef.trans hdefined, hvis.trans hs⟩
    · exact huse hs

theorem Swept.head {enabled : Bool} (h : Swept enabled m m') (f : FuncId) :
    (m'.funcs.get f).name = (m.funcs.get f).name ∧ (m'.funcs.get f).visibility =
    (m.funcs.get f).visibility ∧
      (m'.funcs.get f).defined = (m.funcs.get f).defined := by
  obtain ⟨m₁, hsame, h⟩ := h
  have hfades : Fades m₁ m' := by
    cases enabled with
    | false => exact h ▸ refl_of Fades _
    | true => exact h.1.fades
  have hhead := hsame.head f
  exact ⟨(hfades.name f).trans (congrArg name hhead :),
    (hfades.visibility f).trans (congrArg visibility hhead :),
    (hfades.defined f).trans (congrArg defined hhead :)⟩

theorem Swept.claim_of_mem (h : Swept true m m') (hf : f ∈ m'.order) :
    (m.funcs.get f).name = entryPoint ∨ (m.funcs.get f).visibility = .exported ∨
      m'.externalUses f ≠ 0 := by
  obtain ⟨hname, hvis, -⟩ := h.head f
  obtain ⟨m₁, -, -, halive⟩ := h
  have hdead := halive f hf
  unfold isDeadFunction at hdead
  dsimp only at hdead
  rw [hname, hvis] at hdead
  by_contra hall
  push Not at hall
  simp [hall.1, hall.2.1, hall.2.2] at hdead

/-- The method or deinitialiser of a struct that has a body is in the generated module, and the
passes leave it there, with its body, if they do not drop dead functions, if it can be reached from
outside the module or if code of another function that is left refers to it. Otherwise it is
dropped, whatever is left of the code that calls it through a box or releases its object. -/
theorem implicit_targets_kept {tree : Tree.Module} {options : Options} {tracer : Trace.Tracer}
    {parent : UInt64}
    {m m' : Module} {verify : Bool} {disabled : List Text} {level : Level} {stats : Stats}
    (hgen : (generate tree options tracer parent).1 = .ok m)
    (hopt : Manager.optimise { Manager.standard with verify, disabled } level m = .ok (stats, m')) :
    ∀ d ∈ tree.types, d.code = 0 → ∀ member, member ∈ d.methods ∨ d.deinit = some member →
      member.hasBody = true →
      ∃ f, m.funcNamed? member.symbol = some f ∧
        (m'.funcs.get f).name = member.symbol ∧ (m'.funcs.get f).defined = true ∧
        (Sheltered (Manager.enabled { Manager.standard with verify, disabled } deadFunctions.name
          deadFunctions.minLevel level) m m' f → f ∈ m'.order) ∧
        (f ∈ m'.order → Manager.enabled { Manager.standard with verify,
                                                                disabled } deadFunctions.name
            deadFunctions.minLevel level = true →
          member.symbol = entryPoint ∨ (m.funcs.get f).visibility = .exported ∨
          m'.externalUses f ≠ 0) := by
  intro d hd hcode member hmember hbody
  obtain ⟨f, hnamed, hbodied⟩ := members_bodied hgen d hd member ⟨hcode, hmember⟩ hbody
  have hswept := swept_of_optimise hopt
  obtain ⟨hname, -, hdefined⟩ := hswept.head f
  refine ⟨f, hnamed.2, hname.trans hnamed.name_eq, hdefined.trans hbodied.2, fun hs => ?_,
    fun hf henabled => ?_⟩
  · exact hswept.mem_order (mem_of_find?_eq_some hnamed.2) hbodied.2 hs
  · rw [henabled] at hswept
    rw [← hnamed.name_eq]
    exact hswept.claim_of_mem hf

/-- An object that is boxed, called through the box and released. Its method and its deinitialiser
are reached in no other way. -/
def dispatching (visibility : Text) : Tree.Module where
  name := "m"
  types := [
    { code := 1, name := "C", methods := [{ name := "run" }] },
    { name := "S", heap := true, conforms := ["C"],
      methods := [{ name := "run", symbol := "S_run", hasBody := true, visibility }],
      deinit := some { name := "deinit", symbol := "S_deinit", hasBody := true, visibility } }]
  main := [
    .letTyped "c" (.named "C") (.structLit (.named "S") []),
    .eval (.methodCall (.varRef "c" (.named "C")) "run" [] .void [])]

def operations (m : Module) : List Opcode :=
  m.order.flatMap fun f => (m.funcInsts f).map fun i => (m.insts.get i).op

def compiled (tree : Tree.Module) (level : Level) : Except Unit (Module × Module) :=
  match (generate tree {} .off 0).1 with
  | .error _ => .error ()
  | .ok m =>
    match standard.optimise level m with
    | .error _ => .error ()
    | .ok (_, m') => .ok (m, m')

theorem exists_compiled (tree : Tree.Module) (level : Level) {P : Module → Module → Prop}
    [∀ m m', Decidable (P m m')]
    (h : checked (compiled tree level) (fun r => decide (P r.1 r.2)) = true) : ∃ m m' stats,
      (generate tree {} .off 0).1 = .ok m ∧ standard.optimise level m = .ok
      (stats, m') ∧ P m m' := by
  obtain ⟨⟨m, m'⟩, hm, hP⟩ := exists_of_decided h
  unfold compiled at hm
  split at hm
  · cases hm
  · next m₀ hgen =>
    split at hm
    · cases hm
    · next stats m₁ hopt =>
      obtain ⟨rfl, rfl⟩ := Prod.mk.inj (Except.ok.inj hm)
      exact ⟨m₀, m₁, stats, hgen, hopt, hP⟩

theorem exported_targets_kept :
    ∃ m m' stats, (generate (dispatching "public") {} .off 0).1 = .ok m ∧
    Manager.standard.optimise .low m = .ok (stats, m') ∧
    [Opcode.allocObject, .existentialBox, .existentialWitness] ⊆ operations m' ∧
    (∃ f ∈ m'.order, m.funcNamed? "S_run" = some f ∧ (m'.funcs.get f).defined = true) ∧
    ∃ f ∈ m'.order, m.funcNamed? "S_deinit" = some f ∧ (m'.funcs.get f).defined = true := by
  obtain ⟨m, m', stats, hgen, hopt, hops, hexported⟩ := exists_compiled (dispatching "public") .low
    (P := fun m m' => [Opcode.allocObject, .existentialBox, .existentialWitness] ⊆ operations m' ∧
      ∀ f ∈ m.order, (m.funcs.get f).visibility = .exported) (by decide +kernel)
  have hkept := implicit_targets_kept hgen hopt _ (mem_cons_of_mem _ mem_cons_self) rfl
  obtain ⟨f, hf, -, hdefined, hstay, -⟩ := hkept _ (.inl mem_cons_self) rfl
  obtain ⟨g, hg, -, hdefined', hstay', -⟩ := hkept _ (.inr rfl) rfl
  refine ⟨m, m', stats, hgen, hopt, hops, ⟨f, hstay ?_, hf, hdefined⟩,
    ⟨g, hstay' ?_, hg, hdefined'⟩⟩
  · exact .inr (.inr (.inl (hexported f (mem_of_find?_eq_some hf))))
  · exact .inr (.inr (.inl (hexported g (mem_of_find?_eq_some hg))))

/-- The object, its box and the call through the box are left, but what they need has been
dropped. -/
theorem hidden_targets_dropped : ∃ m m' stats, (generate (dispatching []) {} .off 0).1 = .ok m ∧
    Manager.standard.optimise .low m = .ok (stats, m') ∧
    [Opcode.allocObject, .existentialBox, .existentialWitness] ⊆ operations m' ∧
    m.funcNamed? "S_run" ≠ none ∧ m.funcNamed? "S_deinit" ≠ none ∧
    m'.funcNamed? "S_run" = none ∧ m'.funcNamed? "S_deinit" = none :=
  exists_compiled _ _ (by decide +kernel)

end Midlevel.Pass
