import Mathlib.Data.List.Find
import Midlevel.Proofs.Lowering.Boxes

/-!
The functions of a generated module. Functions are only ever added, under names that are free, so
a name that stands for a function stands for it from then on; and every declaration with a body
gets one.
-/

namespace Midlevel.Ir

open Pool

def Module.Indexed (m : Module) : Prop := ∀ f ∈ m.order, f.index < m.funcs.entries.size

/-- Names keep their functions and functions their bodies. -/
structure Grown (m m' : Module) : Prop where
  indexed : m'.Indexed
  named : ∀ name f, m.funcNamed? name = some f → m'.funcNamed? name = some f
  defined : ∀ f, (m.funcs.get f).defined = true → (m'.funcs.get f).defined = true

/-- Functions are only added, if the module is as it should be. -/
def Grows (m m' : Module) : Prop := m.Indexed → Grown m m'

instance : IsPreorder Module Grows where
  refl _ h := ⟨h, fun _ _ h => h, fun _ h => h⟩
  trans _ _ _ h h' hi := by
    have g := h hi
    have g' := h' g.indexed
    exact ⟨g'.indexed, fun name f hf => g'.named name f (g.named name f hf),
      fun f hf => g'.defined f (g.defined f hf)⟩

theorem funcNamed?_congr {m m' : Module} (horder : m'.order = m.order)
    (hname : ∀ f, (m'.funcs.get f).name = (m.funcs.get f).name) (name : Text) :
    m'.funcNamed? name = m.funcNamed? name := by
  unfold Module.funcNamed?
  rw [horder]
  simp only [hname]

theorem Pool.get_of_size_le {e : Entity} {α : Type} [Inhabited α] (p : Pool e α) {i : Id e}
    (h : p.entries.size ≤ i.index) : p.get i = default := by
  simp [get, h]

theorem funcNamed?_push {m : Module} (hi : m.Indexed) (x : Func) (name : Text) :
    Module.funcNamed? { m with funcs := m.funcs.push x, order := m.order ++ [m.funcs.next] } name =
      (m.funcNamed? name).or (if x.name = name then some m.funcs.next else none) := by
  have hold : m.order.find? (fun g => ((m.funcs.push x).get g).name = name) =
      m.funcNamed? name := by
    refine List.find?_congr fun g hg => ?_
    rw [get_push, if_neg]
    rintro rfl
    exact Nat.lt_irrefl _ (hi _ hg)
  unfold Module.funcNamed?
  rw [List.find?_append, hold, List.find?_singleton, get_push]
  simp only [decide_eq_true_eq]
  rfl

instance : Framing Grows where
  quiet m m' h hi := by
    have hname (g : FuncId) : (m'.funcs.get g).name = (m.funcs.get g).name :=
      (congrArg Func.name (h.head_eq g) :)
    refine ⟨fun f hf => ?_, fun name f hf => ?_, fun f hf => ?_⟩
    · rw [h.funcs_size]
      exact hi f (h.order_eq ▸ hf)
    · rwa [funcNamed?_congr h.order_eq hname]
    · have : (m'.funcs.get f).head.defined = (m.funcs.get f).head.defined :=
        congrArg Func.defined (h.head_eq f)
      exact this.trans hf
  types m t _ hi := ⟨hi, fun _ _ h => h, fun _ h => h⟩
  inst m x _ hi := ⟨hi, fun _ _ h => h, fun _ h => h⟩
  func m x hx hi := by
    refine ⟨fun f hf => ?_, fun name f hf => ?_, fun f hf => ?_⟩
    · obtain hf | hf := List.mem_append.mp hf
      · exact (hi f hf).trans (by simp [push])
      · rw [List.mem_singleton.mp hf]
        simp [push, next]
    · rw [funcNamed?_push hi, hf, Option.some_or]
    · show ((m.funcs.push x).get f).defined = true
      rw [get_push]
      split
      · next heq =>
        subst heq
        rw [get_of_size_le _ (by simp [next])] at hf
        cases hf
      · exact hf
  refine_ m f g hg hi := by
    refine ⟨fun f' hf' => ?_, fun name f' hf' => ?_, fun f' hf' => ?_⟩
    · show f'.index < (m.funcs.update f g).entries.size
      rw [size_update]
      exact hi f' hf'
    · have hname (f' : FuncId) : ((m.updateFunc f g).funcs.get f').name = (m.funcs.get f').name :=
        get_update_part _ Func.name f f' fun x => (hg x).1
      have horder : (m.updateFunc f g).order = m.order := rfl
      exact (funcNamed?_congr horder hname name).trans hf'
    · show ((m.funcs.update f g).get f').defined = true
      obtain rfl | hne := eq_or_ne f f'
      · by_cases h : f.index < m.funcs.entries.size
        · rw [Pool.get_update_self _ h]
          exact (hg _).2.2.2 hf'
        · rw [get_of_size_le _ (by simpa using h)] at hf'
          cases hf'
      · rwa [get_update_of_ne _ hne]

end Midlevel.Ir

namespace Midlevel.Lowering

open Ir Midlevel.Tree Build List

variable {s : Builder} {f : FuncId} {m : Ir.Module} {name : Text} (names : List Text)
  (tree : Tree.Module)

/-! ### Names -/

def Named (name : Text) (f : FuncId) (m : Ir.Module) : Prop :=
  m.Indexed ∧ m.funcNamed? name = some f

theorem Named.mono (m m' : Ir.Module) (hm : Grows m m') (h : Named name f m) :
    Named name f m' := ⟨(hm h.1).indexed, (hm h.1).named _ _ h.2⟩

theorem Named.name_eq (h : Named name f m) : (m.funcs.get f).name = name :=
  of_decide_eq_true (List.find?_some h.2 :)

theorem wp_addFunction_named (name : Text) (type : TypeId) (hi : s.module.Indexed) :
    wp (addFunction name type) (fun f t => Named name f t.module) Any s := by
  have hgrows := frames_iff_wp.mp (frames_addFunction (R := Grows) name type) s
  refine wp_mono (wp_and hgrows ?_) (fun f t ⟨hg, hn⟩ => ⟨(hg hi).indexed, hn⟩) fun _ _ h => h.2
  unfold addFunction
  rw [wp_bind, wp_module, wp_ite]
  refine ⟨fun _ => trivial, fun _ => ?_⟩
  rw [wp_ite]
  refine ⟨fun _ => trivial, fun hname => ?_⟩
  have hnone : s.module.funcNamed? name = none := by simpa using hname
  exact (funcNamed?_push hi { name, type, refName := name } name).trans
    (by rw [hnone, Option.none_or, if_pos rfl])

theorem wp_getOrAddFunction_named (name : Text) (type : TypeId) (hi : s.module.Indexed) :
    wp (getOrAddFunction name type) (fun f t => Named name f t.module) Any s := by
  unfold getOrAddFunction
  rw [wp_bind, wp_module]
  cases hf : s.module.funcNamed? name with
  | none => exact wp_addFunction_named name type hi
  | some f =>
    rw [wp_ite]
    exact ⟨fun _ => ⟨hi, hf⟩, fun _ => trivial⟩

/-! ### Bodies -/

def Bodied (f : FuncId) (m : Ir.Module) : Prop := m.Indexed ∧ (m.funcs.get f).defined = true

theorem Bodied.mono (m m' : Ir.Module) (hm : Grows m m') (h : Bodied f m) : Bodied f m' :=
  ⟨(hm h.1).indexed, (hm h.1).defined _ h.2⟩

theorem wp_defineBody_bodied (hs : Named name f s.module) :
    wp (defineBody f names) (fun _ t => Bodied f t.module) Any s := by
  unfold defineBody
  rw [wp_bind, wp_func, wp_ite]
  refine ⟨fun _ => trivial, fun _ => ?_⟩
  refine wp_bind_keeping Named.mono hs fun sig t ht => ?_
  rw [wp_ite]
  refine ⟨fun _ => trivial, fun _ => ?_⟩
  refine wp_bind_keeping Named.mono (h := frames_onTypes fun t => t.extends_loweredParams _) ht
    fun lowered t ht => ?_
  refine wp_bind_keeping Named.mono ht fun entry t ht => ?_
  refine wp_bind_keeping Named.mono ht fun blk t ht => ?_
  refine wp_bind_keeping Named.mono ht fun _ t ht => ?_
  have hlt : f.index < t.module.funcs.entries.size := ht.1 f (mem_of_find?_eq_some ht.2)
  refine ⟨((frames_modifyFunc (R := Grows) f ?_).frame t ht.1).indexed, ?_⟩
  · exact fun _ => ⟨rfl, rfl, rfl, fun _ => rfl⟩
  · rw [Pool.get_update_self _ hlt]

theorem wp_getOrBuildFunction_bodied {type : TypeId} (hs : Named name f s.module) :
    wp (getOrBuildFunction name type names) (fun _ t => Bodied f t.module) Any s := by
  unfold getOrBuildFunction getOrAddFunction
  rw [wp_bind, wp_bind, wp_module, hs.2]
  rw [wp_ite]
  refine ⟨fun _ => ?_, fun _ => trivial⟩
  show wp (do if (← func f).defined then return f else defineAndEnter f names) _ _ _
  rw [wp_bind, wp_func, wp_ite]
  refine ⟨fun hd => ⟨hs.1, hd⟩, fun _ => ?_⟩
  refine wp_bind_of_frames Bodied.mono (wp_defineBody_bodied names hs) inferInstance

theorem wp_bareBody_bodied (int bool : TypeId) {p : Pending} (hs : Named name p.func s.module) :
    wp (bareBody int bool p) (fun _ t => Bodied p.func t.module) Any s := by
  unfold bareBody
  rw [wp_bind, wp_func, hs.name_eq]
  refine wp_located (fun _ _ h => h) (wp_bind_keeping Named.mono hs fun _ t ht => ?_)
  exact wp_bind_of_frames Bodied.mono (wp_getOrBuildFunction_bodied _ ht) inferInstance

/-! ### Declarations -/

/-- If the declaration has a body, that body is among those to be lowered. -/
def Awaits (d : FuncDecl) (bodies : List Pending) (m : Ir.Module) : Prop :=
  d.hasBody = true → ∃ p ∈ bodies, Named d.symbol p.func m

theorem Awaits.mono {d : FuncDecl} {bodies bodies' : List Pending} {m' : Ir.Module}
    (hm : Grows m m')
    (hb : bodies ⊆ bodies') (h : Awaits d bodies m) : Awaits d bodies' m' := by
  intro hd
  obtain ⟨p, hp, hn⟩ := h hd
  exact ⟨p, hb hp, hn.mono _ _ hm⟩

theorem wp_declare_awaits (kind : BodyKind) (d : FuncDecl) (type self : TypeId)
    (hi : s.module.Indexed) :
    wp (declare kind d type self) (fun bodies t => Awaits d bodies t.module) Any s := by
  refine wp_seq (wp_getOrAddFunction_named d.symbol type hi) fun f t ht => ?_
  refine wp_bind_keeping Named.mono (h := frames_modifyFunc f ?_) ht fun _ u hu => ?_
  · exact fun _ => ⟨rfl, rfl, rfl, id⟩
  · intro hd
    rw [if_pos hd]
    exact ⟨{ kind, decl := d, func := f, self }, mem_singleton_self _, hu⟩

theorem indexed_mono (m m' : Ir.Module) (hm : Grows m m') (h : m.Indexed) : m'.Indexed :=
  (hm h).indexed

theorem wp_declareMethod_awaits (self : TypeId) (d : FuncDecl) (hi : s.module.Indexed) :
    wp (declareMethod self d) (fun bodies t => Awaits d bodies t.module) Any s := by
  refine wp_bind_keeping indexed_mono hi fun params t ht => ?_
  refine wp_bind_keeping indexed_mono ht fun result t ht => ?_
  refine wp_bind_keeping indexed_mono ht fun type t ht => ?_
  exact wp_declare_awaits _ d _ _ ht

theorem wp_declareDeinit_awaits (self : TypeId) (d : FuncDecl) (hi : s.module.Indexed) :
    wp (declareDeinit self d) (fun bodies t => Awaits d bodies t.module) Any s := by
  refine wp_bind_keeping indexed_mono hi fun type t ht => ?_
  exact wp_declare_awaits _ d _ _ ht

theorem wp_mapM_awaits {β : Type} {f : β → Build (List Pending)}
    {P : β → FuncDecl → Prop} {bs : List β}
    [hgrows : ∀ b, Frames Grows (f b)] (hf : ∀ b ∈ bs, ∀ s : Builder, s.module.Indexed →
      wp (f b) (fun bodies t => ∀ d, P b d → Awaits d bodies t.module) Any s) (hi :
      s.module.Indexed) :
    wp (bs.mapM f) (fun bodies t => ∀ b ∈ bs, ∀ d, P b d →
      Awaits d bodies.flatten t.module) Any s := by
  induction bs generalizing s with
  | nil =>
    simp
  | cons b bs ih =>
    rw [mapM_cons, wp_bind]
    have hrest : Frames Grows (bs.mapM f) := .mapM
    refine wp_imp ((hgrows b).wp_and (hf b mem_cons_self s hi)) fun bodies t ⟨ht, hd⟩ => ?_
    refine wp_seq (hrest.wp_and (ih (forall_mem_cons.mp hf).2 (ht hi).indexed))
      fun more u ⟨hu, hds⟩ => ?_
    intro c hc d hcd
    obtain rfl | hc := mem_cons.mp hc
    · exact (hd d hcd).mono hu (by simp)
    · exact (hds c hc d hcd).mono (refl_of Grows _) (by simp)

theorem wp_declareStructFunctions_awaits (d : TypeDecl) (hi : s.module.Indexed) :
    wp (declareStructFunctions d)
      (fun bodies t => ∀ f, d.code = 0 ∧ (f ∈ d.methods ∨ d.deinit = some f) →
      Awaits f bodies t.module) Any s := by
  unfold declareStructFunctions
  rw [wp_ite]
  refine ⟨fun hc => fun f hf => absurd hf.1 hc, fun _ => ?_⟩
  rw [wp_bind, wp_types]
  refine wp_bind_keeping indexed_mono hi fun value t ht => ?_
  have hmethods := wp_mapM_awaits (P := fun b d => d = b)
    (fun m (_ : m ∈ d.methods) u hu =>
      wp_imp (wp_declareMethod_awaits ((s.module.types.nominal? d.name).getD .none) m hu)
      fun _ _ h _ heq => heq ▸ h) ht
  have hgrows : Frames Grows
      (d.methods.mapM (declareMethod ((s.module.types.nominal? d.name).getD .none))) :=
    .mapM
  refine wp_seq (hgrows.wp_and hmethods) fun methods u ⟨hu, hm⟩ => ?_
  -- From here on the methods wait; what remains only adds to the bodies.
  have hwait (m m' : Ir.Module) (hm' : Grows m m') :
      (m.Indexed ∧ ∀ f ∈ d.methods, Awaits f methods.flatten m) →
      (m'.Indexed ∧ ∀ f ∈ d.methods, Awaits f methods.flatten m') := fun h =>
    ⟨indexed_mono _ _ hm' h.1, fun f hf => (h.2 f hf).mono hm' fun _ h => h⟩
  refine wp_bind_keeping hwait ⟨indexed_mono _ _ hu ht, fun f hf => hm f hf f rfl⟩
    fun inits v hv => ?_
  have hend (fieldwise : List Pending) (w : Builder)
      (hw : w.module.Indexed ∧ ∀ f ∈ d.methods, Awaits f methods.flatten w.module) :
      wp (do
          let deinit ← d.deinit.toList.mapM
            (declareDeinit ((s.module.types.nominal? d.name).getD .none))
          return methods.flatten ++ inits.flatten ++ fieldwise ++ deinit.flatten)
        (fun bodies t => ∀ f, d.code = 0 ∧ (f ∈ d.methods ∨ d.deinit = some f) →
          Awaits f bodies t.module)
        Any w := by
    have hdeinit := wp_mapM_awaits (P := fun b d => d = b)
      (fun m (_ : m ∈ d.deinit.toList) u hu =>
        wp_imp (wp_declareDeinit_awaits ((s.module.types.nominal? d.name).getD .none) m hu)
        fun _ _ h _ heq => heq ▸ h) hw.1
    have hgrows' : Frames Grows
        (d.deinit.toList.mapM (declareDeinit ((s.module.types.nominal? d.name).getD .none))) :=
      .mapM
    refine wp_seq (hgrows'.wp_and hdeinit) fun deinit x ⟨hx, hd⟩ => ?_
    intro f hf
    obtain hf | hf := hf.2
    · exact (hw.2 f hf).mono hx (by simp)
    · exact (hd f (by rw [hf]; exact mem_singleton_self _) f rfl).mono (refl_of Grows _)
        (subset_append_right _ _)
  rw [wp_ite]
  refine ⟨fun _ => hend [] v hv, fun _ => ?_⟩
  exact wp_bind_keeping hwait hv fun fieldwise w hw => hend fieldwise w hw

theorem wp_declareFunctions_awaits (hi : s.module.Indexed) : wp (declareFunctions tree)
      (fun bodies t => t.module.Indexed ∧ ∀ d ∈ tree.types, ∀ f, d.code = 0 ∧
      (f ∈ d.methods ∨ d.deinit = some f) →
        Awaits f bodies t.module) Any s := by
  refine wp_bind_keeping indexed_mono hi fun free t ht => ?_
  have hgrows : Frames Grows (tree.types.mapM declareStructFunctions) := .mapM
  have hwait := wp_mapM_awaits (fun d (_ : d ∈ tree.types) u hu =>
    wp_declareStructFunctions_awaits d hu) ht
  refine wp_seq (hgrows.wp_and hwait) fun owned u ⟨hu, hd⟩ => ?_
  exact ⟨indexed_mono _ _ hu ht, fun d hmem f hf =>
    (hd d hmem f hf).mono (refl_of Grows _) (by simp)⟩

/-! ### Whole modules -/

/-- The methods and deinitialisers of a tree that have bodies have them in the module. -/
def MembersBodied (tree : Tree.Module) (m : Ir.Module) : Prop :=
  ∀ d ∈ tree.types, ∀ f, d.code = 0 ∧ (f ∈ d.methods ∨ d.deinit = some f) → f.hasBody = true →
    ∃ id, Named f.symbol id m ∧ Bodied id m

theorem MembersBodied.mono {tree : Tree.Module} (m m' : Ir.Module) (hm : Grows m m')
    (h : MembersBodied tree m) :
    MembersBodied tree m' := by
  intro d hd f hf hbody
  obtain ⟨id, hn, hb⟩ := h d hd f hf hbody
  exact ⟨id, hn.mono _ _ hm, hb.mono _ _ hm⟩

theorem wp_bareBodies (int bool : TypeId) {bodies : List Pending}
    (hs : s.module.Indexed) : wp (bodies.forM (bareBody int bool))
      (fun _ t => ∀ p ∈ bodies, ∀ name, Named name p.func s.module →
      Bodied p.func t.module) Any s := by
  induction bodies generalizing s with
  | nil => simp
  | cons p bodies ih =>
    have hfirst : Frames Grows (bareBody int bool p) := frames_bareBody _ _ p
    have hrest : Frames Grows (bodies.forM (bareBody int bool)) := .forM
    have hbody : wp (bareBody int bool p)
        (fun _ t => ∀ name, Named name p.func s.module → Bodied p.func t.module) Any s := by
      by_cases h : ∃ name, Named name p.func s.module
      · obtain ⟨name, hn⟩ := h
        exact wp_imp (wp_bareBody_bodied int bool hn) fun _ _ hb _ _ => hb
      · exact wp_mono (frames_iff_wp.mp hfirst s) (fun _ _ _ name hn => absurd ⟨name, hn⟩ h)
          fun _ _ _ => trivial
    refine wp_seq (hfirst.wp_and hbody) fun _ t ⟨ht, hp⟩ => ?_
    refine wp_imp (hrest.wp_and (ih (ht hs).indexed)) fun _ u ⟨hu, hall⟩ => ?_
    intro q hq name hn
    obtain rfl | hq := mem_cons.mp hq
    · exact (hp name hn).mono _ _ hu
    · exact hall q hq name (hn.mono _ _ ht)

theorem indexed_of_declares (m m' : Ir.Module) (hm : Declares m m') (h : m.Indexed) :
    m'.Indexed := by
  have horder : m'.order = m.order := congrArg Outline.order hm.outline
  have hsize : m'.funcs.entries.size = m.funcs.entries.size := by
    have := congrArg (fun o => o.funcs.entries.size) hm.outline
    simpa [Module.outline] using this
  intro f hf
  rw [hsize]
  exact h f (horder ▸ hf)

theorem wp_bareModule_bodied (name : Text) (library : Bool) (hs : s.module.Indexed) :
    wp (bareModule tree name library) (fun _ t => MembersBodied tree t.module) Any s := by
  refine wp_bareModule_of_bodies MembersBodied.mono fun int bool s' hs' => ?_
  rw [wp_bind]
  refine wp_bind_keeping indexed_of_declares (indexed_of_declares _ _ hs' hs) fun _ b hb => ?_
  refine wp_bind_keeping indexed_of_declares hb fun _ b hb => ?_
  refine wp_seq (wp_declareTypes tree.types) fun _ c hc => ?_
  refine wp_imp (wp_declareFunctions_awaits tree (indexed_of_declares _ _ hc.1 hb))
    fun bodies e ⟨hi, hwait⟩ => ?_
  have hgrows : Frames Grows (bodies.forM (bareBody int bool)) := .forM
  refine wp_imp (hgrows.wp_and (wp_bareBodies int bool hi)) fun _ t ⟨ht, hall⟩ => ?_
  intro d hd f hf hbody
  obtain ⟨p, hp, hn⟩ := hwait d hd f hf hbody
  exact ⟨p.func, hn.mono _ _ ht, hall p hp _ hn⟩

theorem members_bodied {tree : Tree.Module} {options : Options} {tracer : Trace.Tracer}
    {parent : UInt64}
    (h : (generate tree options tracer parent).1 = .ok m) : MembersBodied tree m :=
  holds_of_generate h fun name =>
    wp_bareModule_bodied tree name options.library fun _ h => absurd h not_mem_nil

end Midlevel.Lowering
