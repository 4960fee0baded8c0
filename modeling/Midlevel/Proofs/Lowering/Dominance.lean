import Midlevel.Proofs.Lowering.Bodies
import Midlevel.Proofs.Lowering.Boxes

/-!
Whole modules. The types and functions of a tree are declared before any code is written, and the
bodies are written one after the other, so what one body leaves behind is what the next one starts
from. Of the module that results, every block can be reached from the entry of its function, and
every value that is read was defined on all ways to where it is read.
-/

namespace Midlevel.Lowering

open Ir Midlevel.Tree Ir.Build List

variable {α β : Type} {env : Env} {av : Avail} {b : BlockId} {s t : Builder} {τ : Site}
variable {f : FuncId}
variable {x : Build α} {ps : List Pending} {p : Pending} (methods : Methods) (int bool : TypeId)
  (place : Text)
  (tree : Tree.Module) (self : TypeId) (d : FuncDecl)

/-! ### Declared functions -/

/-- The function of a body is there, and takes self if the body asks for it. -/
structure Pending.Ready (m : Ir.Module) (p : Pending) : Prop where
  has : m.HasValue (.func p.func)
  self : p.kind = .method ∨ p.kind = .deinitialiser → m.types.TakesSelf (m.funcs.get p.func).type

theorem Pending.Ready.mono (h : p.Ready s.module) (ht : s.Resumes t) : p.Ready t.module := by
  have htype : (t.module.funcs.get p.func).type = (s.module.funcs.get p.func).type :=
    ht.prolongs.type (.func p.func) h.has
  refine ⟨ht.prolongs.has (.func p.func) h.has, fun hk => ?_⟩
  rw [htype]
  exact ht.types.takesSelf (h.self hk)

abbrev AllReady (ps : List Pending) (s : Builder) : Prop := ∀ p ∈ ps, p.Ready s.module

theorem AllReady.mono (h : AllReady ps s) (ht : s.Resumes t) : AllReady ps t :=
  fun p hp => (h p hp).mono ht

theorem AllReady.flatten {pss : List (List Pending)} (h : ∀ ps ∈ pss, AllReady ps s) :
    AllReady pss.flatten s := by
  intro p hp
  obtain ⟨ps, hps, hp⟩ := mem_flatten.mp hp
  exact h ps hps p hp

theorem AllReady.append {qs : List Pending} (h : AllReady ps s) (h' : AllReady qs s) :
    AllReady (ps ++ qs) s :=
  fun p hp => (mem_append.mp hp).elim (h p) (h' p)

theorem resuming_function (sig : Signature) : Resuming (Build.onTypes (·.function sig))
    (fun type t => sig.conv = .method ∨ sig.conv = .deinitialiser →
      t.module.types.TakesSelf type) s := by
  rintro ⟨av, hs⟩
  have hnames := (names_onTypes fun t => t.extends_function sig).resuming ⟨av, hs⟩
  exact ⟨hnames.1, TypeTable.takesSelf_function hs.tidy.rooted⟩

theorem resuming_declare (kind : BodyKind) (d : FuncDecl) (type self : TypeId)
    (hself : kind = .method ∨ kind = .deinitialiser → s.module.types.TakesSelf type) :
    Resuming (declare kind d type self) AllReady s := by
  refine (resuming_getOrAddFunction d.symbol type).bind fun f t ht ⟨hf, htype⟩ => ?_
  refine Resuming.bind (resuming_annotate (fun _ => ⟨rfl, rfl, rfl, rfl⟩) (fun _ => ⟨rfl, rfl⟩) hf)
    fun _ u hu _ => .pure ?_
  have hready : Pending.Ready u.module { kind, decl := d, func := f, self } := by
    refine Pending.Ready.mono ⟨hf, fun hk => ?_⟩ hu
    rw [htype]
    exact ht.types.takesSelf (hself hk)
  intro p hp
  split at hp
  · exact mem_singleton.mp hp ▸ hready
  · cases hp

theorem names_withinParams (params : List Tree.Param) :
    Names (within place (resolveParams params)) :=
  names_within _ (names_resolveParams _)

theorem names_withinType (t : TypeRef) : Names (within place (resolveType t)) :=
  names_within _ (names_resolveType _)

theorem resuming_declareFree : Resuming (declareFree d) AllReady s := by
  refine (names_withinParams _ _).resuming.bind fun params _ _ _ => ?_
  refine (names_withinType _ _).resuming.bind fun result _ _ _ => ?_
  exact (resuming_function _).bind fun _ _ _ hconv => resuming_declare _ d _ _ fun hk => by
    simp at hk

theorem resuming_declareMethod : Resuming (declareMethod self d) AllReady s := by
  refine (names_withinParams _ _).resuming.bind fun params _ _ _ => ?_
  refine (names_withinType _ _).resuming.bind fun result _ _ _ => ?_
  exact (resuming_function _).bind fun _ _ _ hconv => resuming_declare _ d _ _ fun _ =>
    hconv (.inl rfl)

theorem resuming_declareInit (result : TypeId) (d : FuncDecl) :
    Resuming (declareInit self result d) AllReady s:= by
  refine (names_withinParams _ _).resuming.bind fun params _ _ _ => ?_
  exact (resuming_function _).bind fun _ _ _ _ => resuming_declare _ d _ _ fun hk => by simp at hk

theorem resuming_declareDeinit : Resuming (declareDeinit self d) AllReady s :=
  (resuming_function _).bind fun _ _ _ hconv => resuming_declare _ d _ _ fun _ => hconv (.inr rfl)

theorem resuming_declareAll {f : β → Build (List Pending)} (hf : ∀ x t, Resuming (f x) AllReady t)
    (xs : List β) :
    Resuming (xs.mapM f) (fun pss t => AllReady pss.flatten t) s :=
  (Resuming.mapM (fun _ _ _ hu h => h.mono hu) fun x _ t _ => hf x t).mono fun _ _ h =>
    AllReady.flatten h

theorem resuming_types {f : TypeTable → Build α} {P : Post α}
    (h : Resuming (f s.module.types) P s) :
    Resuming (Build.types >>= f) P s := h

theorem resuming_declareStructFunctions (d : TypeDecl) :
    Resuming (declareStructFunctions d) AllReady s := by
  unfold declareStructFunctions
  intro hs
  rw [wp_ite]
  refine ⟨fun _ => Resuming.pure (fun _ h => absurd h not_mem_nil) hs, fun _ => ?_⟩
  refine resuming_types ?_ hs
  refine (names_resolveType _).resuming.bind fun value _ _ _ => ?_
  refine (resuming_declareAll (fun d t => resuming_declareMethod _ d) _).bind
    fun methods _ _ hmethods => ?_
  refine (resuming_declareAll (fun d t => resuming_declareInit _ _ d) _).bind
    fun inits t₁ ht₁ hinits => ?_
  have hrest (fieldwise : List Pending) (t₂ : Builder) (ht₂ : t₁.Resumes t₂)
    (hfieldwise : AllReady fieldwise t₂) :
      Resuming (do
        let deinit ← d.deinit.toList.mapM
          (declareDeinit ((s.module.types.nominal? d.name).getD .none))
        return methods.flatten ++ inits.flatten ++ fieldwise ++ deinit.flatten) AllReady t₂ := by
    refine (resuming_declareAll (fun d t => resuming_declareDeinit _ d) _).bind
      fun deinit t₃ ht₃ hdeinit => .pure ?_
    exact (((hmethods.mono ((ht₁.trans ht₂).trans ht₃)).append (hinits.mono (ht₂.trans ht₃))).append
      (hfieldwise.mono ht₃)).append hdeinit
  intro ht
  rw [wp_ite]
  refine ⟨fun _ => ?_, fun _ => ?_⟩
  · exact hrest [] t₁ ⟨ht, .refl _, .rfl⟩ (fun _ h => absurd h not_mem_nil) ht
  · exact (resuming_declareInit _ _ _).bind (fun fieldwise t₂ ht₂ hfieldwise =>
      hrest fieldwise t₂ ht₂ hfieldwise) ht

theorem resuming_declareFunctions : Resuming (declareFunctions tree) AllReady s := by
  refine (resuming_declareAll (fun d t => resuming_declareFree d) _).bind fun free _ _ hfree => ?_
  refine (resuming_declareAll (fun d t => resuming_declareStructFunctions d) _).bind
    fun owned _ ht howned => .pure ?_
  exact (hfree.mono ht).append howned

/-! ### Bodies -/

theorem here_of_begins (env : Env) (h : s.Begins t av f b) (henv : env.func = f) :
    Site.Here { builder := t } env av [] b where
  tidy := h.tidy
  fields _ he := absurd he not_mem_nil
  reached c hc := .inr (h.reached c hc)
  blank _ hc := absurd hc not_mem_nil
  block := h.block
  before := h.before
  func := henv ▸ (h.tidy.sound.shape.blocks.mem_iff f b).mp (mem_of_head? h.head)
  apart := not_mem_nil
  reach := .entry h.head

theorem resumes_of_ends (h : s.Begins t av f b) (hτ : Site.Ends { builder := t } env av τ) :
    s.Resumes τ.builder := by
  obtain ⟨av', hl, hsettled, hidle⟩ := hτ
  have hentered := Builder.Follows.entered ⟨hl.prolongs, hl.types, hl.heads,
    hl.defined⟩ h.tidy h.entered
  refine ⟨⟨av', ⟨hsettled.tidy, fun c hc => ?_, hentered⟩, hidle⟩, h.prolongs.trans hl.prolongs,
    h.types.trans hl.types⟩
  exact (hsettled.reached c hc).resolve_left not_mem_nil

theorem wp_located_fails {place : Text} {x : Build Unit} {Q : Post Unit} (h : wp x Q Fails s) :
    wp (located place x) Q Fails s := by
  refine wp_located ?_ h
  rintro _ _ ⟨e, -⟩
  exact ⟨_, rfl⟩

theorem wp_lowerBody (names : List Text) (hs : s.Rests av) (hf : s.HasValue (.func f))
    (hself : p.kind = .method ∨ p.kind = .deinitialiser →
      s.module.types.TakesSelf (s.module.funcs.get f).type)
    (env : FuncId → Env) (henv : ∀ f, (env f).func = f) :
    wp (do if (← Build.func f).defined then return f else Build.defineAndEnter f names)
      (fun f t => wp ((emitBody p).alone (env f)) (fun _ t => s.Resumes t) Fails t) Fails s := by
  rw [wp_bind, wp_func, wp_ite]
  refine ⟨fun hdefined => ?_, fun _ => ?_⟩
  · obtain ⟨b, hhead, hparams⟩ := hs.entered f hdefined
    rw [wp_pure, Lower.wp_alone]
    refine wp_imp (wp_emitBody_idle hs.idle hs.tidy.sound.linked p fun hk => ?_) fun _ τ hτ => ?_
    · rw [henv, Module.funcParams, hhead]
      exact hparams (hself hk)
    · subst hτ
      exact ⟨⟨av, hs⟩, .refl _, .rfl⟩
  · refine wp_imp (begins_defineAndEnter hs hf names) fun r t hr => ?_
    obtain ⟨rfl, av', b, ht⟩ := hr
    rw [Lower.wp_alone]
    exact wp_imp (wp_emitBody p (here_of_begins _ ht (henv r)) ((henv r).symm ▸ ht.head) fun hk =>
      ht.self hf (hself hk))
      fun _ τ hτ => resumes_of_ends ht hτ

theorem wp_bareBody (hs : ∃ av, s.Rests av) (hp : p.Ready s.module) :
    wp (bareBody int bool p) (fun _ t => s.Resumes t) Fails s := by
  unfold bareBody
  rw [wp_bind]
  refine wp_located_fails ?_
  rw [wp_bind]
  show wp ((fun _ => PUnit.unit) <$> resolveParams p.decl.params) _ _ _
  rw [wp_map]
  refine wp_imp ((names_resolveParams _).resuming hs) fun _ s₁ hs₁ => ?_
  have h₁ := hs₁.1
  rw [wp_bind, getOrBuildFunction, wp_bind]
  refine wp_imp (resuming_getOrAddFunction _ _ h₁.rests) fun f s₂ hs₂ => ?_
  obtain ⟨h₂, hf, htype⟩ := hs₂
  obtain ⟨av, hs₂⟩ := h₂.rests
  have hself (hk : p.kind = .method ∨ p.kind = .deinitialiser) :
      s₂.module.types.TakesSelf (s₂.module.funcs.get f).type := by
    rw [htype]
    exact (h₁.trans h₂).types.takesSelf (hp.self hk)
  have hbody := wp_lowerBody (p.decl.params.map (·.name)) hs₂ hf hself
    (fun f => { int, bool, func := f, initialising := p.kind = .initialiser }) fun _ => rfl
  exact wp_imp hbody fun _ t ht => wp_imp ht fun _ u hu => (h₁.trans h₂).trans hu

theorem wp_bareBodies_rests (hs : ∃ av, s.Rests av) (hps : AllReady ps s) :
    wp (ps.forM (bareBody int bool)) (fun _ t => s.Resumes t) Fails s := by
  refine wp_forM_of_each s.Resumes (fun p hp t ht => ?_) ⟨hs, .refl _, .rfl⟩ fun _ ht => ht
  exact wp_imp (wp_bareBody int bool ht.rests ((hps p hp).mono ht)) fun _ _ hu => ht.trans hu

theorem wp_bareMain (stmts : List Stmt) (hs : ∃ av, s.Rests av) :
    wp (bareMain int bool stmts) (fun _ t => s.Resumes t) Fails s := by
  refine wp_located_fails ?_
  rw [wp_bind, wp_bind]
  refine wp_imp ((names_onTypes fun t => t.extends_freeFunction _ _).resuming hs)
    fun type s₁ ⟨h₁, _⟩ => ?_
  rw [wp_bind, buildFunction, wp_bind]
  refine wp_imp (resuming_addFunction _ type h₁.rests) fun f s₂ hs₂ => ?_
  obtain ⟨h₂, hf, htype⟩ := hs₂
  obtain ⟨av, hs₂⟩ := h₂.rests
  refine wp_imp (begins_defineAndEnter hs₂ hf []) fun r t ⟨hr, av', b, ht⟩ => ?_
  subst hr
  have hr : t.HasValue (.func r) := ht.prolongs.has (.func r) hf
  have hmain := ht.annotate (g := ({ · with visibility := .exported })) hr
      (fun _ => ⟨rfl, rfl, rfl, rfl⟩) fun _ =>
    ⟨rfl, rfl⟩
  rw [wp_bind, wp_modifyFunc, wp_pure, Lower.wp_alone]
  have hhere := here_of_begins { int, bool, func := r } hmain rfl
  have hscope (w : View) : Vars.Usable w av' b [[]] :=
    forall_mem_cons.mpr ⟨by simp, by simp⟩
  exact wp_imp (hhere.wp_stmts (hscope _) stmts .free) fun _ τ hτ =>
    (h₁.trans h₂).trans (resumes_of_ends hmain hτ)

/-! ### Declared types -/

/-- From `s` to `t` types were declared, and nothing else happened. -/
def DeclaresTypes (s t : Builder) : Prop :=
  ∃ types typeDecls, (s.module.types.Rooted → types.Rooted) ∧
    (s.module.types.Complete → types.Complete) ∧
    t = { s with module := { s.module with types, typeDecls } }

theorem DeclaresTypes.trans {u : Builder} (h : DeclaresTypes s t) (h' : DeclaresTypes t u) :
    DeclaresTypes s u := by
  obtain ⟨types, decls, hr, hc, rfl⟩ := h
  obtain ⟨types', decls', hr', hc', rfl⟩ := h'
  exact ⟨types', decls', hr' ∘ hr, hc' ∘ hc, rfl⟩

instance : IsPreorder Builder DeclaresTypes where
  refl s := ⟨s.module.types, s.module.typeDecls, id, id, rfl⟩
  trans _ _ _ h h' := h.trans h'

/-- `x` only declares types, and fails only with an error. -/
abbrev Typing (x : Build α) : Prop := Moves DeclaresTypes x

namespace Typing

theorem foldlM {f : α → β → Build α} (hf : ∀ a x, Typing (f a x)) (a : α) (xs : List β) :
    Typing (xs.foldlM f a) := by
  induction xs generalizing a with
  | nil => exact .pure a
  | cons x xs ih =>
    exact (hf a x).bind ih

theorem forM {f : β → Build PUnit} (hf : ∀ x, Typing (f x)) (xs : List β) : Typing (xs.forM f) := by
  induction xs with
  | nil => exact .pure _
  | cons x xs ih => exact (hf x).bind fun _ => ih

end Typing

theorem typing_of_names (hx : Names x) : Typing x := by
  refine fun s => wp_imp (hx s) ?_
  rintro - _ ⟨types, hext, rfl⟩
  exact ⟨types, s.module.typeDecls, hext.rooted, hext.complete, rfl⟩

theorem typing_declareType (t : TypeId) : Typing (Build.declareType t) := by
  intro s
  refine ⟨s.module.types, if t ∈ s.module.typeDecls then s.module.typeDecls
    else s.module.typeDecls ++ [t], id, id, ?_⟩
  show { s with module := if t ∈ s.module.typeDecls then s.module
    else { s.module with typeDecls := s.module.typeDecls ++ [t] } } = _
  split <;> rfl

theorem typing_setTypes {f : TypeTable → TypeTable} (hd : ∀ t, (f t).descs = t.descs)
    (hc : ∀ t : TypeTable, t.Complete → (f t).Complete) : Typing (setTypes f) := fun s =>
  ⟨f s.module.types, s.module.typeDecls, fun hr => (congrArg (·[0]?) (hd s.module.types)).trans hr,
    hc _, rfl⟩

theorem typing_declareName (d : TypeDecl) : Typing (declareName d) := by
  refine Moves.types.bind fun types => ?_
  have hend (t : TypeId) : Typing (do declareType t; return t) :=
    (typing_declareType t).bind fun _ => .pure _
  have hdeclare := Moves.ite (c := d.isConcept = true)
    ((typing_of_names (names_onTypes fun t =>
      t.extends_declareConcept { name := d.name, methods := [] })).bind hend)
    ((typing_of_names (names_onTypes fun t =>
      t.extends_declareStruct { name := d.name, fields := [], heap := d.heap })).bind hend)
  exact .ite ((Moves.fail _).bind fun _ => hdeclare) hdeclare

theorem typing_resolveMembers (fields : List Field) : Typing (resolveMembers place fields) :=
  .mapM fun _ _ => (typing_of_names (names_withinType _ _)).bind fun _ => .pure _

theorem typing_conceptMethod (concept : Text) (d : FuncDecl) :
    Typing (conceptMethod self concept d) :=
  (typing_of_names (names_withinParams _ _)).bind fun _ =>
      (typing_of_names (names_withinType _ _)).bind fun _ =>
    (typing_of_names (names_onTypes fun t => t.extends_function _)).bind fun _ => .pure _

theorem typing_declareMembers (t : TypeId) (d : TypeDecl) : Typing (declareMembers methods t d):= by
  refine .ite ?_ ?_
  · refine (Moves.mapM fun m _ => typing_conceptMethod t d.name m).bind fun ms => ?_
    refine (typing_setTypes (by intro _; rfl) fun _ h => h.setMethods t ms).bind fun _ => ?_
    refine (typing_resolveMembers _ _).bind fun ps => ?_
    exact (typing_setTypes (by intro _; rfl) fun _ h => h.setProperties t ps).bind fun _ => .pure _
  · refine (typing_resolveMembers _ _).bind fun fs => ?_
    exact (typing_setTypes (by intro _; rfl) fun _ h => h.setFields t fs).bind fun _ => .pure _

theorem typing_checkConformance (t : TypeId) (d : TypeDecl) (concept : Text) :
    Typing (checkConformance methods t d concept) := by
  refine Moves.types.bind fun types => ?_
  split
  · exact .fail _
  · refine Moves.types.bind fun types => ?_
    split
    · exact .pure _
    · exact .fail _

theorem typing_declareTypes (decls : List TypeDecl) : Typing (declareTypes decls) := by
  refine (Moves.mapM fun d _ => typing_declareName d).bind fun ids => ?_
  refine (Typing.foldlM (fun methods p => ?_) _ _).bind fun methods => Typing.forM (fun p => ?_) _
  · exact typing_declareMembers methods p.1 p.2
  · exact Typing.forM (typing_checkConformance methods p.1 p.2) _

/-! ### Whole modules -/

/-- Before any function is declared there is nothing to reach and nothing to read. -/
theorem rests_of_types (name : Text) {types : TypeTable} (typeDecls : List TypeId)
    (hr : types.Rooted)
    (hc : types.Complete) :
    Builder.Rests { module := { blank name with types, typeDecls } } fun _ _ => False := by
  have hsound : Builder.Sound { module := { blank name with types, typeDecls } } := by
    have hdress := keeps_dress (Built.new name).sound types [.library, .objectRuntime] typeDecls
    exact hdress.sound
  generalize hm : { blank name with types, typeDecls } = m at hsound ⊢
  have hinst (i : InstId) : m.insts.get i = default := by
    rw [← hm]
    exact Pool.get_of_not_has (Nat.not_lt_zero _)
  have hblock (b : BlockId) : m.blocks.get b = default := by
    rw [← hm]
    exact Pool.get_of_not_has (Nat.not_lt_zero _)
  have hfunc (f : FuncId) : m.funcs.get f = default := by
    rw [← hm]
    exact Pool.get_of_not_has (Nat.not_lt_zero _)
  have hinsts (b : BlockId) : (m.view.block b).insts = [] := congrArg Block.insts (hblock b)
  have hopens (b : BlockId) : m.view.opens b = [] := by
    show (m.openEdges b).map _ = []
    rw [Module.openEdges, hblock]
    rfl
  have hordered : m.view.Ordered fun _ _ => False := by
    refine ⟨fun b i hi => ?_, fun b hb => absurd (hinsts b) hb, fun i => .inr ⟨?_, ?_, ?_⟩,
      fun b pre i post hb => ?_,
      fun b i hi => ?_, fun _ _ h => h.elim, fun _ _ h => h.elim, fun _ _ _ _ h => h,
        fun b args hargs => ?_,
      fun i e he => ?_⟩
    · exact absurd (hinsts b ▸ hi) not_mem_nil
    · exact congrArg Inst.block (hinst i)
    · exact map_eq_nil_iff.mpr (congrArg Inst.operands (hinst i))
    · exact map_eq_nil_iff.mpr (congrArg Inst.targets (hinst i))
    · rw [hinsts b] at hb
      exact absurd hb.symm (by simp)
    · exact absurd (hinsts b ▸ hi) not_mem_nil
    · exact absurd (hopens b ▸ hargs) not_mem_nil
    · rw [hinst i] at he
      cases he
  refine ⟨⟨⟨hsound, hordered, fun i hi => ?_, hm ▸ hr, hm ▸ hc, fun f hf => ?_⟩, fun c hc => ?_,
    fun f hf => ?_⟩, fun b hb => ?_⟩
  · rw [← hm] at hi
    exact absurd hi (Nat.not_lt_zero _)
  · rw [← hm] at hf
    exact absurd hf (Nat.not_lt_zero _)
  · exact absurd (congrArg Block.func (hblock c)) hc
  · rw [hfunc f] at hf
    cases hf
  · cases hb

theorem wp_bareModule_rests (name : Text) (library : Bool) :
    wp (bareModule tree name library)
    (fun _ t => (∃ av, t.Rests av) ∧ t.module.verify = .ok none) Fails
      { module := blank name } := by
  unfold bareModule
  have hlibrary : Typing (onTypes libraryTypes) :=
    typing_of_names (names_onTypes fun t => TypeTable.extends_libraryTypes t)
  rw [wp_bind]
  refine wp_imp (hlibrary _) fun r s₁ h₁ => ?_
  obtain ⟨int, bool⟩ := r
  rw [wp_bind, declareAll, wp_bind]
  refine wp_imp (typing_declareType int _) fun _ s₂ h₂ => ?_
  refine wp_seq (typing_declareType bool _) fun _ s₃ h₃ => ?_
  refine wp_seq (typing_declareTypes tree.types _) fun _ s₄ h₄ => ?_
  obtain ⟨types, typeDecls, hrooted, hcomplete, rfl⟩ := ((h₁.trans h₂).trans h₃).trans h₄
  have hrests := rests_of_types name typeDecls (hrooted TypeTable.rooted_initial)
    (hcomplete TypeTable.complete_initial)
  refine wp_imp (resuming_declareFunctions tree ⟨_, hrests⟩) fun bodies s₅ ⟨h₅, hready⟩ => ?_
  refine wp_seq (wp_bareBodies_rests int bool h₅.rests hready) fun _ t₆ h₆ => ?_
  -- whether or not there is a main function, the builder rests when the module is verified
  split
  case' isTrue =>
    refine wp_seq (wp_bareMain int bool tree.main h₆.rests) fun _ _ h₇ => ?_
    obtain ⟨av, hend⟩ := h₇.rests
  case' isFalse => obtain ⟨av, hend⟩ := h₆.rests
  all_goals
    rw [wp_bind, wp_clearCursor, wp_bind, wp_get]
    obtain ⟨r, hr⟩ := hend.tidy.sound.linked.verify_ok
    rw [hr]
    cases r with
    | none =>
      exact ⟨⟨av, ⟨hend.tidy.moveCursor _, hend.reached, hend.entered⟩, nofun⟩, hr⟩
    | some e => exact ⟨_, rfl⟩

/-- Lowering a tree leaves a verified module in which all code can be reached, or fails with an
error. -/
theorem generate_cases (options : Options) (tracer : Trace.Tracer) (parent : UInt64) :
    (∃ (s : Builder) (av : _), (generate tree options tracer parent).1 = .ok s.module ∧ s.Rests av ∧
      s.module.verify = .ok none) ∨
      ∃ e, (generate tree options tracer parent).1 = .error (.error e) := by
  rw [generate_eq]
  generalize (if options.name = [] then tree.name else options.name) = name
  have hwp := wp_bareModule_rests tree name options.library
  unfold wp at hwp
  dsimp only
  split at hwp
  · next a t hrun =>
    obtain ⟨⟨av, ht⟩, hverify⟩ := hwp
    rw [hrun]
    exact .inl ⟨t, av, rfl, ht, hverify⟩
  · next f t hrun =>
    obtain ⟨e, rfl⟩ := hwp
    rw [hrun]
    exact .inr ⟨e, rfl⟩

/-! ### Dominance -/

/-- What can be reached can be reached inside its function: branches do not leave it. -/
theorem reachable_of_reached {w : View} (hs : w.Shape) (ho : w.Ordered av)
    (hverified : ∀ f, (w.func f).blocks ≠ [] → w.Verified f) (hb : w.Reached b)
    (hf : (w.block b).func = some f) : (w.graph f).Reachable b := by
  induction hb generalizing f with
  | @entry g b hhead =>
    obtain rfl : g = f := Option.mem_unique ((hs.blocks.mem_iff g b).mp (mem_of_head? hhead)) hf
    have hentry : (w.graph g).entry = b := by
      show (w.func g).blocks.head?.getD default = b
      rw [hhead]
      rfl
    exact hentry ▸ .entry _
  | @step b t _ hleads ih =>
    obtain ⟨i, hi, x, hx, ht⟩ := hleads
    obtain ⟨g, hg⟩ := Option.ne_none_iff_exists'.mp (ho.housed b (ne_nil_of_mem hi)).2
    have hinst : w.instFunc i = some g := by
      rw [View.instFunc, hs.insts.placed i b hi]
      exact hg
    have hblocks : (w.func g).blocks ≠ [] := ne_nil_of_mem ((hs.blocks.mem_iff g b).mpr hg)
    obtain ⟨t', ht', hfunc, -⟩ := (hverified g hblocks).exits i hinst x hx
    obtain rfl := Option.mem_unique ht ht'
    obtain rfl := Option.mem_unique hfunc hf
    exact (ih hg).step ⟨w.line i, mem_map_of_mem hi, x, hx, ht⟩

theorem sound_of_generate {tree : Tree.Module} {options : Options} {tracer : Trace.Tracer}
    {parent : UInt64} {m : Ir.Module} (h : (generate tree options tracer parent).1 = .ok m) :
    Builder.Sound { module := m } := by
  rcases generate_cases tree options tracer parent with ⟨s, av, hs, hrests, -⟩ | ⟨e, he⟩
  · obtain rfl := Except.ok.inj (hs.symm.trans h)
    have hsound := hrests.tidy.sound
    exact ⟨hsound.linked, hsound.shape, hsound.ended, nofun⟩
  · cases he.symm.trans h

theorem generated_code_dominated {tree : Tree.Module} {options : Options} {tracer : Trace.Tracer}
    {parent : UInt64}
    {m : Ir.Module} (h : (generate tree options tracer parent).1 = .ok m) {f : FuncId}
    (hf : (m.funcs.get f).defined = true) :
    (∀ b ∈ (m.funcs.get f).blocks, (m.view.graph f).Reachable b) ∧ (m.view.graph f).Dominated := by
  rcases generate_cases tree options tracer parent with ⟨s, av, hs, hrests, hverify⟩ | ⟨e, he⟩
  · obtain rfl := Except.ok.inj (hs.symm.trans h)
    have hshape := hrests.tidy.sound.shape
    have hordered := hrests.tidy.ordered
    have hverified (g : FuncId) (hg : (s.module.view.func g).blocks ≠ []) :
        s.module.view.Verified g := by
      have hdefined : (s.module.funcs.get g).defined = true := by
        by_contra hnot
        exact hg (hshape.blocks.undefined g (Bool.not_eq_true _ ▸ hnot))
      have horder := (hrests.tidy.func g (Module.hasFunc_of_defined hdefined)).2.2
      exact Module.verified_of_verifyFunc hrests.tidy.sound.linked hshape
        hrests.tidy.sound.ended.listed hdefined
        (Module.verify_eq_none.mp hverify g horder)
    obtain ⟨b, hhead, -⟩ := hrests.entered f hf
    refine ⟨fun c hc => ?_, (hordered.available hhead).dominated (hshape.unique f)⟩
    have hfunc : (s.module.view.block c).func = some f := (hshape.blocks.mem_iff f c).mp hc
    exact reachable_of_reached hshape hordered hverified (hrests.reached c (hfunc ▸ nofun)) hfunc
  · cases he.symm.trans h

/-- A loop that an inner branch may leave early, by one way or the other. -/
def earlyExits : Tree.Module where
  name := "m"
  library := true
  funcs := [
    .define "f" "f" [{ name := "c", type := .bool }, { name := "n", type := .int }] .int [
      .forLoop "i" (.intLit 0) (.varRef "n" .int) [
        .letVar "j" (.varRef "i" .int),
        .chain [.when (.varRef "c" .bool) [.ret (some (.varRef "j" .int))],
          .otherwise [.ret (some (.varRef "n" .int))]]],
      .whileLoop (.varRef "c" .bool) [.letVar "k" (.varRef "n" .int)],
      .ret (some (.varRef "n" .int))]]

theorem early_exits_dominated : ∃ m f, (generate earlyExits {} .off 0).1 = .ok m ∧
    (m.funcs.get f).defined = true ∧ (m.funcs.get f).blocks.length = 9 ∧
    (∀ b ∈ (m.funcs.get f).blocks, (m.view.graph f).Reachable b) ∧ (m.view.graph f).Dominated := by
  have h : checked (generate earlyExits {} .off 0).1 (fun m => (m.funcNamed? "f").any fun f =>
      decide ((m.funcs.get f).defined = true ∧ (m.funcs.get f).blocks.length = 9)) = true :=
        by decide +kernel
  obtain ⟨m, f, hm, -, hdefined, hlength⟩ := exists_func_of_checked h
  exact ⟨m, f, hm, hdefined, hlength, generated_code_dominated hm hdefined⟩

end Midlevel.Lowering
