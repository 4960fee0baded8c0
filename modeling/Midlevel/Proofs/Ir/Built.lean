import Midlevel.Proofs.Ir.Ended
import Midlevel.Proofs.Ir.Constructors

/-!
What holds of every module that was built with the builder. `Operation` lists the operations, on
handles that the module has given out, and `Built` is closed under them. Every operation that does
not crash keeps the links of the module and is made up of changes that keep its shape, so a module
that was built has both.
-/

namespace Midlevel.Ir

open Build View Midlevel.Ir.Module View.Growth View.Change Builder
open Option (mem_unique some.inj)
open List (length_map map_map nodup_nil)

variable {b : BlockId} {c : Cursor} {E : Post Fault} {f : FuncId} {i : InstId} {m m' : Module}
variable {x : Inst} {vs : Args} {op : Opcode}
variable {u : Builder} {args : Args} {Q : Post Unit} {bs : List BlockId}
  {side : BlockId → List BlockId} {v : Option Value}

/-- The links and the shape of a module, where its instructions stand, and a journal of instructions
that exist. -/
structure Builder.Sound (s : Builder) : Prop where
  linked : s.module.Linked
  shape : s.view.Shape
  ended : s.view.Ended
  journal : ∀ is, s.journal = some is → ∀ i ∈ is, s.module.HasValue (.inst i)

/-- `t` is sound, and what it says came about by changes of what `s` says. -/
structure Builder.Extends (s t : Builder) : Prop where
  sound : t.Sound
  changes : s.view.Changes t.view

/-- The changes only added to the module. The cursor is where it was, and what is new in the journal
stood in no block. -/
structure Builder.Adds (s t : Builder) : Prop where
  sound : t.Sound
  growths : s.module.view.Growths t.module.view
  cursor : t.cursor = s.cursor
  journal : ∃ is, t.journal = s.journal.map (· ++ is) ∧
    ∀ i ∈ is, (s.module.view.inst i).block = none

/-- An error is reported in a builder that is still sound, and no crash is the fault of the use
lists. -/
structure Builder.Survives (s : Builder) (f : Fault) (t : Builder) : Prop where
  extends_of_error : ∀ e, f = .error e → s.Extends t
  uncorrupted : f ≠ .crash .corruptUses

/-- An error is reported in a builder that has not changed, apart from its types. -/
structure Builder.Refuses (s : Builder) (f : Fault) (t : Builder) : Prop where
  gains : ∀ e, f = .error e → s.Gains t
  uncorrupted : f ≠ .crash .corruptUses

/-- Short of a crash, `x` keeps the builder sound. -/
def Keeps {α : Type} (x : Build α) (s : Builder) : Prop :=
  wp x (fun _ t => s.Extends t) s.Survives s

/-- The same, and `x` changes nothing if it fails. -/
def Tries {α : Type} (x : Build α) (s : Builder) : Prop := wp x (fun _ t => s.Extends t) s.Refuses s

/-- The same, and `x` only adds to the module. -/
def Builds {α : Type} (x : Build α) (s : Builder) : Prop := wp x (fun _ t => s.Adds t) s.Refuses s

variable {α β : Type} {s t : Builder}

namespace Builder

theorem Sound.extends (h : s.Sound) : s.Extends s := ⟨h, .refl⟩

theorem Extends.values (h : s.Extends t) (v : Value) (hv : s.HasValue v) : t.HasValue v :=
  (t.module.hasValue_iff_view v).mpr (h.changes.has ((s.module.hasValue_iff_view v).mp hv))

theorem Extends.survives (h : s.Extends t) (e : Error) : s.Survives (.error e) t :=
  ⟨fun _ _ => h, nofun⟩

theorem refuses (s : Builder) (e : Error) : s.Refuses (.error e) s :=
  ⟨fun _ _ => s.gains_self, nofun⟩

theorem refuses_crash {c : Crash} (hc : c ≠ .corruptUses) : s.Refuses (.crash c) t :=
  ⟨nofun, fun he => hc (Fault.crash.inj he)⟩

theorem Extends.trans (h : s.Extends t) (h' : t.Extends u) : s.Extends u :=
  ⟨h'.sound, h.changes.trans h'.changes⟩

theorem Survives.of_extends {f : Fault} (h : s.Extends t) (h' : t.Survives f u) : s.Survives f u :=
  ⟨fun e he => h.trans (h'.extends_of_error e he), h'.uncorrupted⟩

theorem Sound.extends_of_changes (h : s.Sound) (hl : m'.Linked) (hc : s.view.Changes m'.view) :
    s.Extends { s with module := m', cursor := c } := by
  refine ⟨⟨hl, hc.shape h.shape, hc.ended h.shape h.ended, fun is his i hi => ?_⟩, hc⟩
  exact (m'.hasValue_iff_view _).mpr
    (hc.has ((s.module.hasValue_iff_view _).mp (h.journal is his i hi)))

theorem Adds.extends (h : s.Adds t) : s.Extends t := ⟨h.sound, h.growths.changes⟩

theorem Sound.adds (h : s.Sound) (hl : m'.Linked) (hg : s.view.Growths m'.view) :
    s.Adds { s with module := m' } :=
  ⟨(h.extends_of_changes hl hg.changes).sound, hg, rfl, [], by simp, nofun⟩

theorem Sound.attach (h : s.Sound) (hl : m'.Linked) (hs : m'.view.Shape) (he : m'.view.Ended)
    (hv : ∀ v, s.view.Has v → m'.view.Has v) (hi : m'.view.Has (.inst i)) :
    Builder.Sound { s.log m' i with cursor := c } := by
  refine ⟨hl, hs, he, fun is his j hj => (m'.hasValue_iff_view _).mpr ?_⟩
  obtain ⟨js, hjs, rfl⟩ := Option.map_eq_some_iff.mp his
  rcases List.mem_append.mp hj with hj | hj
  · exact hv _ ((s.module.hasValue_iff_view _).mp (h.journal js hjs j hj))
  · rw [List.mem_singleton.mp hj]
    exact hi

theorem Sound.extends_of_attach (h : s.Sound) (hl : m'.Linked) (hc : s.view.Changes m'.view)
    (hi : s.HasValue (.inst i)) : s.Extends { s.log m' i with cursor := c } :=
  ⟨h.attach hl (hc.shape h.shape) (hc.ended h.shape h.ended) (fun _ => hc.has)
    (hc.has ((s.module.hasValue_iff_view _).mp hi)), hc⟩

end Builder

theorem Keeps.bind {x : Build α} {f : α → Build β} (hx : Keeps x s)
    (hf : ∀ a t, s.Extends t → Keeps (f a) t) : Keeps (x >>= f) s := by
  rw [Keeps, wp_bind]
  refine wp_imp hx fun a t ht => ?_
  exact wp_mono (hf a t ht) (fun _ _ hu => ht.trans hu) fun _ _ he => he.of_extends ht

theorem Keeps.of_extends {x : Build α} (h : s.Extends t) (hx : Keeps x t) :
    wp x (fun _ u => s.Extends u) s.Survives t :=
  wp_mono hx (fun _ _ hu => h.trans hu) fun _ _ he => he.of_extends h

theorem Keeps.pure (h : s.Sound) (a : α) : Keeps (Pure.pure a : Build α) s :=
  (wp_pure a).mpr h.extends

theorem keeps_withTypes (h : s.Sound) (types : TypeTable) :
    s.Extends { s with module := s.module.withTypes types } :=
  (h.adds (h.linked.dress _ _ _ _ _) (growths (.alike {}))).extends

theorem Builder.Refuses.survives {f : Fault} (h : s.Refuses f t) (hs : s.Sound) :
    s.Survives f t := by
  refine ⟨fun e he => ?_, h.uncorrupted⟩
  obtain ⟨types, -, rfl⟩ := h.gains e he
  exact keeps_withTypes hs types

theorem Tries.keeps {x : Build α} (hx : Tries x s) (h : s.Sound) : Keeps x s :=
  wp_mono hx (fun _ _ ht => ht) fun _ _ he => he.survives h

theorem Builds.tries {x : Build α} (hx : Builds x s) : Tries x s :=
  wp_imp hx fun _ _ ht => ht.extends

theorem Builds.keeps {x : Build α} (hx : Builds x s) (h : s.Sound) : Keeps x s := hx.tries.keeps h

theorem Tries.pure (h : s.Sound) (a : α) : Tries (Pure.pure a : Build α) s :=
  (wp_pure a).mpr h.extends

theorem Tries.fail (e : Error) : Tries (Build.fail e : Build α) s := (wp_fail e).mpr (s.refuses e)

/-! ### Instructions -/

theorem CanAttach.admits (h : CanAttach m c op b) : m.view.Admits op b c.before := by
  refine ⟨h.has, Option.isSome_iff_ne_none.mp h.func, h.before,
    fun hc i hi => Bool.eq_false_iff.mpr fun hop => ?_⟩
  cases (h.atEnd hc).symm.trans (terminator_eq_some.mpr ⟨hi, hop⟩)

theorem View.Admits.canAttach (h : m.view.Admits op b c.before) (hc : c.block = some b) :
    CanAttach m c op b := by
  refine ⟨hc, Option.isSome_iff_ne_none.mpr h.func, h.within, fun hnone => ?_⟩
  by_contra hne
  obtain ⟨t, ht⟩ := Option.ne_none_iff_exists'.mp hne
  obtain ⟨hlast, hop⟩ := terminator_eq_some.mp ht
  cases hop.symm.trans (h.atEnd hnone t hlast)

theorem View.Admits.withTypes {w : View} {before : Option InstId} (h : w.Admits op b before)
    (types : TypeTable) : (w.withTypes types).Admits op b before :=
  ⟨h.made, h.func, h.within, h.atEnd⟩

theorem Builder.Sound.emit (h : s.Sound) (types : TypeTable) {exits : List Pass.Exit}
    (hx : View.Emittable x vs exits) (hcan : CanAttach s.module s.cursor x.op b) (hl : m'.Linked)
    (hview : m'.view = (s.view.withTypes types).emit x vs exits b s.cursor.before) :
    Builder.Sound (s.log m' s.view.nextInst) := by
  have halike := View.Alike.withTypes s.view types
  refine h.attach hl ?_ ?_ (fun v hv => ?_) ?_
  · rw [hview]
    exact (halike.shape h.shape).emit s.module.unused.inst hx b _
  · rw [hview]
    exact (halike.ended h.ended).emit (halike.shape h.shape) s.module.unused.inst hx
      (hcan.admits.withTypes types)
  · rw [hview]
    exact has_emit (halike.has v hv)
  · rw [hview]
    exact Nat.lt_succ_self _

theorem adds_emit (h : s.Sound) (types : TypeTable) {exits : List Pass.Exit}
    (hx : View.Emittable x vs exits)
    (hexits : ∀ y ∈ exits, ∀ t, y.target = some t →
      t.index < s.view.blocks ∧ y.args.length = (s.view.block t).params.length)
    (hcan : CanAttach s.module s.cursor x.op b) (hl : m'.Linked)
    (hview : m'.view = (s.view.withTypes types).emit x vs exits b s.cursor.before) :
    s.Adds (s.log m' s.view.nextInst) := by
  refine ⟨h.emit types hx hcan hl hview, ?_, rfl, _, rfl,
    List.forall_mem_singleton.mpr s.module.unused.inst⟩
  rw [hview]
  exact (alike (.withTypes _ types)).growths.tail
    (.emit (s.module.unused.withTypes types) hx hexits (hcan.admits.withTypes types))

theorem builds_of_emitted (h : s.Sound) {x : Build InstId} {P : Form}
    (hx : wp x (Emitted s P) (Refused s) s)
    (hP : ∀ types y vs, P types y vs → View.Emittable y vs []) : Builds x s := by
  refine wp_mono hx ?_ ?_
  · rintro i t ⟨rfl, types, y, vs, b, m', hy, hcan, hl, hview, rfl⟩
    exact adds_emit h types (hP types y vs hy) nofun hcan hl hview
  · rintro f t ⟨e, rfl, ht⟩
    exact ⟨fun _ _ => ht, nofun⟩

theorem CanBranch.length {t : BlockId} (h : CanBranch m c t args) :
    t.index < m.view.blocks ∧ args.length = (m.view.block t).params.length := by
  refine ⟨has_of_blockFunc h.func, ?_⟩
  have hargs := h.args
  rw [checkArgs] at hargs
  split at hargs
  · next hlength => exact hlength
  · cases hargs

theorem builds_br (h : s.Sound) {target : Option BlockId}
    (hargs : ∀ w, some w ∈ args → s.HasValue w) : Builds (br target args) s := by
  refine wp_br h.linked hargs (fun e _ => s.refuses e) fun t b m' _ hbranch hcan hl hview => ?_
  refine adds_emit h s.module.types ?_ (fun y hy u hu => ?_) hcan hl hview
  · exact ⟨rfl, rfl, rfl, trivial⟩
  · obtain rfl := List.mem_singleton.mp hy
    exact some.inj hu ▸ hbranch.length

theorem builds_condBr (h : s.Sound) {cond : Option Value} {onTrue onFalse : Option BlockId}
    {trueArgs falseArgs : Args} (hcond : ∀ w, cond = some w → s.HasValue w)
    (hargs : ∀ w, some w ∈ trueArgs ++ falseArgs → s.HasValue w) :
    Builds (condBr cond onTrue trueArgs onFalse falseArgs) s := by
  refine wp_condBr h.linked hcond hargs (fun e _ => s.refuses e) ?_
  intro c t f b m' _ _ _ htrue _ hfalse hcan hl hview
  have hx : View.Emittable { op := .condBr, type := .void } [some c] [⟨some t, trueArgs⟩,
      ⟨some f, falseArgs⟩] :=
    ⟨rfl, rfl, rfl, rfl⟩
  refine adds_emit h s.module.types hx (fun y hy u hu => ?_) hcan hl hview
  rcases List.mem_cons.mp hy with rfl | hy
  · exact some.inj hu ▸ htrue.length
  · obtain rfl := List.mem_singleton.mp hy
    exact some.inj hu ▸ hfalse.length

theorem builds_ret (h : s.Sound) {value : Option Value}
    (hv : ∀ v, value = some v → s.HasValue v) : Builds (ret value) s := by
  refine wp_ret h.linked hv s.refuses (fun _ _ hc _ _ => refuses_crash hc) ?_
  rintro t ⟨-, types, y, vs, b, m', ⟨-, -, rfl⟩, hcan, hl, hview, rfl⟩
  refine adds_emit h types ?_ ?_ hcan hl hview
  · exact ⟨rfl, rfl, rfl, trivial⟩
  · exact nofun

theorem builds_trap (h : s.Sound) : Builds trap s := by
  refine builds_of_emitted h (emitted_trap h.linked) ?_
  rintro _ _ _ ⟨-, -, rfl⟩
  exact ⟨rfl, rfl, rfl, trivial⟩

/-! ### Edits of instructions -/

section

variable (h : s.Sound)
include h

theorem keeps_setCursor (c : Cursor) : Keeps (setCursor c) s :=
  (wp_setCursor c).mpr (h.extends_of_changes h.linked .refl)

theorem keeps_positionAtEnd (b : BlockId) : Keeps (positionAtEnd b) s :=
  (wp_positionAtEnd b).mpr (h.extends_of_changes h.linked .refl)

theorem keeps_positionBefore (i : InstId) : Keeps (positionBefore i) s := by
  exact keeps_setCursor h _

theorem keeps_replaceAllUses (v : Option Value) {w : Option Value}
    (hw : ∀ x, w = some x → s.HasValue x) : Keeps (replaceAllUses v w) s := by
  cases v with
  | none => exact Keeps.pure h ()
  | some v =>
    cases w with
    | none => exact Keeps.pure h ()
    | some w =>
      refine wp_replaceAllUses h.linked v w (hw w rfl) fun m' hl hview => ?_
      refine h.extends_of_changes hl ?_
      rw [hview]
      exact (alike (.mapValues _ _)).changes

theorem keeps_discard (hi : s.HasValue (.inst i)) : Keeps (discard i) s := by
  refine wp_discard h.linked hi fun m' hl hview => h.extends_of_changes hl ?_
  rw [hview]
  exact (View.Change.discard _ i).changes

theorem tries_unlink (i : InstId) : Tries (unlink i) s := by
  refine wp_unlink h.linked i fun m' hl hview => h.extends_of_changes hl ?_
  rw [hview]
  exact (View.Change.unlink _ i).changes

theorem builds_insert {i : Option InstId} (hi : ∀ j, i = some j → s.HasValue (.inst j)) :
    Builds (insert i) s := by
  cases i with
  | none => exact s.refuses _
  | some i =>
    refine wp_insert h.linked (hi i rfl) (fun e _ => s.refuses e)
      fun b m' hblock herased hcan hl hview => ?_
    have hgrowth : s.view.Growth m'.view := hview ▸ .place hblock herased hcan.admits
    have hsound := (h.extends_of_attach (c := s.cursor) hl hgrowth.changes (hi i rfl)).sound
    exact ⟨hsound, hgrowth.growths, rfl, _, rfl, List.forall_mem_singleton.mpr hblock⟩

theorem tries_eraseFrom (parent : Option BlockId) (i : Option InstId) :
    Tries (eraseFrom parent i) s := by
  match parent, i with
  | none, _ => exact Tries.fail _
  | some _, none =>
    rw [Tries, eraseFrom, wp_bind, wp_module]
    exact Tries.fail _
  | some b, some i =>
    refine wp_eraseFrom h.linked (fun e _ => s.refuses e) (fun _ hc _ => refuses_crash hc) ?_
    intro m' _ hl hview
    refine h.extends_of_changes hl ?_
    rw [hview]
    exact (View.Change.discard _ i).changes

end

theorem wp_attached {doing : Text} {i : Option InstId} {Q : Post (InstId × BlockId)}
    (hE : ∀ e, E (.error e) s)
    (k : ∀ j b, i = some j → (s.module.insts.get j).block = some b → Q (j, b) s) :
    wp (attached doing i) Q E s := by
  unfold attached
  split
  · exact hE _
  · next j =>
    rw [wp_bind, wp_inst]
    split
    · exact hE _
    · next b hb => exact k j b rfl hb

section

variable (h : s.Sound)
include h

theorem tries_detach (i : Option InstId) : Tries (detach i) s := by
  rw [Tries, detach, wp_bind]
  exact wp_attached s.refuses fun j _ _ _ => tries_unlink h j

theorem wp_move {i : Option InstId} {place : Cursor} (hE : ∀ e, E (.error e) s) (hstay : Q () s)
    (k : ∀ j m', i = some j → s.HasValue (.inst j) → m'.Linked → (s.view.unlink j).Growth m'.view →
      Q () (s.log m' j)) : wp (move i place) Q E s := by
  rw [move, wp_bind]
  refine wp_attached hE fun j b hj hb => ?_
  dsimp only
  split
  · exact hstay
  · next hplace =>
    rw [wp_keepingCursor, wp_bind, wp_setCursor, wp_bind, wp_inst, wp_bind]
    refine wp_checkAttach (fun e _ => hE e) fun c hcan => ?_
    rw [wp_bind]
    refine wp_unlink (s := { s with cursor := place }) h.linked j fun m₁ h₁ hview₁ => ?_
    -- what was checked before the instruction was taken out still holds
    have hinst : m₁.view.inst j = { s.view.inst j with block := none } := by
      rw [hview₁]
      exact if_pos rfl
    have herased : (m₁.view.inst j).erased = false := by
      rw [hinst]
      refine Bool.eq_false_iff.mpr fun herased => ?_
      cases hb.symm.trans (h.shape.formed.erased j herased).1
    have hadmits : m₁.view.Admits (m₁.view.inst j).op c place.before := by
      rw [hinst, hview₁]
      exact View.Admits.unlink hcan.admits h.ended h.shape hplace
    have hhas : j.index < m₁.view.insts := by
      rw [hview₁]
      exact has_of_instBlock hb
    refine wp_insert h₁ hhas (fun e hno => ?_) fun _ m₂ hnone _ hcan₂ h₂ hview₂ => ?_
    · exact absurd (hadmits.canAttach hcan.block) (hno (congrArg Inst.block hinst) herased c)
    · refine k j m₂ hj (has_of_instBlock hb) h₂ ?_
      rw [hview₂, ← hview₁]
      exact .place hnone herased hcan₂.admits

theorem tries_move (i : Option InstId) (place : Cursor) : Tries (move i place) s :=
  wp_move h s.refuses h.extends fun j _ _ hj hl hg =>
    h.extends_of_attach hl ((View.Change.unlink _ j).changes.tail (.growth hg)) hj

theorem wp_replace {old new : Option InstId}
    (hnew : ∀ j, new = some j → s.HasValue (.inst j)) (hE : ∀ e, E (.error e) s)
    (hC : ∀ c t, c ≠ .corruptUses → E (.crash c) t)
    (k : ∀ i j b w m' c, old = some i → new = some j → (s.module.insts.get i).block = some b →
      s.view.Growths w →
      (w.discard i).Growths m'.view → (m'.view.inst j).block = some b → m'.Linked →
      c = s.cursor ∧ (s.cursor.before = some i → (s.module.insts.get i).op.isTerminator = true) ∨
        c = { s.cursor with before := some j } ∧ s.cursor.before = some i →
      Q () { s.log m' j with cursor := c }) :
    wp (replace old new) Q E s := by
  rw [replace, wp_bind]
  refine wp_attached hE fun i b hi hb => ?_
  dsimp only
  split
  · exact hE _
  · next j =>
    simp only [wp_ite, wp_bind]
    refine ⟨fun _ => hE _, fun hdetached => ⟨fun _ => hE _, fun _ => ?_⟩⟩
    have hdet : (s.module.insts.get j).block = none ∧ (s.module.insts.get j).erased = false := by
      simpa [isDetached] using hdetached
    have hj : j.index < s.view.insts := hnew j rfl
    have hji : j ≠ i := by
      rintro rfl
      cases hb.symm.trans hdet.1
    refine ⟨fun hop => ?_, fun hop => ?_⟩
    · rw [wp_keepingCursor, wp_bind]
      refine wp_replaceAllUses h.linked _ _ hj fun m₁ h₁ hview₁ => ?_
      have halike : s.view.Alike m₁.view := hview₁ ▸ .mapValues _ _
      have hb₁ : (m₁.view.inst i).block = some b := (halike.inst i).1.trans hb
      have hop₁ : (m₁.view.inst i).op.isTerminator = true :=
        (congrArg _ (halike.inst i).2.1).trans hop
      have hended := halike.ended h.ended
      rw [wp_bind]
      refine wp_eraseFrom h₁ (fun e hno => ?_) (fun c hc _ => hC c _ hc) fun m₂ _ h₂ hview₂ => ?_
      · exact absurd ⟨hb₁, List.mem_of_getLast? (hended.last i b hb₁ hop₁).2⟩ hno
      · have hinst : m₂.view.inst j = s.view.inst j := by
          rw [hview₂, inst_discard, if_neg hji, hview₁]
          rfl
        have hadmits : m₂.view.Admits (m₂.view.inst j).op b none := by
          rw [hview₂]
          exact hended.admits_discard (halike.shape h.shape) hb₁ hop₁ _
        have hhas : j.index < m₂.view.insts := by
          rw [hview₂, hview₁]
          exact hj
        have hnone : (m₂.view.inst j).block = none := (congrArg Inst.block hinst).trans hdet.1
        have herased : (m₂.view.inst j).erased = false := (congrArg Inst.erased hinst).trans hdet.2
        refine wp_insert h₂ hhas (fun e hno => ?_) fun d m₃ _ _ hcan h₃ hview₃ => ?_
        · exact absurd (hadmits.canAttach rfl) (hno hnone herased b)
        · obtain rfl : b = d := some.inj hcan.block
          refine k i j b m₁.view m₃ _ hi rfl hb (alike halike).growths ?_ ?_ h₃
            (.inl ⟨rfl, fun _ => hop⟩)
          · rw [hview₃, ← hview₂]
            exact (place hnone herased hadmits).growths
          · rw [hview₃, inst_place, if_pos rfl]
    · rw [wp_cursor, wp_keepingCursor, wp_bind]
      simp only [wp_bind]
      refine wp_insert h.linked hj (fun _ _ => hE _) fun d m₁ hnone herased hcan h₁ hview₁ => ?_
      obtain rfl : b = d := mem_unique hb hcan.block
      have hj₁ : j.index < m₁.view.insts := by
        rw [hview₁]
        exact hj
      refine wp_replaceAllUses h₁ _ _ hj₁ fun m₂ h₂ hview₂ => ?_
      have halike : m₁.view.Alike m₂.view := hview₂ ▸ .mapValues _ _
      have hgrowths : s.view.Growths m₂.view := by
        refine (growths ?_).tail (.alike halike)
        rw [hview₁]
        exact .place hnone herased hcan.admits
      have hinst (x : InstId) : (m₂.view.inst x).block = if x = j then some b
          else (s.view.inst x).block := by
        rw [(halike.inst x).1, hview₁, inst_place]
        split <;> rfl
      have herase (c : Cursor) (hc : c = s.cursor ∧
        (s.cursor.before = some i → (s.module.insts.get i).op.isTerminator = true) ∨
          c = { s.cursor with before := some j } ∧ s.cursor.before = some i) :
          wp (keepingCursor (eraseFrom (some b) (some i))) Q E
            { s.log m₂ j with cursor := c } := by
        rw [wp_keepingCursor]
        refine wp_eraseFrom h₂ (fun e hno => absurd ⟨?_, ?_⟩ hno) (fun c hc _ => hC c _ hc)
          fun m₃ _ h₃ hview₃ => k i j b m₂.view m₃ c hi rfl hb hgrowths ?_ ?_ h₃ hc
        · rw [hview₃]
        · rw [hview₃, inst_discard, if_neg hji]
          exact (hinst j).trans (if_pos rfl)
        · exact (hinst i).trans ((if_neg hji.symm).trans hb)
        · have hblock : m₂.view.block b = _ := congrFun halike.block b
          show i ∈ (m₂.view.block b).insts
          rw [hblock, hview₁, block_place, if_pos rfl]
          show i ∈ insertBefore j (some i) _
          exact mem_insertBefore.mpr (.inr (h.ended.listed i b hb hcan.admits.func))
      exact ⟨fun hc => herase _ (.inr ⟨rfl, hc⟩),
        fun hc => herase _ (.inl ⟨rfl, fun hc' => absurd hc' hc⟩)⟩

theorem tries_replace (old : Option InstId) {new : Option InstId}
    (hnew : ∀ j, new = some j → s.HasValue (.inst j)) : Tries (replace old new) s :=
  wp_replace h hnew s.refuses (fun _ _ => refuses_crash) fun i j _ _ _ _ _ hj _ hg hg' _ hl _ =>
    h.extends_of_attach hl ((hg.changes.tail (.discard _ i)).trans hg'.changes) (hnew j hj)

theorem tries_erase (i : Option InstId) : Tries (erase i) s := by
  cases i with
  | none => exact Tries.fail _
  | some i =>
    exact tries_eraseFrom h _ _

end

theorem Module.alike_setName (m : Module) (name : Text) (v : Value) :
    m.view.Alike (m.setValueName name v).view := by
  have hhas (x : Value) (hx : m.view.Has x) : (m.setValueName name v).view.Has x := by
    cases v <;> cases x <;> first | exact hx | exact (Pool.has_update _ _ _ _).mpr hx
  cases v with
  | inst i =>
    by_cases hi : m.insts.Has i
    · rw [view_setName hi]
      refine { inst := fun j => ?_ }
      rw [inst_setInst]
      split <;> exact ⟨rfl, rfl, rfl⟩
    · have hsame : m.setValueName name (.inst i) = m :=
        congrArg (fun insts => { m with insts }) (m.insts.update_of_not_has hi _)
      rw [hsame]
      exact {}
  | param p => exact { param := fun q => m.params.get_update_part (·.bare.block) p q fun _ =>
                         rfl, has := hhas }
  | func g =>
    refine { func := fun f => ⟨?_, ?_⟩, has := hhas }
    · exact m.funcs.get_update_part (·.bare.blocks) g f fun _ => rfl
    · exact m.funcs.get_update_part (·.bare.defined) g f fun _ => rfl
  | global g => exact { has := hhas }

theorem keeps_setName (h : s.Sound) (v : Value) (name : Text) : Keeps (setName v name) s := by
  exact h.extends_of_changes (h.linked.setName name v)
    (alike (s.module.alike_setName name v)).changes

/-! ### Expansions -/

structure Build.Explosion.Made (x : Explosion) (m : Module) : Prop where
  inst : m.HasValue (.inst x.inst)
  journal : ∀ is, x.journal = some is → ∀ i ∈ is, m.HasValue (.inst i)

theorem Builder.Extends.withJournal (h : s.Extends t) {j : Option (List InstId)}
    (hj : ∀ is, j = some is → ∀ i ∈ is, t.HasValue (.inst i)) : s.Extends { t with journal := j } :=
  ⟨⟨h.sound.linked, h.sound.shape, h.sound.ended, hj⟩, h.changes⟩

theorem wp_beginExplosion (h : s.Sound) (i : Option InstId) :
    wp (beginExplosion i) (fun x t => s.Extends t ∧ x.Made s.module) s.Survives s := by
  rw [beginExplosion, wp_bind]
  refine wp_attached h.extends.survives fun j b _ hb => ?_
  simp only [wp_bind, wp_cursor, wp_get]
  refine wp_imp (keeps_positionBefore h j) fun _ t ht => ?_
  refine ⟨ht.withJournal fun is his i hi => ?_, has_of_instBlock hb, h.journal⟩
  exact absurd hi (some.inj his ▸ List.not_mem_nil)

structure Module.Offers (m : Module) (i : InstId) (outcome : Except Error Unit)
    (built : List InstId) (j : InstId) :
    Prop where
  ok : outcome = .ok ()
  last : built.getLast? = some j
  type : (m.insts.get i).uses ≠ [] → (m.insts.get j).type = (m.insts.get i).type

theorem wp_tailFor {outcome : Except Error Unit} {built : List InstId}
    {Q : Except Error InstId → Builder → Prop}
    (k : ∀ r, (∀ j, r = .ok j ↔ s.module.Offers i outcome built j) → Q r s) :
    wp (tailFor i outcome built) Q E s := by
  unfold tailFor
  split
  · exact k _ fun _ => ⟨fun h => (by cases h), fun h => by cases h.ok⟩
  · next hnone =>
      exact k _ fun _ => ⟨fun h => (by cases h), fun h => by cases hnone.symm.trans h.last⟩
  · next tail hlast =>
    simp only [wp_bind, wp_inst]
    split
    · next hbad =>
      refine k _ fun j => ⟨fun h => (by cases h), fun h => ?_⟩
      obtain rfl : tail = j := mem_unique hlast h.last
      exact absurd (h.type fun hnil => by simp [hnil] at hbad) hbad.2
    · next hgood =>
      refine k _ fun j => ⟨fun hj => Except.ok.inj hj ▸ ⟨rfl, hlast, fun huses => ?_⟩, fun h => ?_⟩
      · by_contra hne
        exact hgood ⟨by simpa using huses, hne⟩
      · exact congrArg _ (mem_unique hlast h.last)

theorem keeps_forM_discard (h : s.Sound) {is : List InstId} (his : ∀ i ∈ is, s.HasValue (.inst i)) :
    Keeps (is.forM discard) s := by
  refine wp_forM_of_each (fun t => s.Extends t) (fun i hi t ht => ?_) h.extends fun _ ht => ht
  exact (keeps_discard ht.sound (ht.values _ (his i hi))).of_extends ht

theorem Builder.Sound.built (h : s.Sound) : ∀ i ∈ s.journal.getD [], s.HasValue (.inst i) := by
  cases hj : s.journal with
  | none => simp
  | some is => exact h.journal is hj

theorem wp_endExplosion (h : s.Sound) {x : Explosion} (hx : x.Made s.module)
    {outcome : Except Error Unit}
    {Q : Post InstId}
    (herror : ∀ e, (∀ j, ¬ s.module.Offers x.inst outcome (s.journal.getD []) j) → wp (do
      (s.journal.getD []).reverse.forM discard
      setCursor x.cursor
      fail (.within ("explode " ++ (← inst x.inst).op.name) e)) Q E { s with journal := x.journal })
    (hok : ∀ j (m m₁ m₂ : Module), s.module.Offers x.inst outcome (s.journal.getD []) j →
      m = s.module ∨ m = s.module.setValueName (s.module.insts.get x.inst).name (.inst j) →
      m₁.view = m.view.mapValues (substitute (.inst x.inst) (.inst j)) → s.view.Growths m₁.view →
      m₂.Linked → m₂.view = m₁.view.discard x.inst →
      Q j ⟨m₂, m₁.cursorPast x.inst x.cursor, x.journal.map (· ++ s.journal.getD [])⟩) :
    wp (endExplosion x outcome) Q E s := by
  rw [endExplosion, wp_bind, wp_get, wp_bind, wp_modify, wp_bind]
  refine wp_tailFor fun r hr => ?_
  cases r with
  | error e => exact herror e fun j hj => by cases (hr j).mpr hj
  | ok j =>
    have hj := (hr j).mp rfl
    have hbuilt := (s.module.hasValue_iff_view _).mp (h.built j (List.mem_of_getLast? hj.last))
    have hinst := (s.module.hasValue_iff_view _).mp hx.inst
    rw [wp_bind, wp_inst, wp_ite]
    refine (fun (hrest : ∀ u : Builder, u.module = s.module ∨
        u.module = s.module.setValueName (s.module.insts.get x.inst).name (.inst j) →
        u.module.Linked → s.view.Alike u.view → wp _ _ _ u) =>
      ⟨fun _ => ?_, fun _ => hrest _ (.inl rfl) h.linked {}⟩) fun u hu hl halike => ?_
    · rw [wp_bind]
      refine wp_replaceAllUses hl _ _ ((u.module.hasValue_iff_view _).mpr (halike.has _ hbuilt))
        fun m₁ h₁ hview₁ => ?_
      have halike₁ : u.view.Alike m₁.view := hview₁ ▸ .mapValues _ _
      have hhas : m₁.HasValue (.inst x.inst) :=
        (m₁.hasValue_iff_view _).mpr (halike₁.has _ (halike.has _ hinst))
      rw [wp_bind, wp_module, wp_bind]
      refine wp_discard h₁ hhas fun m₂ h₂ hview₂ => hok j u.module m₁ m₂ hj hu hview₁ ?_ h₂ hview₂
      exact (alike halike).growths.trans (alike halike₁).growths
    · have hnamed := h.linked.setName (s.module.insts.get x.inst).name (.inst j)
      exact hrest _ (.inr rfl) hnamed (s.module.alike_setName _ _)

theorem keeps_endExplosion (h : s.Sound) {x : Explosion} (hx : x.Made s.module)
    (outcome : Except Error Unit) : Keeps (endExplosion x outcome) s := by
  refine wp_endExplosion h hx (fun e _ => ?_) fun j m m₁ m₂ hj _ _ hg hl hview => ?_
  · have hback : s.Extends { s with journal := x.journal } := h.extends.withJournal hx.journal
    refine Keeps.of_extends hback ((keeps_forM_discard hback.sound fun i hi =>
      h.built i (List.mem_reverse.mp hi)).bind fun _ t ht => ?_)
    refine (keeps_setCursor ht.sound _).bind fun _ u hu => ?_
    rw [Keeps, wp_bind, wp_inst]
    exact (Tries.fail _).keeps hu.sound
  · have hext := h.extends_of_changes (c := m₁.cursorPast x.inst x.cursor) hl
      (hg.changes.trans (hview ▸ (View.Change.discard _ x.inst).changes))
    refine hext.withJournal fun is his i hi => hext.values _ ?_
    obtain ⟨js, hjs, rfl⟩ := Option.map_eq_some_iff.mp his
    exact (List.mem_append.mp hi).elim (hx.journal js hjs i) (h.built i)

/-! ### Blocks -/

section

variable (h : s.Sound)
include h

theorem Builder.Sound.insts (b : BlockId) :
    ∀ i ∈ (s.module.blocks.get b).insts, (s.module.insts.get i).block = some b :=
  fun i hi => h.shape.insts.placed i b hi

theorem Builder.Sound.hasInst (b : BlockId) : ∀ i ∈ (s.module.blocks.get b).insts,
    s.module.insts.Has i :=
  fun i hi => has_of_instBlock (h.insts b i hi)

theorem builds_appendBlock (name : Text) (ps : List Member) : Builds (appendBlock name ps) s := by
  refine wp_appendBlock h.linked name ps s.refuses fun f m' _ hdefined hl hview => h.adds hl ?_
  rw [hview]
  exact (addBlock s.module.unused name hdefined ps).growths

theorem Builder.Sound.isEntry (hb : (s.view.func f).blocks.head? = some b) :
    s.module.isEntry b = true := by
  have hfunc : (s.module.blocks.get b).func = some f :=
    (h.shape.blocks.mem_iff f b).mp (List.mem_of_mem_head? hb)
  have hhead : (s.module.funcs.get f).blocks.head? = some b := hb
  simp [Module.isEntry, hfunc, hhead]

theorem tries_eraseBlocks (blocks : List (Option BlockId)) : Tries (eraseBlocks blocks) s := by
  refine wp_eraseBlocks h.linked h.hasInst (fun e _ => s.refuses e) (fun _ _ _ hc _ _ =>
    refuses_crash hc) ?_
  intro bs m' c _ herasable _ hl hview _
  refine h.extends_of_changes hl ?_
  rw [hview]
  refine (eraseBlocks fun b hb f hf => ?_).changes
  exact Bool.false_ne_true ((herasable b hb).2.symm.trans (h.isEntry hf))

theorem tries_mergeBlocks (pred succ : Option BlockId) : Tries (mergeBlocks pred succ) s := by
  match pred, succ with
  | some pred, some succ =>
    refine wp_mergeBlocks h.linked h.insts (fun e _ => s.refuses e) (fun _ _ hc _ =>
      refuses_crash hc) ?_
    intro f t e m' hpred _ hsole hl hview
    refine h.extends_of_changes hl ?_
    obtain ⟨hlast, hop⟩ := terminator_eq_some.mp hsole.terminator
    have hfunc : (s.view.block pred).func = some f := hpred
    rw [hview]
    refine (merge _ (by simp [hfunc]) hlast hop fun f hf => ?_).changes
    exact Bool.false_ne_true (hsole.entry.symm.trans (h.isEntry hf))
  | none, _ =>
    rw [Tries, mergeBlocks, wp_bind]
    exact wp_checkSameFunc (fun e _ => s.refuses e) nofun
  | some _, none =>
    rw [Tries, mergeBlocks, wp_bind]
    exact wp_checkSameFunc (fun e _ => s.refuses e) nofun

end

theorem perm_flatMap_anchor {anchor : BlockId} (hb : b ∈ bs) (ha : anchor ∈ bs) (hne : b ≠ anchor)
    (hnodup : bs.Nodup)
    (hside : (side anchor).Perm [anchor, b]) :
    ((bs.filter (· ≠ b)).flatMap fun x => if x = anchor then side x else [x]).Perm bs := by
  have hfilter : bs.Perm (b :: bs.filter (· ≠ b)) := by
    have herase : bs.erase b = bs.filter (· ≠ b) := by
      rw [hnodup.erase_eq_filter]
      exact List.filter_congr fun x _ => by by_cases hx : x = b <;> simp [hx]
    exact herase ▸ List.perm_cons_erase hb
  generalize hrest : bs.filter (· ≠ b) = rest at hfilter ⊢
  have hin : anchor ∈ rest := by
    rw [← hrest, List.mem_filter]
    exact ⟨ha, by simpa using hne.symm⟩
  have hsplit : rest.Perm (anchor :: rest.erase anchor) := List.perm_cons_erase hin
  have hkept : (rest.erase anchor).flatMap (fun x => if x = anchor then side x else [x]) =
      rest.erase anchor := by
    have hnot : anchor ∉ rest.erase anchor := by
      have := hsplit.nodup_iff.mp (hrest ▸ hnodup.filter _)
      exact (List.nodup_cons.mp this).1
    have hsingle : ∀ x ∈ rest.erase anchor, (if x = anchor then side x else [x]) =
        [x] := fun x hx =>
      if_neg fun he : x = anchor => hnot (he ▸ hx)
    rw [List.flatMap_congr hsingle]
    exact List.flatMap_singleton' _
  refine (hsplit.flatMap_right _).trans ?_
  rw [List.flatMap_cons, hkept, if_pos rfl]
  refine (hside.append_right _).trans ?_
  refine (List.Perm.swap b anchor _).trans ?_
  exact ((hsplit.symm.cons b).trans hfilter.symm)

theorem head?_flatMap_anchor {anchor : BlockId} (hb : bs.head? ≠ some b)
    (hside : bs.head? = some anchor → (side anchor).head? = some anchor) :
    ((bs.filter (· ≠ b)).flatMap fun x => if x = anchor then side x else [x]).head? = bs.head? := by
  cases bs with
  | nil => rfl
  | cons first rest =>
    have hfirst : first ≠ b := fun he => hb (congrArg some he)
    rw [List.filter_cons_of_pos (by simpa using hfirst), List.flatMap_cons, List.head?_append]
    split
    · next he => rw [he, hside (congrArg some he)]; rfl
    · rfl

theorem tries_moveBlock (h : s.Sound) (b anchor : Option BlockId) (displaces : Bool)
    {side : BlockId → BlockId → List BlockId} (hside : ∀ x y, (side x y).Perm [y, x])
    (hhead : displaces = false → ∀ x y, (side x y).head? = some y) :
    Tries (moveBlock b anchor displaces side) s := by
  rw [Tries, moveBlock, wp_bind]
  refine wp_checkSameFunc (fun e _ => s.refuses e) fun x y f _ _ hx hy => ?_
  dsimp only
  split
  · exact Tries.pure h ()
  · next hne =>
    rw [wp_bind, wp_module]
    split
    · exact Tries.fail _
    · next hmay =>
      rw [not_or, not_and] at hmay
      rw [wp_modifyFunc]
      have hmem : ∀ z, (s.module.blocks.get z).func = some f → z ∈ (s.view.func f).blocks :=
        fun z hz => (h.shape.blocks.mem_iff f z).mpr hz
      refine h.extends_of_changes (h.linked.updateFunc f fun _ => rfl) ?_
      rw [view_updateFunc (g := fun fn => { fn with
        blocks := (fn.blocks.filter (· ≠ x)).flatMap fun z => if z = y then side x z else [z] })
        (fun _ => rfl) (.inr rfl)]
      refine (permute ?_ ?_ rfl).changes
      · exact perm_flatMap_anchor (hmem x hx) (hmem y hy) hne (h.shape.blocks.nodup f) (hside x y)
      · refine head?_flatMap_anchor (fun hf => hmay.1 (h.isEntry hf)) fun hf => hhead ?_ x y
        exact Bool.eq_false_iff.mpr fun hd => hmay.2 hd (h.isEntry hf)

/-! ### Functions -/

theorem adds_addFunc (h : s.Sound) (hl : m'.Linked) (types : TypeTable) {x : Func}
    (hx : x.blocks = [])
    (hview : m'.view = (s.view.withTypes types).addFunc x) :
    s.Adds { s with module := m' } ∧ m'.HasValue (.func s.view.nextFunc) := by
  refine ⟨h.adds hl ?_, (m'.hasValue_iff_view _).mpr ?_⟩
  · rw [hview]
    exact (alike (.withTypes _ types)).growths.tail (.addFunc (s.module.unused.withTypes types) hx)
  · rw [hview]
    exact Nat.lt_succ_self _

def BuildsFunc (x : Build FuncId) (s : Builder) : Prop :=
  wp x (fun f t => s.Adds t ∧ t.module.HasValue (.func f)) s.Refuses s

theorem BuildsFunc.builds {x : Build FuncId} (h : BuildsFunc x s) : Builds x s :=
  wp_imp h fun _ _ ht => ht.1

section

variable (h : s.Sound)
include h

theorem buildsFunc_addFunction (name : Text) (type : TypeId) :
    BuildsFunc (addFunction name type) s := by
  refine wp_addFunction h.linked name type s.refuses fun m' _ hl hview => ?_
  exact adds_addFunc h hl s.module.types rfl hview

theorem buildsFunc_addUniqueFunction (name : Text) (type : TypeId) :
    BuildsFunc (addUniqueFunction name type) s := by
  rw [BuildsFunc, addUniqueFunction, wp_bind]
  exact buildsFunc_addFunction h _ type

theorem Builder.Sound.hasFunc {name : Text} (hf : s.module.funcNamed? name = some f) :
    s.HasValue (.func f) :=
  h.shape.order f (List.mem_of_find?_eq_some hf)

theorem buildsFunc_getOrAddFunction (name : Text) (type : TypeId) :
    BuildsFunc (getOrAddFunction name type) s := by
  rw [BuildsFunc, getOrAddFunction, wp_bind, wp_module]
  split
  · exact buildsFunc_addFunction h name type
  · next f hf =>
    dsimp only
    split
    · exact ⟨h.adds h.linked .refl, h.hasFunc hf⟩
    · exact s.refuses _

theorem buildsFunc_resolve (name : Text) : BuildsFunc (resolve name) s := by
  refine wp_resolve h.linked name (fun e types htypes => ⟨fun _ _ => ⟨types, htypes, rfl⟩, nofun⟩)
    (fun m' _ _ types _ hl hview => ?_) fun f hf => ⟨h.adds h.linked .refl, h.hasFunc hf⟩
  exact adds_addFunc h hl types rfl hview

theorem builds_defineBody (hf : s.HasValue (.func f)) (names : List Text) :
    Builds (defineBody f names) s := by
  refine wp_defineBody h.linked hf names (fun e _ => s.refuses e)
    (fun _ hc _ => refuses_crash hc) ?_
  intro m' sig hdefined _ _ hl hview
  refine h.adds hl ?_
  rw [hview]
  exact (alike (.withTypes _ _)).growths.tail (.define (s.module.unused.withTypes _) hdefined _)

theorem keeps_defineAndEnter (hf : s.HasValue (.func f)) (names : List Text) :
    Keeps (defineAndEnter f names) s := by
  refine ((builds_defineBody h hf names).keeps h).bind fun _ t ht => ?_
  rw [Keeps, wp_bind, wp_func, wp_bind]
  cases (t.module.funcs.get f).blocks.head? with
  | none => exact (refuses_crash (by simp)).survives ht.sound
  | some b =>
    exact (keeps_positionAtEnd ht.sound b).bind fun _ _ hu => Keeps.pure hu.sound f

end

theorem BuildsFunc.define {x : Build FuncId} (hx : BuildsFunc x s) (h : s.Sound)
    (names : List Text) :
    Keeps (do defineAndEnter (← x) names) s := by
  rw [Keeps, wp_bind]
  refine wp_mono hx (fun f t ht => ?_) fun _ _ he => he.survives h
  exact (keeps_defineAndEnter ht.1.sound ht.2 names).of_extends ht.1.extends

section

variable (h : s.Sound)
include h

theorem tries_removeFunction (hf : s.HasValue (.func f)) : Tries (removeFunction f) s := by
  refine wp_removeFunction h.linked hf h.hasInst s.refuses
    fun m' w hl hloose hshut hview => h.extends_of_changes hl ?_
  rw [hview]
  exact (removeFunc hloose hshut).changes

theorem keeps_annotate (f : FuncId) {g : Func → Func}
    (hg : ∀ x, (g x).bare = g x.bare ∧ (g x).uses = x.uses ∧ (g x).blocks = x.blocks ∧
      (g x).defined = x.defined) : Keeps (modifyFunc f g) s := by
  have hfunc : ∀ {β : Type} (part : Func → β), (∀ x, part (g x) = part x) → ∀ f',
      part ((s.module.updateFunc f g).funcs.get f') = part (s.module.funcs.get f') :=
          fun part hpart f' =>
    s.module.funcs.get_update_part part f f' hpart
  refine h.extends_of_changes (h.linked.updateFunc f fun x => (hg x).2.1)
    (alike { func := fun f' => ⟨?_, ?_⟩, has := fun v hv => ?_ }).changes
  · exact hfunc (fun x => x.bare.blocks) (fun x => (hg x).2.2.1) f'
  · exact hfunc (fun x => x.bare.defined) (fun x => (hg x).2.2.2) f'
  · exact (hasValue_updateFunc f g v).mpr hv

theorem keeps_dress (types : TypeTable) (providers : List Provider) (typeDecls : List TypeId) :
    Keeps (modifyModule ({ · with types, providers, typeDecls })) s := by
  exact h.extends_of_changes (h.linked.dress _ _ _ _ _) (changes (.alike {}))

theorem tries_addGlobal (name : Text) (elem : TypeId) : Tries (addGlobal name elem) s := by
  refine wp_addGlobal h.linked name elem s.refuses fun m' hl hview => h.extends_of_changes hl ?_
  rw [hview]
  refine changes (.alike { has := fun _ hv => ?_ })
  exact hv.mono Nat.le.refl Nat.le.refl Nat.le.refl (Nat.le_succ _)

theorem keeps_setOperand {o : OperandId} (ho : s.module.InUse o)
    (hv : ∀ x, v = some x → s.HasValue x) : Keeps (setOperand o v) s := by
  have hhas : s.module.operands.Has o := by
    rcases ho with ⟨w, hw⟩ | ⟨i, hi⟩
    · by_contra hno
      rw [operandValue, Pool.get_of_not_has hno] at hw
      cases hw
    · exact (h.linked.user hi).1
  refine wp_setOperand h.linked.wired hhas hv fun m' hr => ?_
  have hview : m'.view = s.module.viewWith (Function.update s.module.operandValue o v) := hr.view
  refine h.extends_of_changes (hr.linked h.linked fun o' x hx => ?_) ?_
  · rw [Function.update_apply] at hx
    split at hx
    · next heq => exact heq ▸ ho
    · exact .inl ⟨x, hx⟩
  · rw [hview]
    refine (alike { reads := fun i => ?_, exits := fun i => ?_, opens := fun b => ?_ }).changes
    · exact (length_map _).trans (length_map _).symm
    · show ((s.module.insts.get i).targets.map _).map _ =
        ((s.module.insts.get i).targets.map _).map _
      rw [map_map, map_map]
      exact List.map_congr_left fun e _ =>
        congrArg (Prod.mk _) ((length_map _).trans (length_map _).symm)
    · show ((s.module.openEdges b).map _).map _ = ((s.module.openEdges b).map _).map _
      rw [map_map, map_map]
      exact List.map_congr_left fun e _ => (length_map _).trans (length_map _).symm

end

/-! ### Everything that was built -/

def Module.Knows (m : Module) (v : Option Value) : Prop := ∀ w, v = some w → m.HasValue w

def Module.KnowsAll (m : Module) (vs : List (Option Value)) : Prop :=
  ∀ w, some w ∈ vs → m.HasValue w

instance (m : Module) : ∀ v, Decidable (m.HasValue v)
  | .inst i => inferInstanceAs (Decidable (i.index < _))
  | .param p => inferInstanceAs (Decidable (p.index < _))
  | .func f => inferInstanceAs (Decidable (f.index < _))
  | .global g => inferInstanceAs (Decidable (g.index < _))

instance (m : Module) (v : Option Value) : Decidable (m.Knows v) :=
  decidable_of_iff (v.all fun w => decide (m.HasValue w)) (by cases v <;> simp [Module.Knows])

instance (m : Module) (vs : Args) : Decidable (m.KnowsAll vs) :=
  decidable_of_iff (∀ v ∈ vs, m.Knows v) ⟨fun h w hw => h _ hw w rfl, fun h _ hv w hw =>
    h w (hw ▸ hv)⟩

theorem Module.KnowsAll.nil : m.KnowsAll [] := fun _ h => absurd h List.not_mem_nil

theorem Module.KnowsAll.cons (hv : m.Knows v) (hvs : m.KnowsAll vs) : m.KnowsAll (v :: vs) :=
  fun w hw => (List.mem_cons.mp hw).elim (fun h => hv w h.symm) (hvs w)

theorem Simple.emittable (h : Simple x) (hvs : x.op.Takes vs.length) : View.Emittable x vs [] := by
  refine ⟨h.block, h.erased, ?_, hvs⟩
  have hop := h.op
  revert hop
  cases x.op <;> simp [Opcode.isTerminator, Opcode.exits]

theorem builds_construct (h : s.Sound) {l : Line} {x : Build InstId} (hx : Constructor l x)
    (hreads : s.module.KnowsAll l.reads) : Builds x s :=
  builds_of_emitted h (hx.emitted h.linked hreads) fun _ _ _ hy =>
    hy.2.simple.emittable (hy.1 ▸ hy.2.takes)

/-- The operations of the builder, on handles that the module has given out. An expansion is two of
them, with the operations that build its parts in between. -/
inductive Operation (m : Module) : {α : Type} → Build α → Prop
  -- The cursor may be put anywhere.
  | setCursor (c : Cursor) : Operation m (setCursor c)
  | positionAtEnd (b : BlockId) : Operation m (positionAtEnd b)
  | positionBefore (i : InstId) : Operation m (positionBefore i)
  -- Instructions.
  | intLiteral (value : Int64) (type : TypeId) : Operation m (intLiteral value type)
  | boolLiteral (value : Bool) : Operation m (boolLiteral value)
  | stringLiteral (text : Text) (encoding : Encoding) : Operation m (stringLiteral text encoding)
  | primitive (p : Primitive) {args : List (Option Value)} (h : m.KnowsAll args) :
    Operation m (primitive p args)
  | alloc (type : TypeId) : Operation m (alloc type)
  | load {address : Option Value} (h : m.Knows address) : Operation m (load address)
  | store {value address : Option Value} (h : m.Knows value) (h' : m.Knows address) :
    Operation m (store value address)
  | copyAddr {source dest : Option Value} (h : m.Knows source) (h' : m.Knows dest) :
    Operation m (copyAddr source dest)
  | br (target : Option BlockId) {args : List (Option Value)} (h : m.KnowsAll args) :
    Operation m (br target args)
  | condBr {cond : Option Value} (onTrue onFalse : Option BlockId)
    {trueArgs falseArgs : List (Option Value)} (h : m.Knows cond)
      (h' : m.KnowsAll (trueArgs ++ falseArgs)) :
    Operation m (condBr cond onTrue trueArgs onFalse falseArgs)
  | ret {value : Option Value} (h : m.Knows value) : Operation m (ret value)
  | trap : Operation m trap
  | call {callee : Option FuncId} {args : List (Option Value)} (h : m.Knows (callee.map Value.func))
    (h' : m.KnowsAll args) : Operation m (call callee args)
  | apply {callee : Option Value} {args : List (Option Value)} (h : m.Knows callee)
    (h' : m.KnowsAll args) : Operation m (apply callee args)
  | struct (type : TypeId) {fields : List (Option Value)} (h : m.KnowsAll fields) :
    Operation m (struct type fields)
  | structExtract {value : Option Value} (h : m.Knows value) (field : Text) :
    Operation m (structExtract value field)
  | structElementPtr {address : Option Value} (h : m.Knows address) (field : Text) :
    Operation m (structElementPtr address field)
  | tuple {elems : List (Option Value)} (h : m.KnowsAll elems) : Operation m (tuple elems)
  | tupleExtract {value : Option Value} (h : m.Knows value) (index : Int) :
    Operation m (tupleExtract value index)
  | tupleElementPtr {address : Option Value} (h : m.Knows address) (index : Int) :
    Operation m (tupleElementPtr address index)
  | named {value : Option Value} (h : m.Knows value) (name : Text) : Operation m (named value name)
  | existentialBox {value : Option Value} (h : m.Knows value) (concept : TypeId) :
    Operation m (existentialBox value concept)
  | existentialWitness {box : Option Value} (h : m.Knows box) (method : Text) :
    Operation m (existentialWitness box method)
  | existentialProject {box : Option Value} (h : m.Knows box) : Operation m (existentialProject box)
  | existentialPropertyPtr {box : Option Value} (h : m.Knows box) (property : Text) :
    Operation m (existentialPropertyPtr box property)
  | existentialRetain {box : Option Value} (h : m.Knows box) : Operation m (existentialRetain box)
  | existentialRelease {box : Option Value} (h : m.Knows box) (unowned : Bool) :
    Operation m (existentialRelease box unowned)
  | allocObject (type : TypeId) : Operation m (allocObject type)
  | retain {object : Option Value} (h : m.Knows object) : Operation m (retain object)
  | release {object : Option Value} (h : m.Knows object) (unowned : Bool) :
    Operation m (release object unowned)
  | dealloc {object : Option Value} (h : m.Knows object) (unowned : Bool) :
    Operation m (dealloc object unowned)
  -- Edits.
  | setName (v : Value) (name : Text) : Operation m (setName v name)
  | setOperand {o : OperandId} (h : m.InUse o) {v : Option Value} (h' : m.Knows v) :
    Operation m (setOperand o v)
  | replaceAllUses (v : Option Value) {w : Option Value} (h : m.Knows w) :
    Operation m (replaceAllUses v w)
  | insert {i : Option InstId} (h : m.Knows (i.map Value.inst)) : Operation m (insert i)
  | detach (i : Option InstId) : Operation m (detach i)
  | move (i : Option InstId) (place : Cursor) : Operation m (move i place)
  | replace (old : Option InstId) {new : Option InstId} (h : m.Knows (new.map Value.inst)) :
    Operation m (replace old new)
  | beginExplosion (i : Option InstId) : Operation m (beginExplosion i)
  | endExplosion {x : Explosion} (h : x.Made m) (outcome : Except Error Unit) :
    Operation m (endExplosion x outcome)
  | erase (i : Option InstId) : Operation m (erase i)
  | eraseFrom (parent : Option BlockId) (i : Option InstId) : Operation m (eraseFrom parent i)
  | eraseBlocks (blocks : List (Option BlockId)) : Operation m (eraseBlocks blocks)
  | mergeBlocks (pred succ : Option BlockId) : Operation m (mergeBlocks pred succ)
  | moveBlockAfter (b anchor : Option BlockId) : Operation m (moveBlockAfter b anchor)
  | moveBlockBefore (b anchor : Option BlockId) : Operation m (moveBlockBefore b anchor)
  -- Functions, and what else a module has.
  | appendBlock (name : Text) (params : List Member) : Operation m (appendBlock name params)
  | addFunction (name : Text) (type : TypeId) : Operation m (addFunction name type)
  | addUniqueFunction (name : Text) (type : TypeId) : Operation m (addUniqueFunction name type)
  | getOrAddFunction (name : Text) (type : TypeId) : Operation m (getOrAddFunction name type)
  | resolve (name : Text) : Operation m (resolve name)
  | defineBody {f : FuncId} (h : m.HasValue (.func f)) (names : List Text) :
    Operation m (defineBody f names)
  | buildFunction (name : Text) (type : TypeId) (names : List Text) :
    Operation m (buildFunction name type names)
  | buildUniqueFunction (name : Text) (type : TypeId) (names : List Text) :
    Operation m (buildUniqueFunction name type names)
  | getOrBuildFunction (name : Text) (type : TypeId) (names : List Text) :
    Operation m (getOrBuildFunction name type names)
  | removeFunction {f : FuncId} (h : m.HasValue (.func f)) : Operation m (removeFunction f)
  | annotate (f : FuncId) (visibility : Visibility) (inlining : Inlining)
    (noReturn readNone : Bool) :
    Operation m (modifyFunc f ({ · with visibility, inlining, noReturn, readNone }))
  | addGlobal (name : Text) (elem : TypeId) : Operation m (addGlobal name elem)
  | dress (types : TypeTable) (providers : List Provider) (typeDecls : List TypeId) :
    Operation m (modifyModule ({ · with types, providers, typeDecls }))

theorem Operation.keeps {x : Build α} (hx : Operation s.module x) (h : s.Sound) : Keeps x s := by
  have construct {l : Line} {y : Build InstId} (hy : Constructor l y)
      (hreads : s.module.KnowsAll l.reads) : Keeps y s :=
    (builds_construct h hy hreads).keeps h
  cases hx with
  | setCursor c => exact keeps_setCursor h c
  | positionAtEnd b => exact keeps_positionAtEnd h b
  | positionBefore i => exact keeps_positionBefore h i
  | intLiteral | boolLiteral | stringLiteral | alloc | allocObject =>
    exact construct inferInstance .nil
  | load hv | structExtract hv | structElementPtr hv | tupleExtract hv | tupleElementPtr hv
  | named hv | existentialBox hv | existentialWitness hv | existentialProject hv
  | existentialPropertyPtr hv | existentialRetain hv
  | existentialRelease hv | retain hv | release hv | dealloc hv =>
    exact construct inferInstance (.cons hv .nil)
  | store hv ha | copyAddr hv ha => exact construct inferInstance (.cons hv (.cons ha .nil))
  | primitive _ hargs | struct _ hargs | tuple hargs => exact construct inferInstance hargs
  | br target hargs => exact (builds_br h hargs).keeps h
  | condBr onTrue onFalse hcond hargs => exact (builds_condBr h hcond hargs).keeps h
  | ret hv => exact (builds_ret h hv).keeps h
  | trap => exact (builds_trap h).keeps h
  | @call callee _ hf hargs =>
    cases callee with
    | none => exact (Tries.fail _).keeps h
    | some f => exact construct (.call f _) (.cons hf hargs)
  | apply hf hargs => exact construct (.apply _ _) (.cons hf hargs)
  | setName v name => exact keeps_setName h v name
  | setOperand ho hv => exact keeps_setOperand h ho hv
  | replaceAllUses v hw => exact keeps_replaceAllUses h v hw
  | insert hi => exact (builds_insert h fun i he => hi _ (by rw [he]; rfl)).keeps h
  | detach i => exact (tries_detach h i).keeps h
  | move i place => exact (tries_move h i place).keeps h
  | replace old hnew => exact (tries_replace h old fun i he => hnew _ (by rw [he]; rfl)).keeps h
  | beginExplosion i =>
    exact wp_imp (wp_beginExplosion h i) fun _ _ ht => ht.1
  | endExplosion hx outcome => exact keeps_endExplosion h hx outcome
  | erase i => exact (tries_erase h i).keeps h
  | eraseFrom parent i => exact (tries_eraseFrom h parent i).keeps h
  | eraseBlocks blocks => exact (tries_eraseBlocks h blocks).keeps h
  | mergeBlocks pred succ => exact (tries_mergeBlocks h pred succ).keeps h
  | moveBlockAfter b anchor =>
    exact (tries_moveBlock h b anchor false (fun _ _ => .refl _) fun _ _ _ => rfl).keeps h
  | moveBlockBefore b anchor =>
    exact (tries_moveBlock h b anchor true (fun _ _ => .swap _ _ _) nofun).keeps h
  | appendBlock name params => exact (builds_appendBlock h name params).keeps h
  | addFunction name type => exact (buildsFunc_addFunction h name type).builds.keeps h
  | addUniqueFunction name type => exact (buildsFunc_addUniqueFunction h name type).builds.keeps h
  | getOrAddFunction name type => exact (buildsFunc_getOrAddFunction h name type).builds.keeps h
  | resolve name => exact (buildsFunc_resolve h name).builds.keeps h
  | defineBody hf names => exact (builds_defineBody h hf names).keeps h
  | buildFunction name type names => exact (buildsFunc_addFunction h name type).define h names
  | buildUniqueFunction name type names =>
    exact (buildsFunc_addUniqueFunction h name type).define h names
  | getOrBuildFunction name type names =>
    rw [Keeps, Build.getOrBuildFunction, wp_bind]
    refine wp_mono (buildsFunc_getOrAddFunction h name type) (fun f t ht => ?_) fun _ _ he =>
      he.survives h
    rw [wp_bind, wp_func]
    split
    · exact ht.1.extends
    · exact (keeps_defineAndEnter ht.1.sound ht.2 names).of_extends ht.1.extends
  | removeFunction hf => exact (tries_removeFunction h hf).keeps h
  | annotate f visibility inlining noReturn readNone =>
    exact keeps_annotate h f fun _ => ⟨rfl, rfl, rfl, rfl⟩
  | addGlobal name elem => exact (tries_addGlobal h name elem).keeps h
  | dress types providers typeDecls => exact keeps_dress h types providers typeDecls

/-- A builder that was reached from that of an empty module. An operation that crashes is
the last. -/
inductive Built : Builder → Prop
  | new (name : Text) : Built { module := { name } }
  | step {s t : Builder} {α : Type} {x : Build α} {a : α} (h : Built s) (hx : Operation s.module x)
    (ht : x.run.run s = (.ok a, t)) : Built t
  | refused {s t : Builder} {α : Type} {x : Build α} {e : Error} (h : Built s)
    (hx : Operation s.module x) (ht : x.run.run s = (.error (.error e), t)) : Built t

theorem linked_new (name : Text) : Module.Linked { name } where
  wired := by
    refine ⟨fun v o k => ⟨fun hk => ?_, fun hk => nomatch hk.2.1⟩, fun _ _ _ => nofun,
      fun _ _ _ => nofun⟩
    cases v <;> cases hk
  operand _ := nofun
  arg _ := nofun
  openArg _ _ _ _ := nofun
  owned _ _ := nofun
  target _ := nofun
  incoming _ := nofun
  enters _ he := absurd rfl he
  pred _ := nofun
  predIsSome _ := nofun
  predIsNone _ _ := rfl
  targetsNodup _ := nodup_nil
  edgesNodup _ := nodup_nil

theorem shape_new (name : Text) : (Module.view { name }).Shape where
  insts := ⟨fun _ _ => nofun, fun _ => nodup_nil⟩
  blocks := ⟨fun _ _ => ⟨nofun, nofun⟩, fun _ => nodup_nil, fun _ _ => rfl⟩
  params := ⟨fun _ => nofun, fun _ => nofun, fun _ => nodup_nil⟩
  formed := ⟨nofun, fun _ _ => rfl, fun _ _ => trivial⟩
  order := nofun

theorem Built.sound (h : Built s) : s.Sound := by
  induction h with
  | new name => exact ⟨linked_new name, shape_new name, ⟨nofun, nofun, nofun⟩, nofun⟩
  | step _ hx ht ih => exact ((wp_iff_of_ok ht).mp (hx.keeps ih)).sound
  | refused _ hx ht ih =>
    exact (((wp_iff_of_error ht).mp (hx.keeps ih)).extends_of_error _ rfl).sound

/-- What holds of empty modules and is kept by every change holds of all that was built. -/
theorem Built.induct {P : View → Prop} (hnew : ∀ name, P (Module.view { name }))
    (hP : ∀ {w w' : View}, w.Shape → w.Change w' → P w → P w') (h : Built s) : P s.view := by
  have hext : ∀ {s t : Builder}, Built s → s.Extends t → P s.view → P t.view := fun hs h hp =>
    (h.changes.induct hP hs.sound.shape hp).2
  induction h with
  | new name => exact hnew name
  | step hs hx ht ih => exact hext hs ((wp_iff_of_ok ht).mp (hx.keeps hs.sound)) ih
  | refused hs hx ht ih =>
    exact hext hs (((wp_iff_of_error ht).mp (hx.keeps hs.sound)).extends_of_error _ rfl) ih

def after {α : Type} (x : Build α) (s : Builder) : Builder := (x.run.run s).2

theorem built_after {x : Build α} (h : Built s)
    (hx : Operation s.module x := by (with_reducible constructor) <;> decide +kernel)
    (hok : checked (x.run.run s).1 (fun _ => true) = true := by decide +kernel) :
    Built (after x s) := by
  obtain ⟨a, ha⟩ := exists_run_of_checked hok
  exact .step h hx ha

end Midlevel.Ir
