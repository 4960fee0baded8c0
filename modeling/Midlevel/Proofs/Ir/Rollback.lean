import Midlevel.Proofs.Ir.Cursor
import Midlevel.Proofs.Ir.Framing

/-!
Taking back what was built. Building adds entries behind those that a module has; of these it
changes only the lists of blocks, which get new instructions and edges, and the use lists, which get
new operands at the end. An operand that is dropped leaves its place to the last one, and that is a
new one too. So the new operands may be dropped in any order, and the old ones never move.
-/

namespace Midlevel.Ir

open Build Block Pool

variable {α : Type} {base m m' : Module} {s t : Builder} {i : InstId} {o : OperandId}
  {e : EdgeId} {b : BlockId}
  {x : Inst} {vs : Args} {E : Post Fault}

namespace Pool

variable {k k' : Entity} {β γ : Type} [Inhabited α] {p old : Pool k α} {f : α → β}
  {parts : α → List (Id k')}
  {others : Pool k' γ}

/-- What `old` has is there, and `f` sees no change in it. -/
def Keeps (p old : Pool k α) (f : α → β) : Prop :=
  ∀ i, old.Has i → p.Has i ∧ f (p.get i) = f (old.get i)

theorem Keeps.push (h : p.Keeps old f) (x : α) : (p.push x).Keeps old f := by
  intro i hi
  obtain ⟨hhas, heq⟩ := h i hi
  have hne : i ≠ p.next := by
    rintro rfl
    exact p.not_has_next hhas
  rw [get_push, if_neg hne]
  exact ⟨(has_push ..).mpr (.inl hhas), heq⟩

theorem Keeps.update (h : p.Keeps old f) {i : Id k} (hi : ¬ old.Has i) (g : α → α) :
    (p.update i g).Keeps old f := by
  intro j hj
  have hne : i ≠ j := by
    rintro rfl
    exact hi hj
  rw [get_update_of_ne _ hne]
  exact (h j hj).imp_left (has_update ..).mpr

/-- What is new has only parts that are new. -/
def Apart (p old : Pool k α) (parts : α → List (Id k')) (others : Pool k' γ) : Prop :=
  ∀ i, ¬ old.Has i → ∀ o ∈ parts (p.get i), ¬ others.Has o

theorem Apart.push (h : p.Apart old parts others) {x : α} (hx : ∀ o ∈ parts x, ¬ others.Has o) :
    (p.push x).Apart old parts others := by
  intro i hi
  rw [get_push]
  split
  · exact hx
  · exact h i hi

theorem Apart.update (h : p.Apart old parts others) {i : Id k} {g : α → α}
    (hg : ∀ o ∈ parts (g (p.get i)), ¬ others.Has o) : (p.update i g).Apart old parts others := by
  intro j hj
  rcases p.get_update_cases i j g with heq | ⟨rfl, heq⟩
  · rw [heq]
    exact h j hj
  · rw [heq]
    exact hg

end Pool

def Block.within (x : Block) (base : Module) : Block :=
  { x with insts := x.insts.filter (base.insts.Has ·), edges := x.edges.filter (base.edges.Has ·) }

namespace Module

def frame (m : Module) : Module :=
  { m.skeleton with types := .initial, insts := {}, blocks := {}, edges := {} }

/-- The module has grown out of `base`: what that had is there, and what is new consists of what
is new. -/
structure Over (m base : Module) : Prop where
  insts : m.insts.Keeps base.insts Inst.bare
  operands : m.operands.Keeps base.operands id
  edges : m.edges.Keeps base.edges id
  block : ∀ b, (m.blocks.get b).within base = (base.blocks.get b).within base
  frame : m.frame = base.frame
  reads : m.insts.Apart base.insts Inst.operands base.operands
  targets : m.insts.Apart base.insts Inst.targets base.edges
  args : m.edges.Apart base.edges Edge.args base.operands
  sources : ∀ e, ¬ base.edges.Has e → m.edges.Has e → (m.edges.get e).source ≠ none

namespace Over

variable (h : m.Over base)

include h

theorem operand (ho : base.operands.Has o) : m.operands.get o = base.operands.get o :=
  (h.operands o ho).2

theorem edge (he : base.edges.Has e) : m.edges.get e = base.edges.get e := (h.edges e he).2

theorem withTypes (types : TypeTable) : (m.withTypes types).Over base := { h with }

theorem pushInst (hx : Fresh x) : { m with insts := m.insts.push x }.Over base :=
  { h with
    insts := h.insts.push x
    reads := h.reads.push (by simp [hx.operands])
    targets := h.targets.push (by simp [hx.targets]) }

theorem updateInst (hi : ¬ base.insts.Has i) {f : Inst → Inst}
    (hreads : ∀ o ∈ (f (m.insts.get i)).operands, ¬ base.operands.Has o)
    (htargets : ∀ e ∈ (f (m.insts.get i)).targets, ¬ base.edges.Has e) :
    (m.updateInst i f).Over base :=
  { h with
    insts := h.insts.update hi f
    reads := h.reads.update hreads
    targets := h.targets.update htargets }

theorem updateBlock (b : BlockId) {f : Block → Block}
    (hf : ∀ x, (f x).within base = x.within base) :
    (m.updateBlock b f).Over base :=
  { h with block := fun c => (m.blocks.get_update_part (within · base) b c hf).trans (h.block c) }

theorem pushEdge (x : Edge) (hargs : ∀ o ∈ x.args, ¬ base.operands.Has o)
    (hsource : x.source ≠ none) :
    { m with edges := m.edges.push x }.Over base :=
  { h with
    edges := h.edges.push x
    args := h.args.push hargs
    sources := fun e he hhas => by
      rw [get_push]
      split
      · exact hsource
      · next hne => exact h.sources e he (((has_push ..).mp hhas).resolve_right hne) }

theorem clearEdge (he : ¬ base.edges.Has e) : (m.updateEdge e ({ · with args := [] })).Over base :=
  { h with
    edges := h.edges.update he _
    args := h.args.update (by simp)
    sources := fun c hc hhas => by
      rw [Module.updateEdge,
        m.edges.get_update_part Edge.source e c (f := ({ · with args := [] })) fun _ => rfl]
      exact h.sources c hc ((has_update ..).mp hhas) }

theorem of_skeleton (hs : m'.skeleton = m.skeleton) (hold : m'.operands.Keeps base.operands id) :
    m'.Over base where
  insts i hi := (h.insts i hi).imp (skeleton_hasInst hs i).mpr (skeleton_inst hs i).trans
  operands := hold
  edges := skeleton_edges hs ▸ h.edges
  block := skeleton_blocks hs ▸ h.block
  frame := (congrArg (fun m => { m with types := .initial, insts := {}, blocks := {}, edges := {} })
    hs :).trans h.frame
  reads i hi := skeleton_operands hs i ▸ h.reads i hi
  targets i hi := skeleton_targets hs i ▸ h.targets i hi
  args := skeleton_edges hs ▸ h.args
  sources := skeleton_edges hs ▸ h.sources

theorem newOperands (vs : Args) (user : Option InstId) :
    (m.newOperands vs user).2.skeleton = m.skeleton ∧
    (m.newOperands vs user).2.Over base ∧
      ∀ o ∈ (m.newOperands vs user).1, ¬ base.operands.Has o := by
  have hnew := m.appends_newOperands vs user
  have hfresh : ∀ o ∈ (m.newOperands vs user).1, ¬ base.operands.Has o := fun o ho hold =>
    hnew.fresh o ho (h.operands o hold).1
  refine ⟨hnew.skeleton, h.of_skeleton hnew.skeleton fun o ho =>
    ⟨(hnew.has o).mpr (.inl (h.operands o ho).1), ?_⟩, hfresh⟩
  exact (hnew.old o fun hmem => hfresh o hmem ho).trans (h.operands o ho).2

end Over

end Module

/-! ### Building -/

theorem within_insert (hi : ¬ base.insts.Has i) (before : Option InstId) (x : Block) :
    { x with insts := insertBefore i before x.insts }.within base = x.within base := by
  have hlist : (insertBefore i before x.insts).filter (base.insts.Has ·) =
      x.insts.filter (base.insts.Has ·) := by
    cases before with
    | none => simp [insertBefore, hi]
    | some j =>
      rw [insertBefore, List.filter_append, List.filter_cons_of_neg (by simpa using hi),
        ← List.filter_append,
        List.takeWhile_append_dropWhile]
  rw [within, hlist]
  rfl

/-- The module has grown out of `base`, and the instructions that are new are in the journal or yet
to be put there. -/
structure Builder.Grown (base : Module) (s : Builder) (pending : List InstId := []) : Prop where
  grew : s.module.Over base
  logged : ∃ is, s.journal = some is ∧ ∀ j, j ∈ is ++ pending ↔ s.module.insts.Has j ∧
    ¬ base.insts.Has j

theorem Builder.Grown.pending (h : s.Grown base [i]) : ¬ base.insts.Has i := by
  obtain ⟨is, -, hall⟩ := h.logged
  exact ((hall i).mp (by simp)).2

theorem grows_newInst (h : s.Grown base) (hx : Fresh x) (vs : Args) :
    wp (newInst x vs) (fun i t => t.Grown base [i]) E s := by
  unfold newInst
  simp only [wp_bind, wp_module, wp_modifyModule, wp_modifyGet, wp_modifyInst, wp_pure]
  obtain ⟨is, his, hall⟩ := h.logged
  have hnew : ¬ base.insts.Has s.module.insts.next := fun hi =>
    s.module.insts.not_has_next (h.grew.insts _ hi).1
  obtain ⟨hs, hover, hos⟩ := (h.grew.pushInst hx).newOperands vs (some s.module.insts.next)
  refine ⟨hover.updateInst hnew hos (hover.targets _ hnew), is, his, fun j => ?_⟩
  dsimp only [Module.updateInst]
  rw [has_update, Module.skeleton_hasInst hs, has_push]
  by_cases hj : j = s.module.insts.next
  · simp [hj, hnew]
  · simpa [hj] using hall j

theorem grows_newEdge (h : s.Grown base [i]) (b c : BlockId) (vs : Args) :
    wp (newEdge b (some c) (some i) vs) (fun e t => t.Grown base [i] ∧ ¬ base.edges.Has e) E s := by
  unfold newEdge
  simp only [wp_bind, wp_module, wp_modifyModule, wp_pure]
  obtain ⟨is, his, hall⟩ := h.logged
  have hnew : ¬ base.edges.Has s.module.edges.next := fun he =>
    s.module.edges.not_has_next (h.grew.edges _ he).1
  obtain ⟨hs, hover, hos⟩ := h.grew.newOperands vs (some i)
  refine ⟨⟨(hover.pushEdge ⟨some b, some c, some i, _⟩ hos (by simp)).updateBlock b fun x => ?_, is,
    his, fun j => ?_⟩, hnew⟩
  · simp [within, hnew]
  · rw [hall, ← Module.skeleton_hasInst hs]

theorem grows_attach (h : s.Grown base [i]) (b : BlockId) :
    wp (attach i b) (fun _ t => t.Grown base) E s := by
  unfold attach
  simp only [wp_bind, wp_cursor, wp_modifyBlock, wp_modifyInst, wp_modify]
  obtain ⟨is, his, hall⟩ := h.logged
  refine ⟨(h.grew.updateBlock b (within_insert h.pending _)).updateInst h.pending
    (h.grew.reads i h.pending)
    (h.grew.targets i h.pending), is ++ [i], by rw [his]; rfl, fun j => ?_⟩
  dsimp only [Module.updateInst]
  rw [has_update, List.append_nil]
  exact hall j

theorem grows_finish (h : s.Grown base [i]) {es : List EdgeId} (hes : ∀ e ∈ es, ¬ base.edges.Has e)
    (b : BlockId) :
    wp (do modifyInst i ({ · with targets := es }); attach i b; return i)
    (fun _ t => t.Grown base) E s := by
  rw [wp_bind, wp_modifyInst, wp_bind]
  obtain ⟨is, his, hall⟩ := h.logged
  have hover := h.grew.updateInst h.pending (f := ({ · with targets := es }))
    (h.grew.reads i h.pending) hes
  refine grows_attach (s := { s with module := _ }) ⟨hover, is, his, fun j => ?_⟩ b
  dsimp only [Module.updateInst]
  rw [has_update]
  exact hall j

theorem grows_emit (h : s.Grown base) (hx : Fresh x) (vs : Args) :
    wp (emit x vs) (fun _ t => t.Grown base) Any s := by
  rw [emit, wp_bind]
  refine wp_checkAttach (fun _ _ => trivial) fun b _ =>
    wp_seq (grows_newInst h hx vs) fun i t ht => ?_
  rw [wp_bind]
  exact grows_attach ht b

theorem Call.grows {y : Build InstId} (hy : Call s.module y) (h : s.Grown base) :
    wp y (fun _ t => t.Grown base) Any s := by
  have hfresh (op : Opcode) : Fresh { op, type := .void } := ⟨rfl, rfl, rfl⟩
  have hkeep (s t : Builder) (heq : s = t) : s.Grown base → t.Grown base := (heq ▸ ·)
  cases hy with
  | construct hy =>
    exact hy.wp (fun _ _ _ => trivial) fun types _ hf =>
      grows_emit (s := { s with module := s.module.withTypes types })
        ⟨h.grew.withTypes types, h.logged⟩
        hf.simple.fresh _
  | br target =>
    refine wp_bind_keeping hkeep h fun b s h => wp_bind_keeping hkeep h fun _ s h => ?_
    refine wp_bind_keeping hkeep h fun c s h =>
      wp_seq (grows_newInst h (hfresh _) _) fun i s h => ?_
    refine wp_seq (grows_newEdge h _ _ _) fun e s h => grows_finish h.1 (by simpa using h.2) _
  | condBr onTrue onFalse =>
    refine wp_bind_keeping hkeep h fun v s h => wp_bind_keeping hkeep h fun b s h => ?_
    refine wp_bind_keeping hkeep h fun c s h => wp_bind_keeping hkeep h fun _ s h => ?_
    refine wp_bind_keeping hkeep h fun _ s h => wp_bind_keeping hkeep h fun d s h => ?_
    refine wp_seq (grows_newInst h (hfresh _) _) fun i s h =>
      wp_seq (grows_newEdge h _ _ _) fun e s h => ?_
    refine wp_seq (grows_newEdge h.1 _ _ _) fun e' s h' => grows_finish h'.1 ?_ _
    simpa using ⟨h.2, h'.2⟩
  | @ret value =>
    rw [Build.ret, wp_bind, wp_currentFunc]
    split
    · trivial
    · refine wp_bind_keeping hkeep h fun type s h => ?_
      cases value with
      | none =>
        dsimp only
        split
        · trivial
        · exact grows_emit h (hfresh _) _
      | some v =>
        dsimp only
        split
        · trivial
        · exact wp_bind_keeping hkeep h fun w s h => grows_emit h (hfresh _) _
  | trap => exact grows_emit h (hfresh _) _

/-- Calls, accepted or refused, and moves of the cursor. -/
inductive Acts (s : Builder) : Builder → Prop
  | refl : Acts s s
  | call {t u : Builder} {x : Build InstId} {i : InstId} (h : Acts s t) (hx : Call t.module x)
    (hu : x.run.run t = (.ok i, u)) : Acts s u
  | refused {t u : Builder} {x : Build InstId} {e : Error} (h : Acts s t) (hx : Call t.module x)
    (hu : x.run.run t = (.error (.error e), u)) : Acts s u
  | move {t : Builder} (h : Acts s t) (c : Cursor) : Acts s { t with cursor := c }

theorem Acts.grown (h : Acts s t) (hs : s.Sound) (hg : s.Grown base) : t.Sound ∧ t.Grown base := by
  induction h with
  | refl => exact ⟨hs, hg⟩
  | call _ hx hu ih =>
    exact ⟨((wp_iff_of_ok hu).mp (hx.builds ih.1)).sound, (wp_iff_of_ok hu).mp (hx.grows ih.2)⟩
  | refused _ hx hu ih =>
    have hgains := ((wp_iff_of_error hu).mp (hx.builds ih.1)).gains _ rfl
    have hsound := (hgains.adds ih.1).sound
    obtain ⟨types, -, rfl⟩ := hgains
    exact ⟨hsound, ih.2.grew.withTypes types, ih.2.logged⟩
  | move _ c ih =>
    exact ⟨⟨ih.1.linked, ih.1.shape, ih.1.ended, ih.1.journal⟩, ih.2.grew, ih.2.logged⟩

/-! ### Taking back -/

namespace Module

theorem over_self (m : Module) : m.Over m where
  insts _ h := ⟨h, rfl⟩
  operands _ h := ⟨h, rfl⟩
  edges _ h := ⟨h, rfl⟩
  block _ := rfl
  frame := rfl
  reads _ hi := get_of_not_has hi ▸ fun _ ho => absurd ho List.not_mem_nil
  targets _ hi := get_of_not_has hi ▸ fun _ he => absurd he List.not_mem_nil
  args _ he := get_of_not_has he ▸ fun _ ho => absurd ho List.not_mem_nil
  sources _ he hhas := absurd hhas he

variable (hb : base.Wired)

include hb

theorem Over.last_new (h : m.Over base) (hm : m.Wired) (ho : ¬ base.operands.Has o)
    {v : Value} {n : Nat}
    {last : OperandId} (hn : (m.uses v)[n]? = some o) (hlast : (m.uses v).getLast? = some last) :
    ¬ base.operands.Has last := by
  intro hold
  rw [List.getLast?_eq_getElem?] at hlast
  obtain ⟨-, hv, hk⟩ := (hm.registered v last _).mp hlast
  rw [operandValue, h.operand hold] at hv
  rw [h.operand hold] at hk
  -- an old operand is as far down the list as it was, so what stands above it was there too
  have hlt : n < (base.uses v).length := by
    have hlen := (List.getElem?_eq_some_iff.mp ((hb.registered v last _).mpr ⟨trivial, hv, hk⟩)).1
    have hlen' := (List.getElem?_eq_some_iff.mp hn).1
    omega
  obtain ⟨-, hread, hindex⟩ := (hb.registered v _ n).mp (List.getElem?_eq_getElem hlt)
  have hhas := hasOperand_of_value hread
  rw [operandValue, ← h.operand hhas] at hread
  rw [← h.operand hhas] at hindex
  have hsame := hn.symm.trans ((hm.registered v _ n).mpr ⟨trivial, hread, hindex⟩)
  exact ho (Option.some.inj hsame ▸ hhas)

theorem Over.drop (h : m.Over base) (hm : m.Wired) (ho : ¬ base.operands.Has o) :
    ∃ m', m.setOperand? o none = some m' ∧ m'.Wired ∧ m'.Over base := by
  cases hread : m.operandValue o with
  | none => exact ⟨m, if_pos hread, hm, h⟩
  | some v =>
    obtain ⟨m', heq, hm'⟩ := setOperand?_eq hm (hasOperand_of_value hread) none (by simp)
    obtain ⟨n, last, -, hn, hlast, hremove⟩ := removeUse?_eq hm hread
    have hlast := h.last_new hb hm ho hn hlast
    refine ⟨m', heq, hm'.wired, h.of_skeleton hm'.skeleton ?_⟩
    rw [setOperand?, show (m.operands.get o).value = some v from hread, if_neg (by simp)] at heq
    dsimp only at heq
    rw [hremove] at heq
    obtain rfl := Option.some.inj heq
    exact ((h.operands.update hlast _).update ho _).update ho _

end Module

section Discarding

theorem filter_ne_filter [DecidableEq α] {p : α → Bool} {a : α} (ha : p a = false) (xs : List α) :
    (xs.filter (· ≠ a)).filter p = xs.filter p := by
  rw [List.filter_filter]
  refine List.filter_congr fun x _ => ?_
  by_cases hx : x = a
  · simp [hx, ha]
  · simp [hx]

/-- A module that new operands can be dropped from. -/
abbrev Builder.Undoes (s : Builder) (base : Module) : Prop := s.module.Wired ∧ s.module.Over base

variable (hb : base.Wired)

include hb

section

variable (h : s.Undoes base)
include h

theorem undoes_dropOperands {os : List OperandId} (hos : ∀ o ∈ os, ¬ base.operands.Has o) :
    wp (dropOperands os) (fun _ t => t.Undoes base) E s := by
  refine wp_forM_of_each (·.Undoes base) (fun o ho t ht => ?_) h fun _ h => h
  obtain ⟨m', heq, h'⟩ := ht.2.drop hb ht.1 (hos o ho)
  unfold setOperand applyUses
  simp only [wp_bind, wp_module, heq]
  exact h'

theorem undoes_detachEdge (he : ¬ base.edges.Has e) :
    wp (detachEdge e) (fun _ t => t.Undoes base) E s := by
  rw [detachEdge, wp_bind, wp_edge]
  refine wp_seq (undoes_dropOperands hb h (h.2.args e he)) fun _ t ht => ?_
  rw [wp_bind, wp_modifyEdge, wp_bind, wp_edge]
  have hover := ht.2.clearEdge he
  split
  · exact ⟨ht.1.congr (fun _ => rfl) fun _ hv => hv, hover⟩
  · refine ⟨ht.1.congr (fun _ => rfl) fun _ hv => hv, hover.updateBlock _ fun x => ?_⟩
    rw [within, filter_ne_filter (by simpa using he), within]

theorem undoes_dropAll (hi : ¬ base.insts.Has i) :
    wp (dropAll i) (fun _ t => t.Undoes base) E s := by
  have hnil {β : Type} (p : β → Prop) : ∀ x ∈ ([] : List β), p x := by simp
  rw [dropAll, wp_bind, wp_inst]
  refine wp_seq (undoes_dropOperands hb h (h.2.reads i hi)) fun _ t ht => ?_
  rw [wp_bind, wp_modifyInst, wp_bind, wp_inst, wp_bind]
  have hover := ht.2.updateInst hi (f := ({ · with operands := [] })) (hnil _) (ht.2.targets i hi)
  have hwired := ht.1.updateInst i (f := ({ · with operands := [] })) fun _ => rfl
  refine wp_forM_of_each (·.Undoes base)
    (fun e he t ht => undoes_detachEdge hb ht (hover.targets i hi e he)) ⟨hwired, hover⟩
      fun u hu => ?_
  rw [wp_modifyInst]
  exact ⟨hu.1.updateInst i fun _ => rfl, hu.2.updateInst hi (hu.2.reads i hi) (hnil _)⟩

theorem undoes_discard (hi : ¬ base.insts.Has i) :
    wp (discard i) (fun _ t => t.module.Over base) E s := by
  refine wp_seq (undoes_dropAll hb h hi) fun _ t ht => ?_
  have herase {m : Module} (hm : m.Over base) :
      (m.updateInst i ({ · with erased := true })).Over base :=
    hm.updateInst hi (hm.reads i hi) (hm.targets i hi)
  rw [unlink, wp_bind, wp_bind, wp_inst]
  split
  · exact herase ht.2
  · next b _ =>
    have hover := ht.2.updateBlock b (f := fun x => { x with insts := x.insts.filter (· ≠ i) })
        fun x => by
      rw [within, filter_ne_filter (by simpa using hi), within]
    exact herase (hover.updateInst hi (hover.reads i hi) (hover.targets i hi))

end

theorem undoes_forM_discard (ht : t.Sound) (hover : t.module.Over base) {is : List InstId}
    (his : ∀ i ∈ is, t.module.insts.Has i) (hnew : ∀ i ∈ is, ¬ base.insts.Has i) {Q : Post Unit}
    (k : ∀ m, t.Extends { t with module := m } → m.Over base →
      (∀ i, m.insts.Has i → t.module.insts.Has i) →
      (∀ i ∈ is, (m.insts.get i).erased = true) → Q () { t with module := m }) :
      wp (is.forM discard) Q E t := by
  refine wp_forM_module (fun done m => t.Extends { t with module := m } ∧ m.Over base ∧
    (∀ i, m.insts.Has i → t.module.insts.Has i) ∧ ∀ i ∈ done, (m.insts.get i).erased = true)
    ⟨ht.extends, hover, fun _ h => h, by simp⟩ (fun done i rest hsplit m hm => ?_)
    fun m hm => k m hm.1 hm.2.1 hm.2.2.1 hm.2.2.2
  have hi : i ∈ is := hsplit ▸ List.mem_append_right _ List.mem_cons_self
  have hsound := hm.1.sound
  have hlinked : wp (Build.discard i) (fun _ u => ∃ m', u = { t with module := m' } ∧ m'.Linked ∧
      m'.view = m.view.discard i) E { t with module := m } :=
    wp_discard hsound.linked (hm.1.values (.inst i) (his i hi)) fun m' hl hview =>
      ⟨m', rfl, hl, hview⟩
  refine wp_mono (wp_and (undoes_discard hb ⟨hsound.linked.wired, hm.2.1⟩ (hnew i hi)) hlinked) ?_
    fun _ _ h => h.1
  rintro _ _ ⟨hover, m', rfl, hl, hview⟩
  have hchanges := hsound.extends_of_changes (c := t.cursor) hl
    (hview ▸ (View.Change.discard _ i).changes)
  refine ⟨m', rfl, hm.1.trans hchanges, hover, fun j hj => hm.2.2.1 j ?_, fun j hj => ?_⟩
  · have hj' := (m'.hasValue_iff_view (.inst j)).mp hj
    rw [hview, View.has_discard] at hj'
    exact (m.hasValue_iff_view (.inst j)).mpr hj'
  · show (m'.view.inst j).erased = true
    rw [hview, View.inst_discard]
    split
    · rfl
    · next hne => exact hm.2.2.2 j ((List.mem_append.mp hj).resolve_right (by simpa using hne))

end Discarding

/-- Everything that `base` has is in `m` as it was. -/
structure Module.Restores (m base : Module) : Prop where
  inst : ∀ i, base.insts.Has i → m.insts.get i = base.insts.get i
  operand : ∀ o, base.operands.Has o → m.operands.get o = base.operands.get o
  edge : ∀ e, base.edges.Has e → m.edges.get e = base.edges.get e
  block : ∀ b, m.blocks.get b = base.blocks.get b
  uses : ∀ v, m.uses v = base.uses v
  frame : m.frame = base.frame

namespace Module

def Bare (m base : Module) : Prop := ∀ i, ¬ base.insts.Has i →
  (m.insts.get i).block = none ∧ (m.insts.get i).operands = [] ∧ (m.insts.get i).targets = []

theorem bare_of_erased (hm : m.view.Shape)
    (h : ∀ i, m.insts.Has i → ¬ base.insts.Has i → (m.insts.get i).erased = true) :
    m.Bare base := by
  intro i hi
  by_cases hhas : m.insts.Has i
  · obtain ⟨hblock, hreads, hexits⟩ := hm.formed.erased i (h i hhas hi)
    exact ⟨hblock, List.map_eq_nil_iff.mp hreads, List.map_eq_nil_iff.mp hexits⟩
  · rw [get_of_not_has hhas]
    exact ⟨rfl, rfl, rfl⟩

theorem Block.within_eq {x : Block} (hi : ∀ i ∈ x.insts, base.insts.Has i)
    (he : ∀ e ∈ x.edges, base.edges.Has e) :
    x.within base = x := by
  rw [within, List.filter_eq_self.mpr (by simpa using hi),
    List.filter_eq_self.mpr (by simpa using he)]

namespace Over

variable (h : m.Over base) (hb : base.Linked)

include h hb

theorem old_of_arg (he : base.edges.Has e) (ho : o ∈ (m.edges.get e).args) : base.operands.Has o :=
  (hb.arg e o (h.edge he ▸ ho)).1

variable (hbare : m.Bare base)

include hbare

theorem old_of_target (he : e ∈ (m.insts.get i).targets) : base.edges.Has e := by
  by_cases hi : base.insts.Has i
  · have htargets := congrArg Inst.targets (h.insts i hi).2
    obtain ⟨-, c, hc⟩ := hb.target i e (htargets ▸ he)
    exact hasEdge_of_target hc
  · rw [(hbare i hi).2.2] at he
    cases he

variable (hm : m.Linked)

include hm

theorem old_of_value {v : Value} (hv : m.operandValue o = some v) : base.operands.Has o := by
  obtain ⟨hsome, hnone⟩ := hm.owned o v hv
  cases huser : (m.operands.get o).user with
  | none =>
    obtain ⟨e, hsource, ho⟩ := hnone huser
    by_cases he : base.edges.Has e
    · exact h.old_of_arg hb he ho
    · refine absurd hsource (h.sources e he ?_)
      by_contra hhas
      rw [get_of_not_has hhas] at ho
      cases ho
  | some i =>
    rcases List.mem_append.mp (hsome i huser) with ho | ho
    · by_cases hi : base.insts.Has i
      · have hoperands := congrArg Inst.operands (h.insts i hi).2
        exact (hb.operand i o (hoperands ▸ ho)).1
      · rw [(hbare i hi).2.1] at ho
        cases ho
    · obtain ⟨e, he, ho⟩ := List.mem_flatMap.mp ho
      exact h.old_of_arg hb (h.old_of_target hb hbare he) ho

theorem block_eq (hs : m.view.Shape) (hs' : base.view.Shape) (b : BlockId) :
    m.blocks.get b = base.blocks.get b := by
  have hinst : ∀ i ∈ (m.blocks.get b).insts, base.insts.Has i := by
    intro i hi
    by_contra hnew
    cases (hbare i hnew).1.symm.trans (hs.insts.placed i b hi)
  have hedge : ∀ e ∈ (m.blocks.get b).edges, base.edges.Has e := by
    intro e he
    obtain ⟨htarget, hsource⟩ := hm.incoming b e he
    by_contra hnew
    obtain ⟨i, hi⟩ := Option.ne_none_iff_exists'.mp (h.sources e hnew (hasEdge_of_target htarget))
    exact hnew (h.old_of_target hb hbare (hsource i hi))
  rw [← Block.within_eq hinst hedge, h.block, Block.within_eq]
  · exact fun i hi => has_of_instBlock (hs'.insts.placed i b hi)
  · exact fun e he => hasEdge_of_target (hb.incoming b e he).1

theorem uses_eq (v : Value) : m.uses v = base.uses v := by
  refine List.ext_getElem? fun n => Option.ext fun o => ?_
  rw [hm.wired.registered, hb.wired.registered]
  refine ⟨fun ⟨_, hv, hn⟩ => ?_, fun ⟨_, hv, hn⟩ => ?_⟩
  · have ho := h.operand (h.old_of_value hb hbare hm hv)
    exact ⟨trivial, by rwa [operandValue, ← ho], ho ▸ hn⟩
  · have ho := h.operand (hasOperand_of_value hv)
    exact ⟨trivial, by rwa [operandValue, ho], ho ▸ hn⟩

theorem restores (hs : m.view.Shape) (hs' : base.view.Shape) : m.Restores base where
  inst i hi := by
    have huses : (m.insts.get i).uses = (base.insts.get i).uses := h.uses_eq hb hbare hm (.inst i)
    calc m.insts.get i = { (m.insts.get i).bare with uses := (m.insts.get i).uses } := rfl
      _ = base.insts.get i := by rw [(h.insts i hi).2, huses]; rfl
  operand _ := h.operand
  edge _ := h.edge
  block := h.block_eq hb hbare hm hs hs'
  uses := h.uses_eq hb hbare hm
  frame := h.frame

end Over

end Module

/-- An expansion that fails leaves nothing behind: whatever was built, and wherever, every
instruction, operand, edge, block and use list is as it was, and so is the cursor. -/
theorem failed_expansion_restores (hs : s.Sound) {build : Build Unit}
    (hbuild : Acts (s.expanding i) (after build (s.expanding i))) {e : Error}
    (hfail : (explode (some i) build).run.run s = (.error (.error e), t)) :
    t.module.Restores s.module ∧ t.cursor = s.cursor ∧ t.journal = s.journal := by
  suffices hwp : wp (explode (some i) build) Any (fun f t => ∀ e, f = .error e →
      t.module.Restores s.module ∧ t.cursor = s.cursor ∧ t.journal = s.journal) s from
    (wp_iff_of_error hfail).mp hwp e rfl
  have hsame : s.module.Restores s.module :=
    ⟨fun _ _ => rfl, fun _ _ => rfl, fun _ _ => rfl, fun _ => rfl, fun _ => rfl, rfl⟩
  refine wp_exploding (fun _ _ _ => ⟨hsame, rfl, rfl⟩) (fun _ _ _ he => by cases he)
    fun j b hj hb outcome => ?_
  obtain rfl := Option.some.inj hj
  obtain ⟨hsound, hover, is, his, hall⟩ := hbuild.grown (hs.expanding i) ⟨s.module.over_self, [],
    rfl, fun j => by simp [Builder.expanding]⟩
  have hmade : Explosion.Made ⟨i, s.cursor, s.journal⟩ (after build (s.expanding i)).module :=
    ⟨(hover.insts i (Module.has_of_instBlock hb)).1, fun js hjs j hj =>
      (hover.insts j (hs.journal js hjs j hj)).1⟩
  refine wp_endExplosion hsound hmade (fun e _ => ?_) fun _ _ _ _ _ _ _ _ _ _ => trivial
  have hnew {j : InstId} (hj : j ∈ is.reverse) := (hall j).mp (by simpa using hj)
  rw [his, wp_bind]
  refine undoes_forM_discard hs.linked.wired (hsound.extends.withJournal hmade.journal).sound hover
    (fun j hj => (hnew hj).1) (fun j hj => (hnew hj).2)
    fun m hm hover' hhas herased => ?_
  have hbare : m.Bare s.module := Module.bare_of_erased hm.sound.shape fun j hj hnew =>
    herased j (by simpa using (hall j).mpr ⟨hhas j hj, hnew⟩)
  exact fun _ _ => ⟨hover'.restores hs.linked hbare hm.sound.linked hm.sound.shape hs.shape,
    rfl, rfl⟩

def giveUp : Build Unit := do
  buildLiteral
  fail (.cause .noInsertPoint)

theorem abandoned_literal_restored :
    ((after giveUp (pointed.expanding ⟨0⟩)).module.blocks.get ⟨0⟩).insts ≠
    (pointed.module.blocks.get ⟨0⟩).insts ∧
    (after (explode (some ⟨0⟩) giveUp) pointed).module.Restores pointed.module ∧
    (after (explode (some ⟨0⟩) giveUp) pointed).cursor = pointed.cursor := by
  obtain ⟨e, he⟩ := exists_refusal (x := explode (some ⟨0⟩) giveUp) (s := pointed)
    (by decide +kernel)
  obtain ⟨i, hi⟩ := exists_run_of_checked (x := boolLiteral false) (s := pointed.expanding ⟨0⟩)
    (by decide +kernel)
  have hbuild : Acts (pointed.expanding ⟨0⟩) (after giveUp (pointed.expanding ⟨0⟩)) := by
    rw [after, giveUp, buildLiteral, run_bind, run_bind, hi]
    exact .call .refl (.construct (.boolLiteral false) .nil) hi
  obtain ⟨hrestores, hcursor, -⟩ := failed_expansion_restores steered_pointed.steady.sound hbuild he
  exact ⟨by decide +kernel, hrestores, hcursor⟩

def buildOther : Build Unit := do
  let _ ← buildFunction "g" predicateType.1 ["p"]

/-- A function that was built in the meantime stays, and so does its block. -/
theorem abandoned_function_stays : Built pointed ∧ ∃ e t,
    (explode (some ⟨0⟩) buildOther).run.run pointed = (.error (.error e), t) ∧
      pointed.module.funcNamed? "g" = none ∧ t.module.funcNamed? "g" = some ⟨1⟩ ∧
      (t.module.funcs.get ⟨1⟩).blocks ≠ [] ∧ ¬ t.module.Restores pointed.module := by
  obtain ⟨e, he⟩ := exists_refusal (x := explode (some ⟨0⟩) buildOther) (s := pointed)
    (by decide +kernel)
  refine ⟨built_after built_settled, e, _, he, by decide +kernel, by decide +kernel,
    by decide +kernel, fun h => ?_⟩
  have horder : (after (explode (some ⟨0⟩) buildOther) pointed).module.order =
      pointed.module.order :=
    congrArg (·.order) h.frame
  exact absurd horder (by decide +kernel)

end Midlevel.Ir
