import Midlevel.Proofs.Ir.Refusals

/-!
The cursor stays where it can be used: in a block of a function, and before an instruction of that
block. What only adds to a module leaves every such place alone. An edit that takes an instruction
or a block away has to look after the cursor, and most do. Moving an instruction does not, nor
does replacing a terminator or merging a block with itself, so these are asked to spare the place
of the cursor.
-/

namespace Midlevel.Ir

open Build View List Option

structure Cursor.Holds (c : Cursor) (w : View) : Prop where
  block : ∀ b, c.block = some b → (w.block b).func ≠ none
  before : ∀ i, c.before = some i → ∃ b, c.block = some b ∧ (w.inst i).block = some b

variable {α : Type} {w w' : View} {c : Cursor} {s t : Builder} {i : InstId}

theorem Cursor.Holds.mono (h : c.Holds w)
    (hfunc : ∀ b, c.block = some b → (w'.block b).func = (w.block b).func)
    (hblock : ∀ i b, c.before = some i → (w.inst i).block = some b → (w'.inst i).block = some b) :
    c.Holds w' where
  block b hb := hfunc b hb ▸ h.block b hb
  before i hi := by
    obtain ⟨b, hb, hin⟩ := h.before i hi
    exact ⟨b, hb, hblock i b hi hin⟩

theorem Cursor.holds_atEnd {b : BlockId} (hb : c.block = some b) (hc : c.before = none)
    (hf : (w.block b).func ≠ none) :
    c.Holds w :=
  ⟨fun d hd => mem_unique hb hd ▸ hf, fun i hi => absurd (hc.symm.trans hi) (by simp)⟩

structure View.Stays (w w' : View) : Prop where
  func : ∀ b, (w.block b).func ≠ none → (w'.block b).func = (w.block b).func
  block : ∀ i b, (w.inst i).block = some b → (w'.inst i).block = some b

theorem Cursor.Holds.stays (h : c.Holds w) (hs : w.Stays w') : c.Holds w' :=
  h.mono (fun b hb => hs.func b (h.block b hb)) fun i b _ => hs.block i b

theorem View.Stays.place (h : w.Stays w') (hi : (w'.inst i).block = none) (b : BlockId)
    (before : Option InstId) :
    w.Stays (w'.place i b before) := by
  refine ⟨fun d hd => ?_, fun j d hj => ?_⟩
  · rw [block_place]
    split <;> exact h.func d hd
  · have hj' := h.block j d hj
    rw [inst_place, if_neg]
    · exact hj'
    · rintro rfl
      cases hi.symm.trans hj'

theorem View.Growth.stays (h : w.Growth w') : w.Stays w' := by
  have hadded (hu : w.Unused) (x : Block) (ps : List Member) (b : BlockId)
    (hb : (w.block b).func ≠ none) :
      (((w.addBlock x).addParams w.nextBlock ps).block b).func = (w.block b).func := by
    rw [w.block_addBlock_of_ne]
    rintro rfl
    exact hb hu.block
  cases h with
  | alike h => exact ⟨fun b _ => by rw [h.block], fun i b hi => (h.inst i).1.trans hi⟩
  | @emit x vs exits hu hx _ b before _ =>
    have hinst (j : InstId) : (w.addBranch x vs exits).inst j = if j = w.nextInst then x
        else w.inst j :=
      Function.update_apply ..
    have hbranch : w.Stays (w.addBranch x vs exits) := by
      refine ⟨fun _ _ => rfl, fun j d hj => ?_⟩
      rw [hinst, if_neg]
      · exact hj
      · rintro rfl
        cases hu.inst.symm.trans hj
    refine hbranch.place ?_ b before
    rw [hinst, if_pos rfl]
    exact hx.block
  | place hi _ _ => exact View.Stays.place ⟨fun _ _ => rfl, fun _ _ hj => hj⟩ hi _ _
  | addBlock hu _ _ ps => exact ⟨hadded hu _ ps, fun _ _ hi => hi⟩
  | permute | addFunc => exact ⟨fun _ _ => rfl, fun _ _ hi => hi⟩
  | define hu _ ps => exact ⟨hadded hu _ ps, fun _ _ hi => hi⟩

theorem View.Stays.trans {w'' : View} (h : w.Stays w') (h' : w'.Stays w'') : w.Stays w'' :=
  ⟨fun b hb => (h'.func b (h.func b hb ▸ hb)).trans (h.func b hb),
    fun i b hi => h'.block i b (h.block i b hi)⟩

theorem View.Growths.stays (h : w.Growths w') : w.Stays w' := by
  induction h with
  | refl => exact ⟨fun _ _ => rfl, fun _ _ hi => hi⟩
  | tail _ h ih => exact ih.trans h.stays

theorem Cursor.Holds.unlink (h : c.Holds w) (hs : w.Shape) (hi : c.before ≠ some i) :
    c.Holds (w.unlink i) := by
  refine h.mono (fun b _ => ?_) fun j b hj hb => ?_
  · rw [block_unlink (hs.insts.placed i)]
  · exact (congrArg Inst.block (if_neg fun hji : j = i => hi (hji ▸ hj))).trans hb

theorem Cursor.Holds.discard (h : c.Holds w) (hs : w.Shape) (hi : c.before ≠ some i) :
    c.Holds (w.discard i) := by
  refine h.mono (fun b _ => ?_) fun j b hj hb => ?_
  · rw [block_discard (hs.insts.placed i)]
  · rw [inst_discard, if_neg fun hji : j = i => hi (hji ▸ hj)]
    exact hb

theorem View.Shape.nextInst {m : Module} (hs : m.view.Shape) {j : InstId}
    (h : m.nextInst i = some j) :
    ∃ b, (m.view.inst i).block = some b ∧ (m.view.inst j).block = some b ∧ j ≠ i := by
  obtain ⟨b, hb, h⟩ := bind_eq_some_iff.mp h
  split at h
  · next n hn =>
    obtain ⟨hlt, heq⟩ := List.getElem?_eq_some_iff.mp h
    obtain ⟨hlt', heq', -⟩ := List.idxOf?_eq_some_iff.mp hn
    refine ⟨b, hb, hs.insts.placed j b (heq ▸ getElem_mem hlt), fun hji => ?_⟩
    have hindex : n + 1 = n :=
      (hs.insts.nodup b).getElem_inj_iff.mp (heq.trans (hji.trans heq'.symm))
    omega
  · cases h

theorem Cursor.Holds.past {m : Module} (h : c.Holds m.view) (hs : m.view.Shape) (i : InstId) :
    (m.cursorPast i c).Holds (m.view.discard i) := by
  rw [Module.cursorPast]
  split
  · next hi =>
    obtain ⟨b, hb, hin⟩ := h.before i hi
    refine ⟨fun d hd => ?_, fun j hj => ?_⟩
    · rw [block_discard (hs.insts.placed i)]
      exact h.block d hd
    · obtain ⟨d, hd, hj, hji⟩ := hs.nextInst hj
      obtain rfl : b = d := mem_unique hin hd
      exact ⟨b, hb, by rw [inst_discard, if_neg hji]; exact hj⟩
  · next hi => exact h.discard hs hi

theorem Cursor.Holds.eraseBlocks (h : c.Holds w) (hs : w.Shape) {bs : List BlockId} {c' : Cursor}
    (hc : c.Leaves bs c') :
    c'.Holds (w.eraseBlocks bs) := by
  rcases hc with rfl | ⟨rfl, hbs⟩
  · exact ⟨nofun, nofun⟩
  · refine ⟨fun b hb => ?_, fun i hi => ?_⟩
    · have hsame : (w.eraseBlocks bs).block b = w.block b := if_neg fun hmem => hbs b hmem hb
      rw [hsame]
      exact h.block b hb
    · obtain ⟨b, hb, hin⟩ := h.before i hi
      have hnot : i ∉ w.instsOf bs := by
        intro hmem
        obtain ⟨d, hd, hid⟩ := mem_instsOf.mp hmem
        exact hbs d hd (hb.trans (hin.symm.trans (hs.insts.placed i d hid)))
      have hsame : (w.eraseBlocks bs).inst i = w.inst i := if_neg hnot
      exact ⟨b, hb, hsame ▸ hin⟩

theorem Cursor.Holds.append (h : c.Holds w) (hs : w.Shape) (he : w.Ended) {pred succ : BlockId}
    (hne : pred ≠ succ)
    (hpred : (w.block pred).func ≠ none) : (c.merged pred succ).Holds (w.append pred succ) := by
  rw [Cursor.merged]
  split
  · next hsucc =>
    refine ⟨fun b hb => ?_, fun i hi => ?_⟩
    · obtain rfl : pred = b := some.inj hb
      rw [block_append, if_neg hne, if_pos rfl]
      exact hpred
    · obtain ⟨b, hb, hin⟩ := h.before i hi
      obtain rfl : succ = b := mem_unique hsucc hb
      rw [inst_append, if_pos (he.listed i _ hin (h.block _ hb))]
      exact ⟨pred, rfl, rfl⟩
  · next hsucc =>
    refine h.mono (fun b hb => ?_) fun i b hi hin => ?_
    · rw [block_append, if_neg fun hbs : b = succ => hsucc (hbs ▸ hb)]
      split <;> rfl
    · obtain ⟨d, hd, hin'⟩ := h.before i hi
      rw [inst_append, if_neg]
      · exact hin
      · exact fun hmem => hsucc (hd.trans (hin'.symm.trans (hs.insts.placed i succ hmem)))

/-! ### Operations -/

structure Builder.Steady (s : Builder) : Prop where
  sound : s.Sound
  holds : s.cursor.Holds s.view

/-- `x` keeps the cursor where it can be used, also if it fails. -/
def Steers (x : Build α) (s : Builder) : Prop :=
  wp x (fun _ t => t.Steady) (fun f t => ∀ e, f = .error e → t.Steady) s

theorem Builder.Adds.steady (h : s.Adds t) (hs : s.Steady) : t.Steady :=
  ⟨h.sound, h.cursor ▸ hs.holds.stays h.growths.stays⟩

theorem Builder.Gains.adds (h : s.Gains t) (hs : s.Sound) : s.Adds t := by
  obtain ⟨types, -, rfl⟩ := h
  exact hs.adds (hs.linked.dress _ _ _ _ _) (View.Growth.growths (.alike {}))

theorem Builder.Gains.steady (h : s.Gains t) (hs : s.Steady) : t.Steady :=
  (h.adds hs.sound).steady hs

theorem Builds.steers {x : Build α} (hx : Builds x s) (hs : s.Steady) : Steers x s :=
  wp_mono hx (fun _ _ ht => ht.steady hs) fun _ _ he e hf => (he.gains e hf).steady hs

theorem Tries.steers {x : Build α} (hx : Tries x s) (hs : s.Steady)
    (hc : wp x (fun _ t => t.cursor.Holds t.module.view) Any s) : Steers x s :=
  wp_mono (wp_and hx hc) (fun _ _ ht => ⟨ht.1.sound, ht.2⟩) fun _ _ he e hf =>
    (he.1.gains e hf).steady hs

theorem steers_eraseFrom (hs : s.Steady) (parent : Option BlockId) (i : Option InstId) :
    Steers (eraseFrom parent i) s := by
  refine (tries_eraseFrom hs.sound parent i).steers hs ?_
  match parent, i with
  | none, _ => trivial
  | some _, none => trivial
  | some b, some i =>
    refine wp_eraseFrom hs.sound.linked (fun _ _ => trivial) (fun _ _ _ => trivial)
      fun m' _ _ hview => ?_
    rw [hview]
    exact hs.holds.past hs.sound.shape i

theorem steers_mergeBlocks (hs : s.Steady) {pred succ : Option BlockId} (hne : pred ≠ succ) :
    Steers (mergeBlocks pred succ) s := by
  refine (tries_mergeBlocks hs.sound pred succ).steers hs ?_
  match pred, succ with
  | none, _ => trivial
  | some _, none => trivial
  | some pred, some succ =>
    refine wp_mergeBlocks hs.sound.linked hs.sound.insts (fun _ _ => trivial)
      (fun _ _ _ _ => trivial)
      fun f t e m' hpred _ _ _ hview => ?_
    have hshape := hs.sound.shape.discard t
    have hended := hs.sound.ended.discard hs.sound.shape t
    rw [hview]
    refine Cursor.Holds.append ?_ (hshape.mapValues _) ((View.Alike.mapValues _ _).ended hended)
      (fun he => hne (congrArg some he)) ?_
    · exact (hs.holds.past hs.sound.shape t).stays (View.Growth.alike (.mapValues _ _)).stays
    · show ((s.view.discard t).block pred).func ≠ none
      rw [block_discard (hs.sound.shape.insts.placed t)]
      have hfunc : (s.view.block pred).func = some f := hpred
      simp [hfunc]

/-- `t` is `s` with more in it. The cursor is where it was, or else where it can be used, and what
is new in the journal stood in no block. -/
structure Builder.Enlarges (s t : Builder) : Prop where
  sound : t.Sound
  growths : s.module.view.Growths t.module.view
  cursor : t.cursor = s.cursor ∨ t.cursor.Holds t.module.view
  journal : ∃ is, t.journal = s.journal.map (· ++ is) ∧
    ∀ i ∈ is, (s.module.view.inst i).block = none

namespace Builder.Enlarges

theorem of_adds (h : s.Adds t) : s.Enlarges t := ⟨h.sound, h.growths, .inl h.cursor, h.journal⟩

theorem moveCursor (h : s.Enlarges t) (hc : c.Holds t.module.view) :
    s.Enlarges { t with cursor := c } :=
  ⟨⟨h.sound.linked, h.sound.shape, h.sound.ended, h.sound.journal⟩, h.growths, .inr hc, h.journal⟩

theorem steady (h : s.Enlarges t) (hs : s.Steady) : t.Steady :=
  ⟨h.sound, h.cursor.elim (fun hsame => hsame ▸ hs.holds.stays h.growths.stays) id⟩

theorem trans {u : Builder} (h : s.Enlarges t) (h' : t.Enlarges u) : s.Enlarges u := by
  obtain ⟨is, his, hnew⟩ := h.journal
  obtain ⟨is', his', hnew'⟩ := h'.journal
  refine ⟨h'.sound, h.growths.trans h'.growths, ?_, is ++ is', ?_, ?_⟩
  · rcases h'.cursor with hsame | hholds
    · exact h.cursor.imp hsame.trans fun hholds => hsame ▸ hholds.stays h'.growths.stays
    · exact .inr hholds
  · rw [his', his, Option.map_map]
    exact congrArg (s.journal.map ·) (funext fun _ => append_assoc ..)
  · refine forall_mem_append.mpr ⟨hnew, fun i hi => eq_none_iff_forall_ne_some.mpr fun b hb => ?_⟩
    cases (hnew' i hi).symm.trans (h.growths.stays.block i b hb)

end Builder.Enlarges

/-- `x` only adds, also if it fails. -/
def Enlarging (x : Build α) (s : Builder) : Prop :=
  wp x (fun _ t => s.Enlarges t) (fun f t => ∀ e, f = .error e → s.Enlarges t) s

theorem Builds.enlarging {x : Build α} (hx : Builds x s) (hs : s.Sound) : Enlarging x s :=
  wp_mono hx (fun _ _ ht => .of_adds ht) fun _ _ he e hf => .of_adds ((he.gains e hf).adds hs)

theorem enlarging_defineAndEnter (hs : s.Sound) {f : FuncId} (hf : s.HasValue (.func f))
    (names : List Text) :
    Enlarging (defineAndEnter f names) s := by
  rw [Enlarging, defineAndEnter, wp_bind]
  refine wp_imp ((builds_defineBody hs hf names).enlarging hs) fun _ t ht => ?_
  rw [wp_bind, wp_func]
  cases hhead : (t.module.funcs.get f).blocks.head? with
  | none => exact fun _ he => by cases he
  | some b =>
    have hfunc : (t.view.block b).func = some f :=
      (ht.sound.shape.blocks.mem_iff f b).mp (mem_of_mem_head? hhead)
    exact ht.moveCursor (Cursor.holds_atEnd rfl rfl (by simp [hfunc]))

theorem BuildsFunc.enlarging {x : Build FuncId} (hx : BuildsFunc x s) (hs : s.Sound)
    {g : FuncId → Build FuncId}
    (hg : ∀ f t, t.Sound → t.HasValue (.func f) → Enlarging (g f) t) : Enlarging (x >>= g) s := by
  rw [Enlarging, wp_bind]
  refine wp_mono hx (fun f t ht => ?_) fun _ _ he e hf => .of_adds ((he.gains e hf).adds hs)
  have hgrew := Builder.Enlarges.of_adds ht.1
  exact wp_mono (hg f t ht.1.sound ht.2) (fun _ _ hu => hgrew.trans hu) fun _ _ he e hf =>
    hgrew.trans (he e hf)

/-! ### Expansions -/

/-- The calls that build an instruction, on handles that the module has given out. -/
inductive Call (m : Module) : Build InstId → Prop
  | construct {l : Line} {x : Build InstId} (h : Constructor l x) (h' : m.KnowsAll l.reads) :
    Call m x
  | br (target : Option BlockId) {args : List (Option Value)} (h : m.KnowsAll args) :
    Call m (br target args)
  | condBr {cond : Option Value} (onTrue onFalse : Option BlockId)
    {trueArgs falseArgs : List (Option Value)}
    (h : m.Knows cond) (h' : m.KnowsAll (trueArgs ++ falseArgs)) :
      Call m (condBr cond onTrue trueArgs onFalse falseArgs)
  | ret {value : Option Value} (h : m.Knows value) : Call m (ret value)
  | trap : Call m trap

theorem Call.builds {x : Build InstId} (hx : Call s.module x) (h : s.Sound) : Builds x s := by
  cases hx with
  | construct hx hreads => exact builds_construct h hx hreads
  | br target hargs => exact builds_br h hargs
  | condBr onTrue onFalse hcond hargs => exact builds_condBr h hcond hargs
  | ret hv => exact builds_ret h hv
  | trap => exact builds_trap h

/-- The calls that add to a module. The cursor goes into the body of a function that gets one. -/
inductive Addition (m : Module) : {α : Type} → Build α → Prop
  | inst {x : Build InstId} (h : Call m x) : Addition m x
  | addFunction (name : Text) (type : TypeId) : Addition m (addFunction name type)
  | buildFunction (name : Text) (type : TypeId) (names : List Text) :
    Addition m (buildFunction name type names)
  | buildUniqueFunction (name : Text) (type : TypeId) (names : List Text) :
    Addition m (buildUniqueFunction name type names)
  | getOrBuildFunction (name : Text) (type : TypeId) (names : List Text) :
    Addition m (getOrBuildFunction name type names)
  | appendBlock (name : Text) (params : List Member) : Addition m (appendBlock name params)

theorem Addition.enlarging {x : Build α} (hx : Addition s.module x) (h : s.Sound) :
    Enlarging x s := by
  cases hx with
  | inst hx => exact (hx.builds h).enlarging h
  | addFunction name type => exact (buildsFunc_addFunction h name type).builds.enlarging h
  | buildFunction name type names =>
    exact (buildsFunc_addFunction h name type).enlarging h fun f t ht hf =>
      enlarging_defineAndEnter ht hf names
  | buildUniqueFunction name type names =>
    exact (buildsFunc_addUniqueFunction h name type).enlarging h fun f t ht hf =>
      enlarging_defineAndEnter ht hf names
  | getOrBuildFunction name type names =>
    refine (buildsFunc_getOrAddFunction h name type).enlarging h fun f t ht hf => ?_
    rw [Enlarging, wp_bind, wp_func]
    split
    · exact .of_adds (ht.adds ht.linked .refl)
    · exact enlarging_defineAndEnter ht hf names
  | appendBlock name params => exact (builds_appendBlock h name params).enlarging h

/-- `t` was reached from `s` by such calls, and by putting the cursor where it can be used. A call
that fails need not be the last. -/
inductive Calls (s : Builder) : Builder → Prop
  | refl : Calls s s
  | move {t : Builder} (h : Calls s t) {c : Cursor} (hc : c.Holds t.module.view) :
    Calls s { t with cursor := c }
  | call {t u : Builder} {α : Type} {x : Build α} {a : α} (h : Calls s t) (hx : Addition t.module x)
    (hu : x.run.run t = (.ok a, u)) : Calls s u
  | refused {t u : Builder} {α : Type} {x : Build α} {e : Error} (h : Calls s t)
    (hx : Addition t.module x)
    (hu : x.run.run t = (.error (.error e), u)) : Calls s u

theorem Calls.enlarges (h : Calls s t) (hs : s.Sound) : s.Enlarges t := by
  induction h with
  | refl => exact .of_adds (hs.adds hs.linked .refl)
  | move _ hc ih => exact ih.moveCursor hc
  | call _ hx hu ih => exact ih.trans ((wp_iff_of_ok hu).mp (hx.enlarging ih.sound))
  | refused _ hx hu ih => exact ih.trans ((wp_iff_of_error hu).mp (hx.enlarging ih.sound) _ rfl)

theorem steers_endExplosion (ht : t.Sound) {x : Explosion} (hx : x.Made t.module)
    (hc : x.cursor.Holds t.view)
    (hnew : ∀ j ∈ t.journal.getD [], x.cursor.before ≠ some j) (outcome : Except Error Unit) :
    Steers (endExplosion x outcome) t := by
  suffices hcursor : wp (endExplosion x outcome) (fun _ u => u.cursor.Holds u.module.view)
      (fun f u => ∀ e, f = .error e → u.cursor.Holds u.module.view) t from
    wp_mono (wp_and (keeps_endExplosion ht hx outcome) hcursor) (fun _ _ h => ⟨h.1.sound, h.2⟩)
        fun _ _ h e he =>
      ⟨(h.1.extends_of_error e he).sound, h.2 e he⟩
  refine wp_endExplosion ht hx (fun e _ => ?_) fun _ _ m₁ m₂ _ _ _ hgrowths _ hview => ?_
  · rw [wp_bind]
    refine wp_forM_of_each (fun u => t.Extends u ∧ x.cursor.Holds u.module.view)
      (fun j hj u hu => ?_)
      ⟨ht.extends.withJournal hx.journal, hc⟩ fun u hu => fun _ _ => hu.2
    have hj := mem_reverse.mp hj
    refine wp_discard hu.1.sound.linked (hu.1.values _ (ht.built j hj)) fun m' hl hview =>
      ⟨hu.1.trans ?_, ?_⟩
    · exact hu.1.sound.extends_of_changes hl (hview ▸ (View.Change.discard _ j).changes)
    · rw [hview]
      exact hu.2.discard hu.1.sound.shape (hnew j hj)
  · show (m₁.cursorPast x.inst x.cursor).Holds m₂.view
    rw [hview]
    exact (hc.stays hgrowths.stays).past (hgrowths.changes.shape ht.shape) x.inst

def Builder.expanding (s : Builder) (i : InstId) : Builder :=
  { s with
    cursor := { func := s.module.instFunc i, block := (s.module.insts.get i).block,
                before := some i }
    journal := some [] }

theorem Builder.Sound.expanding (h : s.Sound) (i : InstId) : (s.expanding i).Sound :=
  ⟨h.linked, h.shape, h.ended, fun _ his _ hk => absurd hk (some.inj his ▸ not_mem_nil)⟩

theorem wp_exploding {i : Option InstId} {build : Build Unit} {Q : Post InstId}
    {E : Post Fault} (hrefused : ∀ e, E (.error e) s) (hcrash : ∀ c t, E (.crash c) t)
    (k : ∀ j b, i = some j → (s.module.insts.get j).block = some b → ∀ outcome,
      wp (endExplosion ⟨j, s.cursor, s.journal⟩ outcome) Q E (after build (s.expanding j))) :
    wp (explode i build) Q E s := by
  rw [explode, wp_bind, beginExplosion, wp_bind]
  refine wp_attached hrefused fun j b hj hb => ?_
  simp only [wp_bind, wp_attempt]
  have hend := k j b hj hb
  show wp build _ _ (s.expanding j)
  rcases hrun : build.run.run (s.expanding j) with ⟨f | a, u⟩
  all_goals rw [after, hrun] at hend
  · rw [wp_iff_of_error hrun]
    cases f with
    | error e => exact hend _
    | crash c => exact hcrash c u
  · rw [wp_iff_of_ok hrun]
    exact hend _

theorem steers_explode (hs : s.Steady) {i : Option InstId} {build : Build Unit}
    (hbuild : ∀ j, i = some j → Calls (s.expanding j) (after build (s.expanding j))) :
    Steers (explode i build) s := by
  refine wp_exploding (fun _ _ _ => hs) (fun _ _ _ he => by cases he) fun j b hj hb outcome => ?_
  have hgrew := (hbuild j hj).enlarges (hs.sound.expanding j)
  have hextends : (s.expanding j).Extends _ := ⟨hgrew.sound, hgrew.growths.changes⟩
  have hvalues {v : Value} (hv : s.HasValue v) := hextends.values v hv
  obtain ⟨is, his, hnew⟩ := hgrew.journal
  refine steers_endExplosion hgrew.sound ⟨hvalues (Module.has_of_instBlock hb),
    fun is his k hk => ?_⟩
    (hs.holds.stays hgrew.growths.stays) (fun k hk hbefore => ?_) outcome
  · exact hvalues (hs.sound.journal is his k hk)
  · obtain ⟨d, -, hd⟩ := hs.holds.before k hbefore
    rw [his] at hk
    cases (hnew k hk).symm.trans hd

/-! ### Every state -/

/-- The operations, on handles that the module has given out. The cursor is put into functions only,
and it is not before an instruction that is detached or moved or a terminator that is replaced. -/
inductive Steer (s : Builder) : {α : Type} → Build α → Prop
  | positionAtEnd {b : BlockId} (h : (s.module.blocks.get b).func ≠ none) :
    Steer s (positionAtEnd b)
  | positionBefore {i : InstId} {b : BlockId} (h : (s.module.insts.get i).block = some b)
    (h' : (s.module.blocks.get b).func ≠ none) : Steer s (positionBefore i)
  | add {α : Type} {x : Build α} (h : Addition s.module x) : Steer s x
  | insert {i : Option InstId} (h : s.module.Knows (i.map Value.inst)) : Steer s (insert i)
  | detach {i : Option InstId} (h : i = s.cursor.before → i = none) : Steer s (detach i)
  | move {i : Option InstId} (h : i = s.cursor.before → i = none) (place : Cursor) :
    Steer s (move i place)
  | replace {old new : Option InstId} (h : s.module.Knows (new.map Value.inst))
    (h' : ∀ i, old = some i → s.cursor.before = some i →
      (s.module.insts.get i).op.isTerminator = false) :
    Steer s (replace old new)
  | explode {i : Option InstId} {build : Build Unit}
    (h : ∀ j, i = some j → Calls (s.expanding j) (after build (s.expanding j))) :
      Steer s (explode i build)
  | erase (i : Option InstId) : Steer s (erase i)
  | eraseFrom (parent : Option BlockId) (i : Option InstId) : Steer s (eraseFrom parent i)
  | eraseBlocks (blocks : List (Option BlockId)) : Steer s (eraseBlocks blocks)
  | mergeBlocks {pred succ : Option BlockId} (h : pred ≠ succ) : Steer s (mergeBlocks pred succ)

theorem Steer.steers {x : Build α} (hx : Steer s x) (hs : s.Steady) : Steers x s := by
  have hplaced (c : Cursor) (hc : c.Holds s.view) : Builder.Steady { s with cursor := c } :=
    ⟨(hs.sound.extends_of_changes hs.sound.linked .refl).sound, hc⟩
  cases hx with
  | @positionAtEnd b h => exact (wp_positionAtEnd b).mpr (hplaced _ (Cursor.holds_atEnd rfl rfl h))
  | @positionBefore i b h h' =>
    refine hplaced _ ⟨fun d hd => ?_, fun j hj => ⟨b, h, some.inj hj ▸ h⟩⟩
    exact mem_unique h hd ▸ h'
  | add h =>
    exact wp_mono (h.enlarging hs.sound) (fun _ _ ht => ht.steady hs) fun _ _ he e hf =>
      (he e hf).steady hs
  | insert h => exact (builds_insert hs.sound fun i hi => h _ (by rw [hi]; rfl)).steers hs
  | @detach i h =>
    refine (tries_detach hs.sound i).steers hs ?_
    rw [Build.detach, wp_bind]
    refine wp_attached (fun _ => trivial) fun j b hj _ =>
      wp_unlink hs.sound.linked j fun m' _ hview => ?_
    rw [hview]
    exact hs.holds.unlink hs.sound.shape fun hc => absurd (h (hj.trans hc.symm)) (by simp [hj])
  | @move i h place =>
    refine (tries_move hs.sound i place).steers hs
      (wp_move hs.sound (fun _ => trivial) hs.holds fun j m' hj _ _ hg => ?_)
    refine Cursor.Holds.stays (hs.holds.unlink hs.sound.shape fun hc => ?_) hg.stays
    exact absurd (h (hj.trans hc.symm)) (by simp [hj])
  | @replace old new h h' =>
    have hnew (j : InstId) (hj : new = some j) : s.HasValue (.inst j) := h _ (by rw [hj]; rfl)
    refine (tries_replace hs.sound old hnew).steers hs (wp_replace hs.sound hnew (fun _ => trivial)
      (fun _ _ _ => trivial) fun i j b w m' c hi _ hb hg hg' hj _ hc => ?_)
    have hshape := hg.changes.shape hs.sound.shape
    rcases hc with ⟨rfl, hc⟩ | ⟨rfl, hc⟩
    · refine Cursor.Holds.stays
        ((hs.holds.stays hg.stays).discard hshape fun hbefore => ?_) hg'.stays
      cases (h' i hi hbefore).symm.trans (hc hbefore)
    · obtain ⟨d, hd, hin⟩ := hs.holds.before i hc
      obtain rfl : b = d := mem_unique hb hin
      refine ⟨fun e he => ?_, fun k hk => ⟨b, hd, some.inj hk ▸ hj⟩⟩
      have hkept : (w.block e).func ≠ none := (hs.holds.stays hg.stays).block e he
      have hdiscard : ((w.discard i).block e).func = (w.block e).func := by
        rw [block_discard (hshape.insts.placed i)]
      rw [hg'.stays.func e (hdiscard ▸ hkept), hdiscard]
      exact hkept
  | explode h => exact steers_explode hs h
  | erase i =>
    cases i with
    | none => exact fun _ _ => hs
    | some j =>
      exact steers_eraseFrom hs _ _
  | eraseFrom parent i => exact steers_eraseFrom hs parent i
  | eraseBlocks blocks =>
    refine (tries_eraseBlocks hs.sound blocks).steers hs
      (wp_eraseBlocks hs.sound.linked hs.sound.hasInst
      (fun _ _ => trivial) (fun _ _ _ _ _ _ => trivial) fun bs m' c _ _ _ _ hview hc => ?_)
    rw [hview]
    exact hs.holds.eraseBlocks hs.sound.shape hc
  | mergeBlocks h => exact steers_mergeBlocks hs h

/-- A builder that such operations led to, from one whose cursor can be used. -/
inductive Steered : Builder → Prop
  | start {s : Builder} (h : Built s) (hc : s.cursor.Holds s.view) : Steered s
  | step {s t : Builder} {α : Type} {x : Build α} {a : α} (h : Steered s) (hx : Steer s x)
    (ht : x.run.run s = (.ok a, t)) : Steered t
  | refused {s t : Builder} {α : Type} {x : Build α} {e : Error} (h : Steered s) (hx : Steer s x)
    (ht : x.run.run s = (.error (.error e), t)) : Steered t

theorem Steered.steady (h : Steered s) : s.Steady := by
  induction h with
  | start h hc => exact ⟨h.sound, hc⟩
  | step _ hx ht ih => exact (wp_iff_of_ok ht).mp (hx.steers ih)
  | refused _ hx ht ih => exact (wp_iff_of_error ht).mp (hx.steers ih) _ rfl

theorem wp_checkAttach_holds (hs : s.cursor.Holds s.view) (op : Opcode) :
    wp (checkAttach op) Any (fun f _ => ∀ e, f = .error e → Cause.instNotInBlock ∉ e.causes) s := by
  have hcause (place : Text) {c : Cause} (hc : c ≠ .instNotInBlock) :
      ∀ e, Fault.error (.within place (.cause c)) = .error e → Cause.instNotInBlock ∉ e.causes := by
    rintro _ ⟨⟩ hmem
    exact hc (mem_singleton.mp hmem).symm
  unfold checkAttach
  rw [wp_bind, wp_module, wp_bind, wp_cursor]
  split
  · exact hcause _ (by simp)
  · next b hb =>
    rw [wp_ite]
    refine ⟨fun _ => hcause _ (by simp), fun _ => ?_⟩
    split
    · next i hi =>
      obtain ⟨d, hd, hin⟩ := hs.before i hi
      have hin' : (s.module.insts.get i).block = some b := hin.trans (hd.symm.trans hb)
      rw [if_neg (not_not.mpr hin'), wp_ite]
      exact ⟨fun _ => hcause _ (by simp), fun _ => trivial⟩
    · rw [wp_ite]
      exact ⟨fun _ => hcause _ (by simp), fun _ => trivial⟩

/-- The cursor is in a block of a function, before an instruction of that block if before any; so
nothing that is built there is refused for want of that instruction. -/
theorem cursor_stays_valid (h : Steered s) : s.cursor.Holds s.module.view ∧
    ∀ op e t, (checkAttach op).run.run s = (.error (.error e), t) →
      Cause.instNotInBlock ∉ e.causes :=
  ⟨h.steady.holds, fun op e _ ht =>
    (wp_iff_of_error ht).mp (wp_checkAttach_holds h.steady.holds op) e rfl⟩

theorem steered_after {x : Build α} (h : Steered s) (hx : Steer s x)
    (hok : checked (x.run.run s).1 (fun _ => true) = true) : Steered (after x s) := by
  obtain ⟨a, ha⟩ := exists_run_of_checked hok
  exact .step h hx ha

/-- The cursor stands before the literal of a function that returns it. -/
def pointed : Builder := after (positionBefore ⟨0⟩) settled

theorem steered_pointed : Steered pointed :=
  have hstart : settled.cursor.Holds settled.module.view :=
    Cursor.holds_atEnd (b := ⟨0⟩) (by decide +kernel) (by decide +kernel) (by decide +kernel)
  steered_after (.start built_settled hstart)
    (.positionBefore (b := ⟨0⟩) (by decide +kernel) (by decide +kernel)) (by decide +kernel)

def buildLiteral : Build Unit := do
  let _ ← boolLiteral false

/-- The literal is expanded, and the cursor moves on to the return. -/
theorem expanded_literal_passed : Steered pointed ∧ pointed.cursor.before = some ⟨0⟩ ∧
    (after (explode (some ⟨0⟩) buildLiteral) pointed).cursor.before = some ⟨1⟩ ∧
    (after (explode (some ⟨0⟩) buildLiteral) pointed).cursor.Holds
      (after (explode (some ⟨0⟩) buildLiteral) pointed).module.view := by
  refine ⟨steered_pointed, by decide +kernel, by decide +kernel, (cursor_stays_valid ?_).1⟩
  refine steered_after steered_pointed (.explode fun j hj => ?_) (by decide +kernel)
  obtain rfl : ⟨0⟩ = j := Option.some.inj hj
  obtain ⟨i, hi⟩ := exists_run_of_checked (x := boolLiteral false) (s := pointed.expanding ⟨0⟩)
    (by decide +kernel)
  rw [after, buildLiteral, run_bind, hi]
  exact .call .refl (.inst (.construct (.boolLiteral false) .nil)) hi

def isRefusedFor (c : Cause) (r : Except Fault α) : Bool :=
  match r with
  | .error (.error e) => e.causes.contains c
  | _ => false

/-- The instruction behind the cursor is moved to another block, and nothing can be built at the
cursor. -/
theorem moved_instruction_loses_cursor :
    ∃ s t, Steered s ∧ (move (some ⟨0⟩) { block := some ⟨1⟩ }).run.run s = (.ok (), t) ∧
      ¬ t.cursor.Holds t.module.view ∧ isRefusedFor .instNotInBlock
      ((boolLiteral false).run.run t).1 = true := by
  obtain ⟨_, ht⟩ := exists_run_of_checked (x := move (some ⟨0⟩) { block := some ⟨1⟩ })
    (s := after (appendBlock "b" []) pointed) (by decide +kernel)
  refine ⟨_, _, steered_after steered_pointed (.add (.appendBlock "b" [])) (by decide +kernel), ht,
    fun h => ?_, by decide +kernel⟩
  obtain ⟨b, hb, hi⟩ := h.before ⟨0⟩ (by decide +kernel)
  exact absurd (hb.trans hi.symm) (by decide +kernel)

end Midlevel.Ir
