import Midlevel.Proofs.Lowering.Straight

/-!
The lowering of statements. A block is made before anything leads to it and stays blank until the
cursor moves there, which happens only once something does; so all code that is written can be
reached. What is known when a new block is entered is settled when it is made: it is what is known
where it is made.
-/

namespace Midlevel.Ir

namespace View

open Midlevel.Flow (Constant)

variable {w w' : View} {av : Avail} {b : BlockId}
variable {c : BlockId} {f : FuncId}

inductive Reached (w : View) : BlockId → Prop
  | entry {f : FuncId} {b : BlockId} : (w.func f).blocks.head? = some b → Reached w b
  | step {b t : BlockId} : Reached w b → w.Leads b t → Reached w t

theorem Prolongs.reached (h : w.Prolongs w') (ho : w.Ordered av) (hb : w.Reached b) :
    w'.Reached b := by
  induction hb with
  | entry hf => exact .entry (h.entry _ _ hf)
  | step _ hleads ih => exact .step ih (h.leads ho hleads)

/-- A block inside `f` that was made and has nothing in it yet. -/
structure Blank (w : View) (f : FuncId) (c : BlockId) : Prop where
  made : c.index < w.blocks
  func : (w.block c).func = some f
  insts : (w.block c).insts = []
  inner : ∀ g, (w.func g).blocks.head? ≠ some c

theorem Prolongs.inner (hp : w.Prolongs w') (hs' : w'.Shape) {e : BlockId}
    (hfunc : (w'.block c).func = some f) (he : (w.func f).blocks.head? = some e) (hne : e ≠ c)
    (g : FuncId) :
    (w'.func g).blocks.head? ≠ some c := by
  intro hg
  obtain rfl : f = g := by
    have hmem := (hs'.blocks.mem_iff g c).mp (List.mem_of_head? hg)
    exact Option.mem_unique hfunc hmem
  exact hne (Option.mem_unique (hp.entry f e he) hg)

theorem Shape.exists_entry (hs : w.Shape) (hfunc : (w.block c).func = some f) :
    ∃ e, (w.func f).blocks.head? = some e := by
  have hmem := (hs.blocks.mem_iff f c).mpr hfunc
  exact Option.isSome_iff_exists.mp (List.isSome_head?.mpr (List.ne_nil_of_mem hmem))

theorem Blank.prolong (h : w.Blank f c) (hs : w.Shape) (hs' : w'.Shape) (hp : w.Prolongs w')
    (hfunc : (w'.block c).func = some f) (hinsts : (w'.block c).insts = []) : w'.Blank f c := by
  obtain ⟨e, he⟩ := hs.exists_entry h.func
  have hne : e ≠ c := fun hec => h.inner f (hec ▸ he)
  exact ⟨lt_of_lt_of_le h.made hp.blocks, hfunc, hinsts, hp.inner hs' hfunc he hne⟩


end View

end Midlevel.Ir

namespace Midlevel.Lowering

open Ir Midlevel.Tree List
open Option (mem_unique)

variable {α β : Type} {env : Env} {av av' av'' : Avail} {ahead : List BlockId}
  {b c : BlockId} {σ τ υ : Site}
variable {E : Fault → Site → Prop} {f : Unit → Lower β} {Q : β → Site → Prop} {K : Value →
  Prop} {s : Vars}
variable {ahead' : List BlockId} {x : Lower α} {v : Value}
variable {P : α → Site → Prop} {t : BlockId} {k : Lower β} {branches : List Branch}

/-! ### Settled sites -/

/-- All code can be reached, but for the blocks `ahead`, which are blank. -/
structure Site.Settled (σ : Site) (env : Env) (av : Avail) (ahead : List BlockId) : Prop where
  tidy : σ.builder.Tidy av
  fields : ∀ e ∈ σ.fields, e.2.1.index < σ.view.blocks ∧ σ.view.Usable av e.2.1 e.2.2
  reached : ∀ c, (σ.view.block c).func ≠ none → c ∈ ahead ∨ σ.view.Reached c
  blank : ∀ c ∈ ahead, σ.view.Blank env.func c

/-- The cursor stands at the end of a block of the function, one that can be reached. -/
structure Site.Here (σ : Site) (env : Env) (av : Avail) (ahead : List BlockId) (b : BlockId) :
    Prop extends σ.Settled env av ahead where
  block : σ.builder.cursor.block = some b
  before : σ.builder.cursor.before = none
  func : (σ.view.block b).func = some env.func
  apart : b ∉ ahead
  reach : σ.view.Reached b

/-- What was there is still there, and what was known at the start of a block is still known
there. -/
structure Site.Later (σ τ : Site) (av av' : Avail) : Prop where
  prolongs : σ.view.Prolongs τ.view
  agrees : ∀ c, c.index < σ.view.blocks → av' c = av c
  types : σ.builder.module.types.Extends τ.builder.module.types
  heads : ∀ f, (τ.view.func f).blocks.head? = (σ.view.func f).blocks.head?
  defined : ∀ f, (τ.view.func f).defined = (σ.view.func f).defined

/-- If the cursor stands anywhere, it stands at the end of a block where `known` is known. -/
structure Site.Open (σ : Site) (env : Env) (av : Avail) (ahead : List BlockId)
    (known : Value → Prop) : Prop extends σ.Settled env av ahead where
  here : ∀ b, σ.builder.cursor.block = some b → σ.Here env av ahead b ∧ ∀ v, known v →
    σ.view.AtEnd av b v

theorem Site.Later.refl (σ : Site) (av : Avail) : σ.Later σ av av :=
  ⟨.refl _, fun _ _ => rfl, .rfl, fun _ => rfl, fun _ => rfl⟩

namespace Site.Later

variable (h : σ.Later τ av av')
include h

theorem trans (h' : τ.Later υ av' av'') : σ.Later υ av av'' :=
  ⟨h.prolongs.trans h'.prolongs, fun c hc =>
    (h'.agrees c (lt_of_lt_of_le hc h.prolongs.blocks)).trans (h.agrees c hc),
      h.types.trans h'.types,
    fun f => (h'.heads f).trans (h.heads f), fun f => (h'.defined f).trans (h.defined f)⟩

theorem made (hc : c.index < σ.view.blocks) : c.index < τ.view.blocks :=
  lt_of_lt_of_le hc h.prolongs.blocks

theorem atEnd (hσ : σ.Settled env av ahead)
    (hc : c.index < σ.view.blocks) (hv : σ.view.AtEnd av c v) : τ.view.AtEnd av' c v :=
  h.prolongs.atEnd hσ.tidy.ordered hc (fun _ hv => h.agrees c hc ▸ hv) hv

end Site.Later

section

variable (h : σ.Here env av ahead b)
include h

theorem Site.Here.made : b.index < σ.view.blocks := by
  have hfunc : (σ.module.blocks.get b).func = some env.func := h.func
  exact Module.has_of_blockFunc (hfunc ▸ rfl)

theorem Site.Here.at : σ.At av b := ⟨⟨h.tidy, h.block, h.before, h.made⟩, h.fields⟩

theorem Site.Here.certified : σ.view.Certified (σ.view.AtEnd av b) :=
  h.tidy.ordered.certified h.tidy.sound.shape.params

theorem Site.Here.atEnd (hl : σ.Later τ av av') (hv : σ.view.AtEnd av b v) : τ.view.AtEnd av' b v :=
  hl.atEnd h.toSettled h.made hv

theorem Site.Here.usable (hl : σ.Later τ av av') (hv : σ.view.Usable av b v) :
    τ.view.Usable av' b v :=
  ⟨hl.prolongs.has v hv.has, hv.known.imp_right (h.atEnd hl)⟩

end

theorem Site.Open.usable (h : τ.Open env av' ahead (σ.view.AtEnd av b)) (hl : σ.Later τ av av')
    (hc : τ.builder.cursor.block = some c) (hv : σ.view.Usable av b v) : τ.view.Usable av' c v :=
  ⟨hl.prolongs.has v hv.has, hv.known.imp_right ((h.here c hc).2 v)⟩

theorem Site.Here.open (h : σ.Here env av ahead b) : σ.Open env av ahead (σ.view.AtEnd av b) := by
  refine ⟨h.toSettled, fun c hc => ?_⟩
  obtain rfl := mem_unique h.block hc
  exact ⟨h, fun _ => id⟩

theorem Site.Open.mono {K' : Value → Prop} (h : σ.Open env av ahead K) (hK : ∀ v, K' v → K v) :
    σ.Open env av ahead K' :=
  ⟨h.toSettled, fun c hc => ⟨(h.here c hc).1, fun v hv => (h.here c hc).2 v (hK v hv)⟩⟩

theorem Site.Settled.of_mem_iff (h : σ.Settled env av ahead) (hmem : ∀ c, c ∈ ahead' ↔ c ∈ ahead) :
    σ.Settled env av ahead' :=
  ⟨h.tidy, h.fields, fun c hc => (h.reached c hc).imp_left (hmem c).mpr,
    fun c hc => h.blank c ((hmem c).mp hc)⟩

theorem Site.Here.of_mem_iff (h : σ.Here env av ahead b) (hmem : ∀ c, c ∈ ahead' ↔ c ∈ ahead) :
    σ.Here env av ahead' b :=
  ⟨h.toSettled.of_mem_iff hmem, h.block, h.before, h.func,
    fun hb => h.apart ((hmem b).mp hb), h.reach⟩

/-! ### Steps -/

theorem Lower.wp_bind {f : α → Lower β} :
    wp ((x >>= f).run env) Q E σ ↔ wp (x.run env) (fun a τ => wp ((f a).run env) Q E τ) E σ :=
  Midlevel.wp_bind ..

theorem Site.Settled.onward (h : σ.Settled env av ahead) (hb : b ∉ ahead) (hτ : σ.Onward τ av b) :
    τ.Settled env av ahead where
  tidy := hτ.here.builder.tidy
  fields := hτ.here.fields
  reached c hc := by
    rw [hτ.builder.func] at hc
    exact (h.reached c hc).imp_right (hτ.builder.prolongs.reached h.tidy.ordered)
  blank c hc := by
    have hold := h.blank c hc
    refine hold.prolong h.tidy.sound.shape hτ.here.builder.tidy.sound.shape hτ.builder.prolongs
      ((hτ.builder.func c).trans hold.func) ?_
    rw [hτ.builder.insts c fun he => hb (he ▸ hc)]
    exact hold.insts

namespace Site.Here

variable (h : σ.Here env av ahead b)
include h

theorem run (hx : Runs env av b x P σ)
    {Q : α → Site → Prop} (k : ∀ a τ, σ.Later τ av av → τ.Here env av ahead b → P a τ → Q a τ) :
    wp (x.run env) Q Fails σ := by
  refine wp_imp (hx h.at) fun a τ ⟨hτ, hP⟩ => ?_
  refine k a τ ⟨hτ.builder.prolongs, fun _ _ => rfl, hτ.builder.types, hτ.builder.heads,
    hτ.builder.defined⟩
    ⟨h.toSettled.onward h.apart hτ, hτ.here.builder.block,
    hτ.here.builder.before, (hτ.builder.func b).trans h.func, h.apart, ?_⟩ hP
  exact hτ.builder.prolongs.reached h.tidy.ordered h.reach

theorem step (hx : Runs env av b x P σ) {f : α → Lower β}
    (k : ∀ a τ, σ.Later τ av av → τ.Here env av ahead b → P a τ → wp ((f a).run env) Q Fails τ) :
    wp ((x >>= f).run env) Q Fails σ := Lower.wp_bind.mpr (h.run hx k)

theorem appendBlock (name : Text) (ps : List Member) {known : Value → Prop}
    (hk : σ.view.Certified known) {f : BlockId → Lower β}
    (k : ∀ c τ av', σ.Later τ av av' → τ.Here env av' (c :: ahead) b → c ∉ ahead → av' c = known →
      (τ.view.block c).params.length = ps.length → wp ((f c).run env) Q Fails τ) :
    wp ((Lower.build (Build.appendBlock name ps) >>= f).run env) Q Fails σ := by
  refine Lower.wp_bind.mpr ((Lower.wp_build _).mpr ?_)
  have hs := h.tidy.sound
  refine Build.wp_appendBlock hs.linked name ps (fun e => ⟨e, rfl⟩)
    fun f m' hcursor hdefined hl hview => ?_
  obtain rfl : env.func = f := by
    have hfunc : σ.builder.cursor.funcIn σ.module = (σ.module.blocks.get b).func := by
      rw [Cursor.funcIn, h.block]
    exact mem_unique h.func (hfunc.symm.trans hcursor)
  obtain ⟨e, he⟩ := hs.shape.exists_entry h.func
  have hopens := View.opens_addBlock σ.view name env.func ps
    (g := fun x => { x with blocks := x.blocks ++ [σ.view.nextBlock] }) (fun _ => rfl)
        (fun _ => rfl) fun c hc =>
      (List.head?_append_of_ne_nil _ (ne_nil_of_mem (mem_of_head? he))).trans hc
  have hord := h.tidy.ordered.appendBlock hs.shape σ.module.unused name
    (ne_nil_of_mem (mem_of_head? he)) ps hk
  have hchange : σ.view.Growth m'.view := hview ▸ .addBlock σ.module.unused name hdefined ps
  have hshape : m'.view.Shape := hchange.shape hs.shape
  have hnew : (m'.view.block σ.view.nextBlock).func = some env.func ∧
      (m'.view.block σ.view.nextBlock).params.length = ps.length := by
    have hblock := View.block_addParams_addBlock σ.view { name, func := some env.func } ps
    rw [hview]
    refine ⟨congrArg Block.func hblock, ?_⟩
    have hparams := congrArg (·.params.length) hblock
    simpa [View.newParams] using hparams
  rw [← hview] at hopens hord
  have hp := hopens.prolongs h.tidy.ordered
  have htypes : m'.types = σ.module.types := (congrArg View.types hview :)
  have htidy : Builder.Tidy { σ.builder with module := m' }
      (Function.update av σ.view.nextBlock known) :=
    h.tidy.opened (hs.extends_of_changes hl hchange.changes).sound hopens hord htypes
      (congrArg View.funcs hview :)
  have hagrees : ∀ c, c.index < σ.view.blocks →
      Function.update av σ.view.nextBlock known c = av c :=
    fun c hc => Function.update_of_ne (View.ne_nextBlock hc) ..
  have hblock {c : BlockId} (hc : c.index < σ.view.blocks) : m'.view.block c = σ.view.block c :=
    hopens.block c (View.ne_nextBlock hc)
  have hheads (g : FuncId) : (m'.view.func g).blocks.head? = (σ.view.func g).blocks.head? := by
    rw [hview, View.func_setFunc]
    split
    · next hg =>
      subst hg
      exact List.head?_append_of_ne_nil _ (ne_nil_of_mem (mem_of_head? he))
    · rfl
  have hdefined' (g : FuncId) : (m'.view.func g).defined = (σ.view.func g).defined := by
    rw [hview, View.func_setFunc]
    split <;> rfl
  refine k _ _ _ ⟨hp, hagrees, htypes.symm ▸ .rfl, hheads, hdefined'⟩
    ⟨⟨htidy, fun x hx => ?_, fun c hc => ?_, fun c hc => ?_⟩, h.block, h.before, ?_, ?_, ?_⟩
    ?_ (Function.update_self ..) hnew.2
  · obtain ⟨hmade, hused⟩ := h.fields x hx
    exact ⟨lt_of_lt_of_le hmade hp.blocks,
      hp.usable h.tidy.ordered hmade (fun _ hv => (hagrees _ hmade).symm ▸ hv) hused⟩
  · by_cases hlt : c.index < σ.view.blocks
    · rw [show _ = _ from hblock hlt] at hc
      exact (h.reached c hc).imp (mem_cons_of_mem _) (hp.reached h.tidy.ordered)
    · obtain rfl : c = σ.view.nextBlock := by
        have hmade : c.index < m'.view.blocks :=
          Module.has_of_blockFunc (Option.isSome_iff_ne_none.mpr hc)
        rw [hopens.blocks] at hmade
        exact Id.eq_of_lt_succ hmade hlt
      exact .inl mem_cons_self
  · rcases mem_cons.mp hc with rfl | hc
    · refine ⟨hopens.blocks.symm ▸ Nat.lt_succ_self _, hnew.1, hopens.insts,
        hp.inner hshape hnew.1 he ?_⟩
      exact fun hne => σ.module.unused.not_entry hs.shape env.func (hne ▸ he)
    · have hold := h.blank c hc
      have heq := hblock hold.made
      exact hold.prolong hs.shape hshape hp (heq ▸ hold.func) (heq ▸ hold.insts)
  · exact (congrArg Block.func (hblock h.made)).trans h.func
  · exact fun hmem => (mem_cons.mp hmem).elim (View.ne_nextBlock h.made) h.apart
  · exact hp.reached h.tidy.ordered h.reach
  · exact fun hmem => View.ne_nextBlock (h.blank _ hmem).made rfl

end Site.Here

theorem Site.Settled.goTo (h : σ.Settled env av ahead) (ahead' : List BlockId)
    (hc : σ.view.Blank env.func c) (hreach : σ.view.Reached c)
    (hsub : ∀ d ∈ ahead, d = c ∨ d ∈ ahead')
    (hsub' : ahead' ⊆ ahead) (hnot : c ∉ ahead')
    (k : ∀ τ, σ.Later τ av av → τ.Here env av ahead' c → wp ((f ()).run env) Q Fails τ) :
    wp ((goTo c >>= f).run env) Q Fails σ := by
  refine Lower.wp_bind.mpr ((Lower.wp_build _).mpr ((Build.wp_positionAtEnd c).mpr ?_))
  refine k _ ⟨.refl _, fun _ _ => rfl, .rfl, fun _ => rfl, fun _ => rfl⟩
    ⟨⟨h.tidy.moveCursor _, h.fields, fun d hd => ?_,
    fun d hd => h.blank d (hsub' hd)⟩, rfl, rfl, hc.func, hnot, hreach⟩
  rcases h.reached d hd with hd | hd
  · rcases hsub d hd with rfl | hd
    · exact .inr hreach
    · exact .inl hd
  · exact .inr hd

theorem Site.Settled.moveCursor (h : σ.Settled env av ahead)
    (k : ∀ τ, σ.Later τ av av → τ.Settled env av ahead → wp ((f ()).run env) Q Fails τ) :
    wp ((Lowering.goTo c >>= f).run env) Q Fails σ :=
  Lower.wp_bind.mpr ((Lower.wp_build _).mpr ((Build.wp_positionAtEnd c).mpr
    (k _ ⟨.refl _, fun _ _ => rfl, .rfl, fun _ => rfl, fun _ => rfl⟩ ⟨h.tidy.moveCursor _, h.fields,
      h.reached, h.blank⟩)))

/-- A builder whose blocks only stand in another order. -/
structure Builder.Shuffled (s t : Builder) : Prop where
  sound : t.Sound
  code : s.view.SameCode t.view
  block : t.view.block = s.view.block
  cursor : t.cursor = s.cursor
  types : t.view.types = s.view.types
  funcs : t.view.funcs = s.view.funcs

theorem Builder.Shuffled.refl {s : Builder} (h : s.Sound) : Builder.Shuffled s s :=
  ⟨h, .refl _, rfl, rfl, rfl, rfl⟩

theorem shuffles_moveBlockAfter {s : Builder} (h : s.Sound) (b anchor : Option BlockId) :
    wp (Build.moveBlockAfter b anchor) (fun _ t => Builder.Shuffled s t) Fails s := by
  have hkeeps : Tries (Build.moveBlockAfter b anchor) s :=
    tries_moveBlock h b anchor false (fun _ _ => .refl _) fun _ _ _ => rfl
  suffices hcode : wp (Build.moveBlockAfter b anchor) (fun _ t => t.Sound →
    Builder.Shuffled s t) Fails s from
    wp_mono (wp_and hkeeps hcode) (fun _ t ht => ht.2 ht.1.sound) fun _ _ ht => ht.2
  rw [Build.moveBlockAfter, Build.moveBlock, wp_bind]
  refine Build.wp_checkSameFunc (fun e _ => ⟨e, rfl⟩) fun x y f _ _ hx hy => ?_
  dsimp only
  split
  · exact fun _ => .refl h
  · rw [wp_bind, Build.wp_module]
    split
    · exact ⟨_, rfl⟩
    · next hentry =>
      rw [Build.wp_modifyFunc]
      intro ht
      have hview := Module.view_updateFunc (m := s.module) (f := f) (g := fun fn => { fn with
        blocks := (fn.blocks.filter (· ≠ x)).flatMap fun z => if z = y then [z, x] else [z] })
        (fun _ => rfl) (.inr rfl)
      refine ⟨ht, ?_, (congrArg View.block hview :), rfl, (congrArg View.types hview :),
        (congrArg View.funcs hview :)⟩
      rw [show View.SameCode _ _ = View.SameCode _ _ from congrArg _ hview]
      exact View.sameCode_setFunc _ f (fun _ => rfl) (fun _ => rfl) (fun _ => rfl)
        (head?_flatMap_anchor (fun hhead => hentry (.inl (h.isEntry hhead))) fun _ => rfl)

/-- A change that writes no code and takes no block away but `c`. -/
theorem Site.Settled.of_sameCode (h : σ.Settled env av ahead) {t : Builder} (ht : t.Sound)
    (hcode : σ.view.SameCode t.view) (htypes : t.view.types = σ.view.types)
    (hfuncs : t.view.funcs = σ.view.funcs) (hsub : ahead' ⊆ ahead)
    (hfunc : ∀ d ∈ ahead', (t.view.block d).func = (σ.view.block d).func)
    (hleft : ∀ d, (t.view.block d).func ≠ none → (σ.view.block d).func ≠ none ∧
      (d ∈ ahead → d ∈ ahead')) :
    σ.Later { σ with builder := t } av av ∧ Site.Settled { σ with builder := t } env av ahead' := by
  have hp := hcode.prolongs
  have hext : σ.module.types.Extends t.module.types := by
    rw [show t.module.types = σ.module.types from htypes]
    exact .rfl
  refine ⟨⟨hp, fun _ _ => rfl, hext, hcode.entry, hcode.defined⟩,
    h.tidy.of_sameCode ht hcode hext fun f hold hf => ?_, fun e he => ?_, fun d hd => ?_,
    fun d hd => ?_⟩
  · exact absurd (hfuncs ▸ hf : f.index < σ.view.funcs) hold
  · obtain ⟨hmade, hused⟩ := h.fields e he
    exact ⟨lt_of_lt_of_le hmade hp.blocks, hp.usable h.tidy.ordered hmade (fun _ => id) hused⟩
  · obtain ⟨hd, hahead⟩ := hleft d hd
    exact (h.reached d hd).imp hahead (hp.reached h.tidy.ordered)
  · have hold := h.blank d (hsub hd)
    exact hold.prolong h.tidy.sound.shape ht.shape hp ((hfunc d hd).trans hold.func)
      ((hcode.insts d).trans hold.insts)

theorem Site.Settled.moveToEnd (h : σ.Settled env av ahead) (hc : c ∈ ahead)
    (k : ∀ τ, σ.Later τ av av → τ.Settled env av ahead → wp ((f ()).run env) Q Fails τ) :
    wp ((moveToEnd c >>= f).run env) Q Fails σ := by
  have hs := h.tidy.sound
  have hfunc : (σ.module.blocks.get c).func = some env.func := (h.blank c hc).func
  obtain ⟨last, hlast⟩ : ∃ last, (σ.module.funcs.get env.func).blocks.getLast? = some last := by
    obtain ⟨e, he⟩ := hs.shape.exists_entry (h.blank c hc).func
    exact Option.isSome_iff_exists.mp (List.getLast?_isSome.mpr (ne_nil_of_mem (mem_of_head? he)))
  have hmoved {t : Builder} (ht : Builder.Shuffled σ.builder t) :
      wp ((f ()).run env) Q Fails { σ with builder := t } := by
    have hblock (d : BlockId) : t.view.block d = σ.view.block d := congrFun ht.block d
    obtain ⟨hlater, hsettled⟩ :=
      h.of_sameCode ht.sound ht.code ht.types ht.funcs (List.Subset.refl _)
      (fun d _ => congrArg Block.func (hblock d)) fun d hd => ⟨hblock d ▸ hd, id⟩
    exact k _ hlater hsettled
  refine Lower.wp_bind.mpr ((Lower.wp_build _).mpr ?_)
  simp only [wp_bind, Build.wp_block, hfunc, Build.wp_demand_some, Build.wp_func, hlast]
  split
  · exact wp_imp (shuffles_moveBlockAfter hs _ _) fun _ _ ht => hmoved ht
  · exact hmoved (.refl hs)

/-- A block that no branch leads to can be taken away. -/
theorem Site.Settled.eraseBlock (h : σ.Settled env av (c :: ahead)) (hnot : c ∉ ahead)
    (hparams : (σ.view.block c).params = []) (hedges : (σ.module.blocks.get c).edges = [])
    (k : ∀ τ, σ.Later τ av av → τ.Settled env av ahead → wp ((f ()).run env) Q Fails τ) :
    wp ((Lower.build (Build.eraseBlocks [some c]) >>= f).run env) Q Fails σ := by
  have hs := h.tidy.sound
  have hc := h.blank c mem_cons_self
  have hsingle {bs : List BlockId} (hbs : [some c] = bs.map some) : bs = [c] :=
    map_injective_iff.mpr (fun _ _ => Option.some.inj) hbs.symm
  -- the branches to a block are all entered in it, and nothing can read what it does not have
  have hunneeded : ¬ σ.view.Needed [c] := by
    rintro (hdup | ⟨d, hd, hn⟩)
    · exact hdup (nodup_singleton c)
    obtain rfl := mem_singleton.mp hd
    rcases hn with (hopen | ⟨i, x, hx, hto, -⟩) | ⟨v, hv, -⟩
    · refine hopen ?_
      show (σ.module.openEdges d).map _ = []
      rw [Module.openEdges, hedges]
      rfl
    · obtain ⟨e, he, rfl⟩ := mem_map.mp hx
      obtain ⟨d', he'⟩ := h.tidy.ordered.entered i e he
      obtain rfl := Option.some.inj ((hs.linked.incoming d' e he').1.symm.trans hto)
      rw [hedges] at he'
      cases he'
    · rcases hv with ⟨p, hp, -⟩ | ⟨i, hi, -⟩
      · rw [hparams] at hp
        cases hp
      · rw [hc.insts] at hi
        cases hi
  have herase : wp (Build.eraseBlocks [some c])
    (fun _ t => ∃ m' c', t = { σ.builder with module := m', cursor := c' } ∧
      m'.view = σ.view.eraseBlocks [c]) Fails σ.builder := by
    refine Build.wp_eraseBlocks hs.linked hs.hasInst (fun e _ => ⟨e, rfl⟩)
      (fun _ _ bs _ hbs hn => ?_)
      fun bs m' c' hbs _ _ _ hview _ => ?_
    · rw [hsingle hbs] at hn
      exact absurd hn hunneeded
    · rw [hsingle hbs] at hview
      exact ⟨m', c', rfl, hview⟩
  refine Lower.wp_bind.mpr ((Lower.wp_build _).mpr
    (wp_mono (wp_and ((tries_eraseBlocks hs [some c]).keeps hs) herase) ?_ fun _ _ h => h.2))
  rintro _ _ ⟨hext, m', c', rfl, hview⟩
  have hcode := View.sameCode_eraseBlock hc.insts hc.inner
  rw [← hview] at hcode
  have hblock (d : BlockId) : (m'.view.block d).func = if d = c then none else
      (σ.view.block d).func := by
    rw [hview]
    show (if d ∈ [c] then { σ.view.block d with insts := [], func := none } else σ.view.block d :
      Block).func = _
    simp only [mem_singleton]
    split <;> rfl
  have hkept : ∀ d ∈ ahead, (m'.view.block d).func = (σ.view.block d).func := fun d hd => by
    have hdc : d ≠ c := fun hdc => hnot (hdc ▸ hd)
    rw [hblock, if_neg hdc]
  have hleft : ∀ d, (m'.view.block d).func ≠ none → (σ.view.block d).func ≠ none ∧
      (d ∈ c :: ahead → d ∈ ahead) := by
    intro d hd
    have hdc : d ≠ c := fun hdc => hd (by rw [hblock, if_pos hdc])
    rw [hblock, if_neg hdc] at hd
    exact ⟨hd, fun hmem => (mem_cons.mp hmem).resolve_left hdc⟩
  obtain ⟨hlater, hsettled⟩ := h.of_sameCode hext.sound hcode (congrArg View.types hview :)
    (congrArg View.funcs hview :) (subset_cons_self c ahead) hkept hleft
  exact k _ hlater hsettled

theorem Site.Settled.reached_of_edges (h : σ.Settled env av ahead)
    (hedges : (σ.module.blocks.get c).edges ≠ []) : σ.view.Reached c := by
  have hl := h.tidy.sound.linked
  obtain ⟨e, he⟩ := exists_mem_of_ne_nil _ hedges
  obtain ⟨htarget, hsource⟩ := hl.incoming c e he
  cases hs : (σ.module.edges.get e).source with
  | none =>
    -- only the entry of a function is entered from nowhere
    have hopen : e ∈ σ.module.openEdges c := mem_filter.mpr ⟨he, by rw [hs]; rfl⟩
    obtain ⟨⟨f, hf⟩, -⟩ := h.tidy.ordered.opens c _ (mem_map_of_mem hopen)
    exact .entry hf
  | some i =>
    have hexit := mem_map_of_mem (f := fun e => (⟨(σ.module.edges.get e).target,
      (σ.module.edges.get e).args.map σ.module.operandValue⟩ : Pass.Exit)) (hsource i hs)
    obtain ⟨d, hd⟩ : ∃ d, i ∈ (σ.view.block d).insts := by
      refine (h.tidy.ordered.attached i).resolve_right fun hnone => ?_
      exact ne_nil_of_mem hexit hnone.2.2
    have hne := ne_nil_of_mem hd
    refine .step ((h.reached d (h.tidy.ordered.housed d hne).2).resolve_left fun hahead => ?_) ⟨i,
      hd, _, hexit, htarget⟩
    exact hne (h.blank d hahead).insts

/-! ### Statements -/

def Site.Stopped (σ : Site) : Prop :=
  ∀ b, σ.builder.cursor.block = some b → (σ.builder.module.terminator b).isSome

theorem wp_terminated {Q : Bool → Site → Prop} (hstopped : σ.Stopped → Q true σ)
    (hgoes : ∀ b, σ.builder.cursor.block = some b →
      (σ.module.terminator b).isSome = false → Q false σ) :
    wp (Lower.terminated.run env) Q E σ := by
  show wp ((Lower.build Build.currentBlock).run env >>= fun a => _) _ _ _
  rw [wp_bind]
  refine (Lower.wp_build _).mpr ?_
  cases hb : σ.builder.cursor.block with
  | none => exact hstopped fun b hb' => nomatch hb.symm.trans hb'
  | some b =>
    show Q (σ.module.terminator b).isSome σ
    cases ht : (σ.module.terminator b).isSome with
    | true =>
      refine hstopped fun b' hb' => ?_
      rwa [← mem_unique hb hb']
    | false => exact hgoes b hb ht

/-- Where a statement leaves off: the scope can be used, and what was known before is known. -/
def Site.Goes (σ : Site) (env : Env) (av : Avail) (ahead : List BlockId) (known : Value → Prop)
    (s : Vars) (τ : Site) : Prop :=
  ∃ av', σ.Later τ av av' ∧ τ.Open env av' ahead known ∧
    ∀ b, τ.builder.cursor.block = some b → s.Usable τ.view av' b

theorem Site.Here.goes (hτ : τ.Here env av' ahead c) (hl : σ.Later τ av av')
    (hK : ∀ v, K v → τ.view.AtEnd av' c v) (hs : s.Usable τ.view av' c) :
    σ.Goes env av ahead K s τ := by
  refine ⟨av', hl, hτ.open.mono hK, fun d hd => ?_⟩
  rwa [← mem_unique hτ.block hd]

theorem Site.Later.vars (hl : σ.Later τ av av')
    (hK : ∀ v, σ.view.AtEnd av b v → τ.view.AtEnd av' c v) (hs : s.Usable σ.view av b) :
    s.Usable τ.view av' c :=
  hs.mono fun v hv => ⟨hl.prolongs.has v hv.has, hv.known.imp_right (hK v)⟩

theorem Lower.wp_naming {Q : α → Site → Prop} {place : Text} (h : wp (x.run env) Q Fails σ) :
    wp ((Lower.naming place x).run env) Q Fails σ := by
  show wp (tryCatch (x.run env) _) _ _ _
  rw [wp_tryCatch]
  refine wp_mono h (fun _ _ h => h) ?_
  rintro _ _ ⟨e, rfl⟩
  exact ⟨_, rfl⟩

theorem Lower.wp_read {Q : Env → Site → Prop} (k : Q env σ) :
    wp ((MonadReader.read : Lower Env).run env) Q E σ := k

theorem Site.Here.goes_of_runs {x : Lower Vars} (h : σ.Here env av ahead b)
    (hx : Runs env av b x (fun s τ => Vars.Usable τ.view av b s) σ) :
    wp (x.run env) (fun s τ => σ.Goes env av ahead (σ.view.AtEnd av b) s τ) Fails σ :=
  h.run hx fun _ _ hl hτ hs => hτ.goes hl (fun _ => h.atEnd hl) hs

theorem Site.Here.goes_after {x : Lower Unit} (h : σ.Here env av ahead b)
    (hs : s.Usable σ.view av b)
    (hx : Runs env av b x Any σ) :
    wp ((do x; return s).run env) (σ.Goes env av ahead (σ.view.AtEnd av b)) Fails σ :=
  h.goes_of_runs (hx.bind fun _ _ hτ _ => .pure (hτ.vars hs))

theorem goes_resume {exit : BlockId} (h : τ.Settled env av' (exit :: ahead)) (hnot : exit ∉ ahead)
    (hreach : τ.view.Reached exit) (hl : σ.Later τ av av') (hs : s.Usable σ.view av b)
    (hknown : ∀ v, σ.view.AtEnd av b v → av' exit v) :
    wp ((do moveToEnd exit; goTo exit; return s).run env)
    (σ.Goes env av ahead (σ.view.AtEnd av b)) Fails τ := by
  refine h.moveToEnd mem_cons_self fun φ hφ hsettled => ?_
  refine hsettled.goTo ahead (hsettled.blank exit mem_cons_self)
    (hφ.prolongs.reached h.tidy.ordered hreach)
    (by grind) (by grind) hnot fun υ hυ hhere => ?_
  have hl := hl.trans (hφ.trans hυ)
  exact hhere.goes hl (fun v hv => .inl (hknown v hv)) (hl.vars (fun v hv => .inl (hknown v hv)) hs)

/-- The end of a scope: if control gets there, it releases what it owns and leaves for `t`. -/
theorem Site.Open.leave (h : τ.Open env av ahead K) {inner : Vars}
    (hs : ∀ b, τ.builder.cursor.block = some b → inner.Usable τ.view av b) (ht : ∀ v, av t v → K v)
    (hk : ∀ υ, τ.Later υ av av → υ.Settled env av ahead → wp (k.run env) Q Fails υ) :
    wp ((do
      if !(← Lower.terminated) then
        leave inner
        branchTo t []
      k).run env) Q Fails τ := by
  refine Lower.wp_bind.mpr (wp_terminated (fun _ => hk τ (.refl τ av) h.toSettled) fun b hb _ => ?_)
  obtain ⟨hhere, hK⟩ := h.here b hb
  refine hhere.step (runs_leave (hs b hb)) fun _ υ hυ hthere _ => ?_
  refine hthere.step (runs_branchTo (by simp) fun v hv => ?_) fun _ φ hφ hnow _ => ?_
  · exact hhere.atEnd hυ (hK v (ht v hv))
  · exact hk φ (hυ.trans hφ) hnow.toSettled

/-- The end of the body of a counting loop, which hands the next number to the header. -/
theorem Site.Open.next (h : τ.Open env av ahead K) {inner : Vars}
    (hs : ∀ b, τ.builder.cursor.block = some b → inner.Usable τ.view av b)
    (ht : ∀ v, av t v → K v) {i : Value}
    (hi : ∀ b, τ.builder.cursor.block = some b → τ.view.Usable av b i)
    (hk : ∀ υ, τ.Later υ av av → υ.Settled env av ahead → wp (k.run env) Q Fails υ) :
    wp ((do
      if !(← Lower.terminated) then
        Lowering.leave inner
        let one ← Lower.build (Build.intLiteral 1 .int64)
        let next ← Lower.build (Build.primitive .iAddUnchecked [some i, some (.inst one)])
        branchTo t [.inst next]
      k).run env) Q Fails τ := by
  refine Lower.wp_bind.mpr (wp_terminated (fun _ => hk τ (.refl τ av) h.toSettled) fun b hb _ => ?_)
  obtain ⟨h₀, hK⟩ := h.here b hb
  refine h₀.step (runs_leave (hs b hb)) fun _ σ₁ hl₁ h₁ _ => ?_
  refine h₁.step (.construct (.intLiteral _ _) fun _ hv => absurd hv not_mem_nil)
    fun one σ₂ hl₂ h₂ hone => ?_
  have hl := hl₁.trans hl₂
  have hi := h₀.usable hl (hi b hb)
  refine h₂.step (.construct (.primitive _ _) (usable_two hi hone)) fun next σ₃ hl₃ h₃ hnext => ?_
  have hl := hl.trans hl₃
  refine h₃.step (runs_branchTo (fun v hv => ?_) fun v hv => ?_) fun _ υ hυ hthere _ => ?_
  · rw [mem_singleton.mp hv]
    exact hnext
  · exact h₀.atEnd hl (hK v (ht v hv))
  · exact hk υ (hl.trans hυ) hthere.toSettled

/-- Statements in a scope of their own. -/
def EmitsWell (env : Env) (body : List Stmt) : Prop :=
  ∀ {σ : Site} {av : Avail} {ahead : List BlockId} {K : Value → Prop} {s : Vars},
    σ.Open env av ahead K → (∀ b, σ.builder.cursor.block = some b → s.Usable σ.view av b) →
      wp ((emitStmts s body).run env) (fun s' τ => σ.Goes env av ahead K s' τ) Fails σ

theorem EmitsWell.step {body : List Stmt} (hbody : EmitsWell env body) (h : σ.Here env av ahead b)
    (hs : s.Usable σ.view av b) {f : Vars → Lower β}
    (k : ∀ inner τ av', σ.Later τ av av' → τ.Open env av' ahead (σ.view.AtEnd av b) →
      (∀ c, τ.builder.cursor.block = some c → inner.Usable τ.view av' c) →
      wp ((f inner).run env) Q Fails τ) :
    wp ((emitStmts s body >>= f).run env) Q Fails σ := by
  refine Lower.wp_bind.mpr (wp_imp (hbody h.open fun c hc => ?_) fun inner τ hτ => ?_)
  · rwa [← mem_unique h.block hc]
  · obtain ⟨av', hl, hopen, hinner⟩ := hτ
    exact k inner τ av' hl hopen hinner

section Compound

variable {body : List Stmt} {ahead₀ : List BlockId} (hbody : EmitsWell env body)

include hbody

theorem wp_arm (h : σ.Here env av ahead b) (hs : s.Usable σ.view av b)
    (ht : t.index < σ.view.blocks) (hknown : ∀ v, av t v → σ.view.AtEnd av b v)
    (hk : ∀ υ av', σ.Later υ av av' → υ.Settled env av' ahead → wp (k.run env) Q Fails υ) :
    wp ((do
      let inner ← emitStmts s.enter body
      if !(← Lower.terminated) then
        leave inner
        branchTo t []
      k).run env) Q Fails σ := by
  refine hbody.step h hs.enter fun inner τ av' hl hopen hinner => ?_
  refine hopen.leave hinner (fun v hv => hknown v (hl.agrees t ht ▸ hv)) fun υ hυ hsettled => ?_
  exact hk υ av' (hl.trans hυ) hsettled

/-- The arm behind a condition, up to the block where the condition fails. It was at `σ₀` that the
arm's block was made. -/
theorem wp_taken {σ₀ : Site} {av₀ : Avail} {taken next exit : BlockId} {cond : Value}
    (h₀ : σ₀.Here env av₀ ahead₀ b) (hs : s.Usable σ₀.view av₀ b) (hl₀ : σ₀.Later σ av₀ av)
    (h : σ.Here env av (taken :: ahead) b) (htaken : taken ∉ ahead)
    (hcond : σ.view.Usable av b cond)
    (hstart : av taken = σ₀.view.AtEnd av₀ b) (hnext : ∀ v, av next v → σ₀.view.AtEnd av₀ b v)
    (hexit : exit.index < σ.view.blocks) (hend : ∀ v, av exit v → σ₀.view.AtEnd av₀ b v)
    (hk : ∀ υ av', σ.Later υ av av' → υ.Settled env av' ahead →
      υ.view.Reached next → wp (k.run env) Q Fails υ) :
    wp ((do
      branchOn cond taken next
      goTo taken
      let inner ← emitStmts s.enter body
      if !(← Lower.terminated) then
        leave inner
        branchTo exit []
      k).run env) Q Fails σ := by
  have hK (v : Value) (hv : σ₀.view.AtEnd av₀ b v) : σ.view.AtEnd av b v := h₀.atEnd hl₀ hv
  refine h.step (runs_branchOn hcond (fun v hv => hK v (hstart ▸ hv)) fun v hv => hK v (hnext v hv))
    fun _ σ₁ hl₁ h₁ hleads => ?_
  refine h₁.toSettled.goTo ahead (h₁.blank taken mem_cons_self) (.step h₁.reach hleads.1)
    (by grind) (by grind) htaken fun σ₂ hl₂ h₂ => ?_
  have hl := hl₁.trans hl₂
  refine wp_arm hbody h₂ ((hl₀.trans hl).vars (fun v hv => .inl (hstart ▸ hv)) hs) (hl.made hexit)
    (fun v hv => .inl ?_) fun υ av' hυ hsettled => ?_
  · rw [hstart]
    exact hend v hv
  · exact hk υ av' (hl.trans hυ) hsettled
      ((hl₂.trans hυ).prolongs.reached h₁.tidy.ordered (.step h₁.reach hleads.2))

end Compound

theorem goes_block {body : List Stmt} (hbody : EmitsWell env body) (h : σ.Here env av ahead b)
    (hs : s.Usable σ.view av b) :
    wp ((do
      let inner ← emitStmts s.enter body
      if !(← Lower.terminated) then leave inner
      return s).run env) (σ.Goes env av ahead (σ.view.AtEnd av b)) Fails σ := by
  refine hbody.step h hs.enter fun inner τ av' hl hopen hinner => ?_
  refine Lower.wp_bind.mpr (wp_terminated (fun _ => ?_) fun c hc _ => ?_)
  · exact ⟨av', hl, hopen, fun c hc => hl.vars (hopen.here c hc).2 hs⟩
  · obtain ⟨hhere, hK⟩ := hopen.here c hc
    refine hhere.step (runs_leave (hinner c hc)) fun _ υ hυ hthere _ => ?_
    have hK' (v : Value) (hv : σ.view.AtEnd av b v) : υ.view.AtEnd av' c v :=
      hhere.atEnd hυ (hK v hv)
    exact hthere.goes (hl.trans hυ) hK' ((hl.trans hυ).vars hK' hs)

section Statements

variable {st : Stmt}

theorem goes_while (hkind : st.kind = .while) (hbody : EmitsWell env st.body)
    (h : σ.Here env av ahead b)
    (hs : s.Usable σ.view av b) :
    wp ((emitStmt s st).run env) (σ.Goes env av ahead (σ.view.AtEnd av b)) Fails σ := by
  obtain ⟨code, _, _, _, _, _, _, _ | c, _, _, body⟩ := st
  all_goals
    unfold emitStmt
    rw [show StmtKind.ofCode code = .while from hkind]
  · exact ⟨_, rfl⟩
  have hK := h.certified
  refine h.appendBlock _ [] hK fun test σ₁ av₁ hl₁ h₁ htest hknown₁ _ => ?_
  refine h₁.appendBlock _ [] (hK.prolong hl₁.prolongs) fun loop σ₂ av₂ hl₂ h₂ hloop hknown₂ _ => ?_
  have hl₁₂ := hl₁.trans hl₂
  refine h₂.appendBlock _ [] (hK.prolong hl₁₂.prolongs) fun exit σ₃ av₃ hl₃ h₃ hexit hknown₃ _ => ?_
  have hl := hl₁₂.trans hl₃
  -- on entering any of the three blocks, what is known here is known
  have hloop₃ : av₃ loop = σ.view.AtEnd av b :=
    (hl₃.agrees loop (h₂.blank loop mem_cons_self).made).trans hknown₂
  have htest₃ : av₃ test = σ.view.AtEnd av b := by
    rw [(hl₂.trans hl₃).agrees test (h₁.blank test mem_cons_self).made, hknown₁]
  have hexit₃ : av₃ exit = σ.view.AtEnd av b := hknown₃
  refine h₃.step (runs_branchTo (by simp) fun v hv => ?_) fun _ σ₄ hl₄ h₄ hleads => ?_
  · exact h.atEnd hl (htest₃ ▸ hv)
  refine h₄.toSettled.goTo (exit :: loop :: ahead) (h₄.blank test (by simp))
    (.step h₄.reach hleads) (by grind) (by grind) (by grind) fun σ₅ hl₅ h₅ => ?_
  have hl := hl.trans (hl₄.trans hl₅)
  have hs₅ : s.Usable σ₅.view av₃ test := hl.vars (fun v hv => .inl (htest₃ ▸ hv)) hs
  refine h₅.step (runs_emitCondition hs₅ c) fun cond σ₆ hl₆ h₆ hcond => ?_
  refine h₆.step (runs_branchOn hcond (fun v hv => .inl ?_) fun v hv => .inl ?_)
    fun _ σ₇ hl₇ h₇ hleads => ?_
  · rwa [htest₃, ← hloop₃]
  · rwa [htest₃, ← hexit₃]
  refine h₇.toSettled.goTo (exit :: ahead) (h₇.blank loop (by simp))
    (.step h₇.reach hleads.1) (by grind) (by grind) (by grind) fun σ₈ hl₈ h₈ => ?_
  have hl₅₈ := (hl₆.trans hl₇).trans hl₈
  have hl := hl.trans hl₅₈
  refine wp_arm hbody h₈ (hl.vars (fun v hv => .inl (hloop₃ ▸ hv)) hs) (hl₅₈.made h₅.made)
    (fun v hv => .inl ?_)
    fun σ₉ av₉ hl₉ h₉ => ?_
  · rwa [hloop₃, ← htest₃]
  have hreach : σ₉.view.Reached exit :=
    (hl₈.trans hl₉).prolongs.reached h₇.tidy.ordered (.step h₇.reach hleads.2)
  refine goes_resume h₉ (by grind) hreach (hl.trans hl₉) hs fun v hv => ?_
  rwa [hl₉.agrees exit (h₈.blank exit mem_cons_self).made, hexit₃]

theorem goes_for (hkind : st.kind = .for) (hbody : EmitsWell env st.body)
    (h : σ.Here env av ahead b)
    (hs : s.Usable σ.view av b) :
    wp ((emitStmt s st).run env) (σ.Goes env av ahead (σ.view.AtEnd av b)) Fails σ := by
  obtain ⟨code, name, _, _, _, _, _, _, _ | lo, _ | hi, body⟩ := st
  all_goals
    unfold emitStmt
    rw [show StmtKind.ofCode code = .for from hkind]
  iterate 3 exact ⟨_, rfl⟩
  refine h.step (runs_emitBound hs lo) fun start σ₁ hl₁ h₁ hstart => ?_
  have hs₁ : s.Usable σ₁.view av b := hl₁.vars (fun _ => h.atEnd hl₁) hs
  refine h₁.step (runs_emitBound hs₁ hi) fun stop σ₂ hl₂ h₂ hstop => ?_
  have hstart := h₁.usable hl₂ hstart
  have hl₁₂ := hl₁.trans hl₂
  have hknown (v : Value) (hv : σ.view.AtEnd av b v) : σ₂.view.AtEnd av b v := h.atEnd hl₁₂ hv
  have hA := h₂.certified
  refine h₂.appendBlock _ _ hA fun header σ₃ av₃ hl₃ h₃ hheader hknown₃ hparams => ?_
  -- the body knows the number that the header takes
  have hB : σ₃.view.Certified (σ₃.view.AtEnd av₃ header) :=
    h₃.tidy.ordered.certified h₃.tidy.sound.shape.params
  obtain ⟨p, hp⟩ : ∃ p, (σ₃.view.block header).params.head? = some p :=
    Option.isSome_iff_exists.mp (isSome_head?.mpr fun hnil =>
      by rw [hnil] at hparams; cases hparams)
  refine h₃.appendBlock _ [] hB fun loop σ₄ av₄ hl₄ h₄ hloop hknown₄ _ => ?_
  refine h₄.appendBlock _ [] (hA.prolong (hl₃.trans hl₄).prolongs)
    fun exit σ₅ av₅ hl₅ h₅ hexit hknown₅ _ => ?_
  have hl₃₅ := (hl₃.trans hl₄).trans hl₅
  have hheader₅ : av₅ header = σ₂.view.AtEnd av b := by
    rw [(hl₄.trans hl₅).agrees header (h₃.blank header mem_cons_self).made, hknown₃]
  have hloop₅ : av₅ loop = σ₃.view.AtEnd av₃ header :=
    (hl₅.agrees loop (h₄.blank loop mem_cons_self).made).trans hknown₄
  have hexit₅ : av₅ exit = σ₂.view.AtEnd av b := hknown₅
  have henter (v : Value) (hv : σ₂.view.AtEnd av b v) : av₅ loop v := by
    rw [hloop₅]
    exact .inl (hknown₃ ▸ hv)
  refine h₅.step (runs_branchTo (fun v hv => ?_) fun v hv => ?_) fun _ σ₆ hl₆ h₆ hleads => ?_
  · rw [mem_singleton.mp hv]
    exact h₂.usable hl₃₅ hstart
  · exact h₂.atEnd hl₃₅ (hheader₅ ▸ hv)
  refine h₆.toSettled.goTo (exit :: loop :: ahead) (h₆.blank header (by simp))
    (.step h₆.reach hleads) (by grind) (by grind) (by grind) fun σ₇ hl₇ h₇ => ?_
  have hl₂₇ := hl₃₅.trans (hl₆.trans hl₇)
  have hl₃₇ := (hl₄.trans hl₅).trans (hl₆.trans hl₇)
  have hp₇ : (σ₇.view.block header).params.head? = some p := by
    rw [hl₃₇.prolongs.params header (h₃.blank header mem_cons_self).made]
    exact hp
  refine Lower.wp_bind.mpr ((Lower.wp_build _).mpr ?_)
  simp only [Midlevel.wp_bind, Build.wp_block]
  rw [show (σ₇.module.blocks.get header).params.head? = some p from hp₇]
  have hparam : σ₇.view.Has (.param p) :=
    h₇.tidy.sound.shape.params.made header p (mem_of_head? hp₇)
  have hi₇ : σ₇.view.Usable av₅ header (.param p) :=
    ⟨hparam, .inr (.inr (.inl ⟨p, mem_of_head? hp₇, rfl⟩))⟩
  have hstop₇ : σ₇.view.Usable av₅ header stop :=
    ⟨hl₂₇.prolongs.has _ hstop.has, hstop.known.imp_right fun hv => .inl (hheader₅ ▸ hv)⟩
  refine h₇.step (.construct (.primitive _ _) (usable_two hi₇ hstop₇))
    fun below σ₈ hl₈ h₈ hbelow => ?_
  refine h₈.step (runs_branchOn hbelow (fun v hv => ?_) fun v hv => .inl ?_)
    fun _ σ₉ hl₉ h₉ hleads => ?_
  · exact (hl₃₇.trans hl₈).atEnd h₃.toSettled (h₃.blank header mem_cons_self).made (hloop₅ ▸ hv)
  · rwa [hheader₅, ← hexit₅]
  refine h₉.toSettled.goTo (exit :: ahead) (h₉.blank loop (by simp)) (.step h₉.reach hleads.1)
    (by grind) (by grind) (by grind) fun φ hlφ hφ => ?_
  have hl₇φ := (hl₈.trans hl₉).trans hlφ
  have hi_known : av₅ loop (.param p) := by
    rw [hloop₅]
    exact .inr (.inl ⟨p, mem_of_head? hp, rfl⟩)
  have hiφ : φ.view.Usable av₅ loop (.param p) := ⟨hl₇φ.prolongs.has _ hparam, .inr (.inl hi_known)⟩
  refine Lower.wp_bind.mpr (Lower.wp_read ?_)
  refine hφ.step (.construct (.struct _ _) (usable_one hiφ)) fun wrapped χ hlχ hχ hwrapped => ?_
  refine hχ.step (runs_accessorFor hwrapped false) fun access ψ hlψ hψ haccess => ?_
  have hl₂ψ := ((hl₂₇.trans hl₇φ).trans hlχ).trans hlψ
  have hlψ := hlχ.trans hlψ
  have hsψ : s.Usable ψ.view av₅ loop :=
    (hl₁₂.trans hl₂ψ).vars (fun v hv => .inl (henter v (hknown v hv))) hs
  refine hbody.step hψ (hsψ.enter.insert haccess) fun inner τ av' hlτ hopen hinner => ?_
  have hmade : header.index < ψ.view.blocks := (hl₇φ.trans hlψ).made h₇.made
  have hi_ψ := hφ.usable hlψ hiφ
  refine hopen.next hinner (fun v hv => .inl (henter v ?_)) (fun c hc => hopen.usable hlτ hc hi_ψ)
    fun ρ hlρ hρ => ?_
  · rwa [← hheader₅, ← hlτ.agrees header hmade]
  have hreach : ρ.view.Reached exit :=
    (((hlφ.trans hlψ).trans hlτ).trans hlρ).prolongs.reached h₉.tidy.ordered
      (.step h₉.reach hleads.2)
  refine goes_resume hρ (by grind) hreach ((hl₁₂.trans hl₂ψ).trans (hlτ.trans hlρ)) hs
    fun v hv => ?_
  rw [hlτ.agrees exit (hψ.blank exit mem_cons_self).made, hexit₅]
  exact hknown v hv

def ArmsEmitWell (env : Env) (branches : List Branch) : Prop :=
  ∀ {σ : Site} {av : Avail} {ahead : List BlockId} {b exit : BlockId} {s : Vars} (n : Nat),
    σ.Here env av ahead b → s.Usable σ.view av b → exit ∈ ahead →
      (∀ v, av exit v → σ.view.AtEnd av b v) →
      wp ((emitArms s exit n branches).run env)
        (fun _ τ => ∃ av', σ.Later τ av av' ∧ τ.Settled env av' ahead) Fails σ

theorem goes_cond (hkind : st.kind = .cond) (harms : ArmsEmitWell env st.branches)
    (h : σ.Here env av ahead b) (hs : s.Usable σ.view av b) :
    wp ((emitStmt s st).run env) (σ.Goes env av ahead (σ.view.AtEnd av b)) Fails σ := by
  obtain ⟨code, _, _, _, _, _, branches, _, _, _, _⟩ := st
  unfold emitStmt
  rw [show StmtKind.ofCode code = .cond from hkind]
  refine h.appendBlock _ [] h.certified fun exit σ₁ av₁ hl₁ h₁ hexit hknown₁ hparams => ?_
  have hmade := (h₁.blank exit mem_cons_self).made
  have hK₁ (v : Value) (hv : σ.view.AtEnd av b v) : σ₁.view.AtEnd av₁ b v := h.atEnd hl₁ hv
  refine Lower.wp_bind.mpr (wp_imp (harms 0 h₁ (hl₁.vars hK₁ hs) mem_cons_self fun v hv => ?_)
    fun _ σ₂ h₂ => ?_)
  · exact hK₁ v (hknown₁ ▸ hv)
  obtain ⟨av₂, hl₂, h₂⟩ := h₂
  have hl := hl₁.trans hl₂
  refine Lower.wp_bind.mpr ((Lower.wp_build _).mpr ?_)
  show wp (ReaderT.run (if (σ₂.module.blocks.get exit).edges.isEmpty = true then _ else
    _) env) _ _ σ₂
  split
  · next hedges =>
    have hnone : (σ₂.view.block exit).params = [] := by
      rw [hl₂.prolongs.params exit hmade]
      exact eq_nil_of_length_eq_zero hparams
    refine h₂.eraseBlock hexit hnone (isEmpty_iff.mp hedges) fun σ₃ hl₃ h₃ => ?_
    refine Lower.wp_bind.mpr ((Lower.wp_build _).mpr (Build.wp_clearCursor.mpr ?_))
    refine ⟨av₂, hl.trans ⟨hl₃.prolongs, hl₃.agrees, hl₃.types, hl₃.heads, hl₃.defined⟩,
      ⟨⟨h₃.tidy.moveCursor _, h₃.fields, h₃.reached, h₃.blank⟩, nofun⟩, nofun⟩
  · next hedges =>
    have hreach := h₂.reached_of_edges fun hnil => hedges (isEmpty_iff.mpr hnil)
    refine goes_resume h₂ hexit hreach hl hs fun v hv => ?_
    rwa [hl₂.agrees exit hmade, hknown₁]

end Statements

theorem settles_arm {body : List Stmt} (hbody : EmitsWell env body)
    (harms : ArmsEmitWell env branches) {exit : BlockId} (c : Expr) (n : Nat)
    (h : σ.Here env av ahead b)
    (hs : s.Usable σ.view av b) (hexit : exit ∈ ahead)
    (hknown : ∀ v, av exit v → σ.view.AtEnd av b v) :
    wp ((emitArms s exit n (⟨some c, body⟩ :: branches)).run env)
      (fun _ τ => ∃ av', σ.Later τ av av' ∧ τ.Settled env av' ahead) Fails σ := by
  refine h.step (runs_emitCondition hs c) fun cond σ₁ hl₁ h₁ hcond => ?_
  refine h₁.appendBlock _ [] h₁.certified fun taken σ₂ av₂ hl₂ h₂ htaken hknown₂ _ => ?_
  have hmade := (h.blank exit hexit).made
  have hK (v : Value) (hv : σ.view.AtEnd av b v) : σ₁.view.AtEnd av b v := h.atEnd hl₁ hv
  have hs₁ := hl₁.vars hK hs
  have hcond₂ := h₁.usable hl₂ hcond
  have hexit₂ (v : Value) (hv : av₂ exit v) : σ₁.view.AtEnd av b v :=
    hK v (hknown v (hl₂.agrees exit (hl₁.made hmade) ▸ hv))
  cases branches with
  | nil =>
    -- the condition of the last arm fails into the exit
    refine wp_taken hbody h₁ hs₁ hl₂ h₂ htaken hcond₂ hknown₂ hexit₂
      ((hl₁.trans hl₂).made hmade) hexit₂
      fun υ av' hυ hsettled _ => ?_
    refine hsettled.moveCursor fun τ hτ hsettled => ?_
    exact ⟨av', (hl₁.trans hl₂).trans (hυ.trans hτ), hsettled⟩
  | cons branch branches =>
    refine h₂.appendBlock _ [] (h₁.certified.prolong hl₂.prolongs)
      fun next σ₃ av₃ hl₃ h₃ hnext hknown₃ _ => ?_
    have hl₂₃ := hl₂.trans hl₃
    have hl₁₃ := hl₁.trans hl₂₃
    have htaken₃ : av₃ taken = σ₁.view.AtEnd av b :=
      (hl₃.agrees taken (h₂.blank taken mem_cons_self).made).trans hknown₂
    have hexit₃ (v : Value) (hv : av₃ exit v) : σ₁.view.AtEnd av b v :=
      hK v (hknown v (hl₁₃.agrees exit hmade ▸ hv))
    have h₃' : σ₃.Here env av₃ (taken :: next :: ahead) b := h₃.of_mem_iff (by grind)
    refine wp_taken hbody h₁ hs₁ hl₂₃ h₃' (by grind) (h₂.usable hl₃ hcond₂) htaken₃
      (fun v hv => hknown₃ ▸ hv) (hl₁₃.made hmade) hexit₃ fun υ av' hυ hsettled hreach => ?_
    have hmade' := (h₃.blank next mem_cons_self).made
    have hnext' : av' next = σ₁.view.AtEnd av b := (hυ.agrees next hmade').trans hknown₃
    refine hsettled.goTo ahead (hsettled.blank next mem_cons_self) hreach (by grind) (by grind)
      (by grind) fun τ hτ hhere => ?_
    have hl := hl₂₃.trans (hυ.trans hτ)
    refine wp_imp (harms (n + 1) hhere (hl.vars (fun v hv => .inl (hnext' ▸ hv)) hs₁) hexit
      fun v hv => .inl ?_)
      fun _ φ hφ => ?_
    · rw [hnext']
      exact hexit₃ v (hυ.agrees exit (hl₁₃.made hmade) ▸ hv)
    · obtain ⟨av'', hlφ, hsettled⟩ := hφ
      exact ⟨av'', (hl₁.trans hl).trans hlφ, hsettled⟩

theorem emitArms_else (s : Vars) (exit : BlockId) (n : Nat) (body : List Stmt)
    (branches : List Branch) :
    emitArms s exit n (⟨none, body⟩ :: branches) = (do
      let inner ← emitStmts s.enter body
      if !(← Lower.terminated) then
        leave inner
        branchTo exit []
      pure ()) := by
  unfold emitArms
  simp only [bind_pure_unit]

mutual

theorem emitsWell : (sts : List Stmt) → EmitsWell env sts
  | [], σ, av, ahead, K, s, h, hs => by
    unfold emitStmts
    exact ⟨av, .refl σ av, h, hs⟩
  | st :: sts, σ, av, ahead, K, s, h, hs => by
    unfold emitStmts
    refine Lower.wp_bind.mpr (wp_terminated (fun _ => ⟨av, .refl σ av, h, hs⟩) fun b hb _ => ?_)
    obtain ⟨hhere, hK⟩ := h.here b hb
    refine Lower.wp_bind.mpr
      (Lower.wp_naming (wp_imp (goes_emitStmt st hhere (hs b hb)) fun s' τ hτ => ?_))
    obtain ⟨av', hl, hopen, hs'⟩ := hτ
    refine wp_imp (emitsWell sts (hopen.mono hK) hs') fun s'' υ hυ => ?_
    obtain ⟨av'', hl', hopen', hs''⟩ := hυ
    exact ⟨av'', hl.trans hl', hopen', hs''⟩

theorem goes_emitStmt {σ : Site} {av : Avail} {ahead : List BlockId} {b : BlockId} {s : Vars} :
    (st : Stmt) → σ.Here env av ahead b → s.Usable σ.view av b →
      wp ((emitStmt s st).run env) (σ.Goes env av ahead (σ.view.AtEnd av b)) Fails σ
  | ⟨code, name, mutable, type, target, value, branches, cond, lower, upper, body⟩, h, hs => by
    by_cases hcond : StmtKind.ofCode code = .cond
    · exact goes_cond hcond (armsEmitWell branches) h hs
    by_cases hwhile : StmtKind.ofCode code = .while
    · exact goes_while hwhile (emitsWell body) h hs
    by_cases hfor : StmtKind.ofCode code = .for
    · exact goes_for hfor (emitsWell body) h hs
    unfold emitStmt
    split
    · exact h.goes_of_runs (runs_emitVar hs _)
    · split
      · exact h.goes_after hs (runs_emitAssign hs _ _)
      · exact ⟨_, rfl⟩
    · split
      · exact ⟨_, rfl⟩
      · exact h.goes_after hs (runs_emitDiscarded hs _)
    · exact h.goes_after hs (runs_emitReturn hs (h.tidy.sound.hasFunc_of_block h.func) value)
    · next hkind => exact absurd hkind hcond
    · next hkind => exact absurd hkind hwhile
    · next hkind => exact absurd hkind hfor
    · exact goes_block (emitsWell body) h hs
    · exact ⟨_, rfl⟩

theorem armsEmitWell : (branches : List Branch) → ArmsEmitWell env branches
  | [], σ, av, ahead, b, exit, s, n, h, hs, hexit, hknown => by
    unfold emitArms
    exact ⟨av, .refl σ av, h.toSettled⟩
  | ⟨none, body⟩ :: _, σ, av, ahead, b, exit, s, n, h, hs, hexit, hknown => by
    rw [emitArms_else]
    exact wp_arm (emitsWell body) h hs (h.blank exit hexit).made hknown fun υ av' hl hυ =>
      ⟨av', hl, hυ⟩
  | ⟨some c, body⟩ :: branches, σ, av, ahead, b, exit, s, n, h, hs, hexit, hknown =>
    settles_arm (emitsWell body) (armsEmitWell branches) c n h hs hexit hknown

end

end Midlevel.Lowering
