import Midlevel.Proofs.Ir.Edits

/-!
Edits of whole blocks. Blocks that are erased together fall silent first and are then emptied; a
block that is merged into the one before it hands its instructions over, and the arguments of the
branch between them take the place of its parameters.
-/

namespace Midlevel.Ir

open View Midlevel.Ir.Module List

open Pass (Exit)

variable {b pred : BlockId} {m : Module} (w : View)

def Func.withBlocks (f : Func) (bs : List BlockId) : Func := { f with blocks := bs }

namespace View

variable (is js : List InstId)

def instsOf (bs : List BlockId) : List InstId := bs.flatMap fun b => (w.block b).insts

def silenceAll (is : List InstId) : View :=
  { w with
    reads := fun i => if i ∈ is then [] else w.reads i
    exits := fun i => if i ∈ is then [] else w.exits i
    entered := fun i => i ∈ is ∨ w.entered i }

@[simp] theorem silenceAll_nil : w.silenceAll [] = w := by
  ext1 <;> try rfl
  · funext j
    simp [silenceAll]

theorem silenceAll_append : (w.silenceAll is).silenceAll js = w.silenceAll (is ++ js):= by
  ext1 <;> try rfl
  · funext j
    by_cases hi : j ∈ is <;> simp [silenceAll, hi]
  · funext j
    by_cases hi : j ∈ is <;> simp [silenceAll, hi]
  · funext j
    simp only [silenceAll, mem_append, eq_iff_iff]
    tauto

theorem silence_eq_silenceAll (i : InstId) : w.silence i = w.silenceAll [i] := by
  ext1 <;> try rfl
  case reads | exits | entered =>
    funext j
    by_cases hj : j = i <;> simp [silenceAll, silence, hj]

def eraseInsts (is : List InstId) : View :=
  { w with
    inst := fun i => if i ∈ is then { w.inst i with block := none, erased := true } else w.inst i }

theorem eraseInsts_append : (w.eraseInsts is).eraseInsts js = w.eraseInsts (is ++ js):= by
  ext1 <;> try rfl
  funext i
  by_cases hi : i ∈ is <;> by_cases hj : i ∈ js <;> simp [eraseInsts, hi]

def leaveFunc (b : BlockId) : View :=
  { w with
    block := Function.update w.block b { w.block b with func := none }
    func := fun f => if (w.block b).func = some f then
      (w.func f).withBlocks ((w.func f).blocks.filter (· ≠ b)) else w.func f }

def removeBlock (b : BlockId) : View := (w.setBlock b ({ · with insts := [] })).leaveFunc b

def dropBlock (b : BlockId) : View := (w.eraseInsts (w.block b).insts).removeBlock b

/-- A value that a block defines: one of its parameters or results. -/
def Defines (b : BlockId) (v : Value) : Prop :=
  (∃ p ∈ (w.block b).params, v = .param p) ∨ ∃ i ∈ (w.block b).insts, v = .inst i

def EnteredFromOutside (bs : List BlockId) (b : BlockId) : Prop :=
  w.opens b ≠ [] ∨ ∃ i, ∃ x ∈ w.exits i, x.target = some b ∧ ∀ c ∈ bs, (w.inst i).block ≠ some c

theorem block_removeBlock (b c : BlockId) : (w.removeBlock b).block c =
    if c = b then { w.block c with insts := [], func := none } else w.block c := by
  show Function.update _ b _ c = _
  split
  · next h => simp [h]
  · next h => simp [h]

theorem block_dropBlock (b c : BlockId) : (w.dropBlock b).block c =
    if c = b then { w.block c with insts := [], func := none } else w.block c :=
  block_removeBlock _ b c

def dropBlocks (bs : List BlockId) : View :=
  { w with
    inst := (w.eraseInsts (w.instsOf bs)).inst
    block := fun b => if b ∈ bs then { w.block b with insts := [], func := none } else w.block b
    func := fun f => (w.func f).withBlocks ((w.func f).blocks.filter fun b =>
      ¬ (b ∈ bs ∧ (w.block b).func = some f)) }

theorem dropBlocks_nil : w.dropBlocks [] = w := by
  ext1 <;> simp [dropBlocks, instsOf, eraseInsts, Func.withBlocks]

theorem dropBlock_dropBlocks (bs : List BlockId) (hb : b ∉ bs) :
    (w.dropBlocks bs).dropBlock b = w.dropBlocks (bs ++ [b]) := by
  have hblock : (w.dropBlocks bs).block b = w.block b := if_neg hb
  ext1 <;> try rfl
  · have hinst : ((w.dropBlocks bs).dropBlock b).inst =
        ((w.eraseInsts (w.instsOf bs)).eraseInsts ((w.dropBlocks bs).block b).insts).inst := rfl
    rw [hinst, hblock, eraseInsts_append]
    show _ = (w.eraseInsts (w.instsOf (bs ++ [b]))).inst
    simp [instsOf]
  · funext c
    rw [block_dropBlock]
    by_cases hc : c = b <;> by_cases hcs : c ∈ bs <;> simp_all [dropBlocks]
  · funext f
    have hfunc : ((w.dropBlocks bs).dropBlock b).func f =
        if ((w.dropBlocks bs).block b).func = some f then
          (w.func f).withBlocks (((w.dropBlocks bs).func f).blocks.filter (· ≠ b))
        else (w.dropBlocks bs).func f := by
      unfold dropBlock removeBlock leaveFunc
      simp [dropBlocks, eraseInsts, Func.withBlocks]
    rw [hfunc, hblock]
    split
    · next hf =>
      refine congrArg (w.func f).withBlocks ?_
      refine (filter_filter ..).trans (filter_congr fun c _ => ?_)
      by_cases hc : c = b <;> simp [hc, hf]
    · next hf =>
      refine congrArg (w.func f).withBlocks (filter_congr fun c _ => ?_)
      by_cases hc : c = b <;> simp [hc, hf]

def eraseBlocks (bs : List BlockId) : View := (w.silenceAll (w.instsOf bs)).dropBlocks bs

/-- What stands against erasing the blocks `bs`. -/
def Needed (bs : List BlockId) : Prop :=
  ¬ bs.Nodup ∨ ∃ b ∈ bs, w.EnteredFromOutside bs b ∨ ∃ v, w.Defines b v ∧
    (w.silenceAll (w.instsOf bs)).Reads v

def append (pred succ : BlockId) : View :=
  (({ w with
      inst := fun i => if i ∈ (w.block succ).insts then { w.inst i with block := some pred }
        else w.inst i }).setBlock pred fun x =>
    { x with insts := x.insts ++ (w.block succ).insts }).removeBlock succ

theorem mapValues_mapValues (f g : Option Value → Option Value) :
    (w.mapValues f).mapValues g = w.mapValues fun x => g (f x) := by
  ext1 <;> try rfl
  case reads | exits | opens =>
    funext i
    simp [mapValues]

theorem mapValues_id : (w.mapValues fun x => x) = w := by
  ext1 <;> try rfl
  case reads | exits | opens =>
    funext i
    simp [mapValues]

end View

def substituteAll : List (ParamId × Option Value) → Option Value → Option Value
  | [], x => x
  | (_, none) :: rest, x => substituteAll rest x
  | (p, some a) :: rest, x => substituteAll rest (Build.substitute (.param p) a x)

theorem substituteAll_append (xs ys : List (ParamId × Option Value)) (v : Option Value) :
    substituteAll (xs ++ ys) v = substituteAll ys (substituteAll xs v) := by
  induction xs generalizing v with
  | nil => rfl
  | cons x xs ih =>
    obtain ⟨p, _ | a⟩ := x
    · exact ih v
    · exact ih _

def View.merge (pred succ : BlockId) (t : InstId) (args : Args) : View :=
  ((w.discard t).mapValues (substituteAll ((w.block succ).params.zip args))).append pred succ

namespace Module

theorem terminator_eq_some {t : InstId} : m.terminator b = some t ↔
    (m.blocks.get b).insts.getLast? = some t ∧ (m.insts.get t).op.isTerminator = true := by
  unfold terminator
  cases (m.blocks.get b).insts.getLast? with
  | none => simp
  | some i =>
    by_cases hi : (m.insts.get i).op.isTerminator
    · simp only [hi, if_true, Option.some.injEq]
      exact ⟨fun h => ⟨h, h ▸ hi⟩, fun h => h.1⟩
    · simp only [hi, Option.some.injEq]
      exact ⟨fun h => absurd h (by simp), fun h => absurd (h.1 ▸ h.2) hi⟩

theorem Linked.hasValue_of_reads (h : m.Linked) {v : Value} (hv : m.view.Reads v) :
    m.HasValue v := by
  by_contra hn
  refine h.uses_eq_nil.mp ?_ hv
  rw [h.wired.uses_eq_nil]
  exact fun o ho => hn (h.wired.made o v trivial ho)

end Module

def Cursor.Leaves (c : Cursor) (bs : List BlockId) (c' : Cursor) : Prop :=
  c' = {} ∨ c' = c ∧ ∀ b ∈ bs, c.block ≠ some b

theorem Cursor.Leaves.append {c c' c'' : Cursor} {bs bs' : List BlockId} (h : c.Leaves bs c')
    (h' : c'.Leaves bs' c'') :
    c.Leaves (bs ++ bs') c'' := by
  rcases h' with rfl | ⟨rfl, hbs'⟩
  · exact .inl rfl
  · exact h.imp_right fun ⟨he, hbs⟩ => ⟨he, forall_mem_append.mpr ⟨hbs, he ▸ hbs'⟩⟩

def Cursor.merged (c : Cursor) (pred succ : BlockId) : Cursor :=
  if c.block = some succ then { c with block := some pred } else c

namespace Build

variable {s : Builder} {E : Post Fault} {Q : Post Unit}

/-! ### Erasing blocks -/

section

variable (h : s.Linked)
include h

theorem wp_forM_dropAll (is : List InstId) (k : s.With (s.module.view.silenceAll is) (Q ())) :
    wp (is.forM dropAll) Q E s := by
  refine wp_forM_module (fun done m => m.Linked ∧ m.view = s.module.view.silenceAll done)
    ⟨h, (silenceAll_nil _).symm⟩ ?_ fun m hm => k m hm.1 hm.2
  rintro done i rest - m ⟨hm, hview⟩
  refine wp_dropAll hm i fun m' hm' hview' => ⟨m', rfl, hm', ?_⟩
  rw [hview', hview, silence_eq_silenceAll, silenceAll_append]

theorem wp_silenceBlocks (bs : List BlockId)
    (k : s.With (s.view.silenceAll (s.view.instsOf bs)) (Q ())) :
    wp (bs.forM fun b => do (← block b).insts.forM dropAll) Q E s := by
  refine wp_forM_module (fun done m => m.Linked ∧
      m.view = s.view.silenceAll (s.view.instsOf done))
    ⟨h, (silenceAll_nil _).symm⟩ ?_ fun m hm => k m hm.1 hm.2
  rintro done b rest - m ⟨hm, hview⟩
  refine wp_forM_dropAll hm _ fun m' hm' hview' => ⟨m', rfl, hm', ?_⟩
  have hinsts : (m.blocks.get b).insts = (s.view.block b).insts := by
    show (m.view.block b).insts = _
    rw [hview]
    rfl
  rw [hview', hview, silenceAll_append, hinsts]
  congr 1
  simp [instsOf]

theorem wp_removeBlock (b : BlockId)
    (hC : ∀ c t, c ≠ .corruptUses → (s.module.blocks.get b).func = none → E (.crash c) t)
    (k : ∀ m', (s.module.blocks.get b).func ≠ none → m'.Linked →
      m'.view = s.module.view.leaveFunc b → Q () { s with module := m' }) :
    wp (removeBlock b) Q E s := by
  unfold removeBlock
  simp only [wp_bind, wp_block]
  cases hf : (s.module.blocks.get b).func with
  | none => exact hC _ _ (by simp) hf
  | some f =>
    simp only [wp_demand_some]
    refine wp_setFunc h (fun _ => by trivial) (.inr rfl) fun m₁ h₁ hview₁ => ?_
    refine wp_setBlock h₁ (fun _ => by trivial) (.inr rfl) fun m₂ h₂ hview₂ =>
      k m₂ (by rw [hf]; simp) h₂ (hview₂.trans ?_)
    rw [hview₁]
    have hvf : (s.module.view.block b).func = some f := hf
    ext1 <;> try rfl
    funext g
    by_cases hg : g = f
    · subst hg
      simp [leaveFunc, Func.withBlocks, hvf]
    · simp [leaveFunc, hvf, hg, Ne.symm hg]

theorem wp_eraseEmptied (hN : ∀ c t, c ≠ .corruptUses → (s.module.blocks.get b).func = none →
    E (.crash c) t)
    (hinsts : ∀ i ∈ (s.module.blocks.get b).insts, s.module.insts.Has i)
    (hC : ∀ c t v, c ≠ .corruptUses → s.module.view.Defines b v → s.module.view.Reads v →
      E (.crash c) t)
    (k : ∀ m' c, (s.module.blocks.get b).func ≠ none → m'.Linked →
      m'.view = s.module.view.dropBlock b →
      s.cursor.Leaves [b] c → Q () { s with module := m', cursor := c }) :
    wp (eraseEmptied b) Q E s := by
  unfold eraseEmptied
  rw [wp_bind, wp_block, wp_bind]
  refine wp_forM_of_each (fun t => t = s) ?_ rfl ?_
  · rintro p hp t rfl
    simp only [wp_bind, wp_module, wp_ite, wp_pure]
    refine ⟨fun hused => hC _ _ (.param p) (by simp) (.inl ⟨p, hp, rfl⟩) ?_, fun _ => trivial⟩
    by_contra hn
    have : (t.module.params.get p).uses = [] := h.uses_eq_nil.mpr hn
    simp [this] at hused
  rintro t rfl
  rw [wp_bind]
  refine wp_forM_of_invariant (fun done u => u.module.Linked ∧
    u.module.view = t.module.view.eraseInsts done ∧ t.cursor.Leaves [] u.cursor ∧
    u = { t with module := u.module, cursor := u.cursor }) ?_ ?_ ?_
  · rintro done i rest hrest u ⟨hu, hview, hcursor, hs⟩
    have hmem : i ∈ (t.module.blocks.get b).insts := by rw [hrest]; simp
    have hi : u.module.insts.Has i := hasInst_of_view hview (hinsts i hmem)
    have hdone : ∀ c : Cursor, t.cursor.Leaves [] c →
      wp (modifyInst i ({ · with block := none, erased := true }))
        (fun _ u => u.module.Linked ∧ u.module.view = t.module.view.eraseInsts (done ++ [i]) ∧
          t.cursor.Leaves [] u.cursor ∧ u = { t with module := u.module, cursor := u.cursor }) E
        { u with cursor := c } := by
      intro c hc
      refine wp_setInst (s := { u with cursor := c }) hu (fun _ => by constructor <;> rfl) hi
        (fun e he d hd => absurd hd (by simp))
        fun m' hm' hview' => ⟨hm', hview'.trans ?_, hc, by rw [hs]⟩
      rw [hview]
      ext1 <;> try rfl
      funext j
      by_cases hj : j = i
      · by_cases hd : j ∈ done <;> simp [eraseInsts, hd]
      · simp [eraseInsts, hj]
    simp only [wp_bind, wp_inst, wp_ite]
    refine ⟨fun hused => hC _ _ (.inst i) (by simp) (.inr ⟨i, hmem, rfl⟩) ?_,
      fun _ => ⟨fun _ => hdone _ (.inl rfl), fun _ => hdone _ hcursor⟩⟩
    by_contra hn
    have hn' : ¬ u.module.view.Reads (.inst i) := by rwa [hview]
    have : (u.module.insts.get i).uses = [] := hu.uses_eq_nil.mpr hn'
    simp [this] at hused
  · refine ⟨h, ?_, .inr ⟨rfl, by simp⟩, rfl⟩
    ext1 <;> rfl
  rintro u ⟨hu, hview, hcursor, hs⟩
  have hfinish : ∀ c : Cursor, u.cursor.Leaves [b] c → wp (modifyBlock b ({ · with insts := [] }))
      (fun _ v => wp (removeBlock b) Q E v) E { u with cursor := c } := by
    intro c hc
    refine wp_setBlock (s := { u with cursor := c }) hu (fun _ => by trivial) (.inr rfl)
      fun m₁ h₁ hview₁ => ?_
    have huf : (m₁.blocks.get b).func = (t.module.blocks.get b).func := by
      show (m₁.view.block b).func = _
      rw [hview₁, block_setBlock, if_pos rfl, hview]
      rfl
    refine wp_removeBlock h₁ b (fun d v hd hn => hN d v hd (huf.symm.trans hn))
      fun m' hsome hm' hview' => ?_
    have := k m' c (huf ▸ hsome) hm' (by rw [hview', hview₁, hview]; rfl) (hcursor.append hc)
    rw [hs]
    exact this
  simp only [wp_bind, wp_ite]
  exact ⟨fun _ => hfinish _ (.inl rfl),
    fun hc => hfinish _ (.inr ⟨rfl, forall_mem_singleton.mpr hc⟩)⟩

end

def Erasable (m : Module) (b : BlockId) : Prop :=
  (∃ f, (m.blocks.get b).func = some f ∧ b ∈ (m.funcs.get f).blocks) ∧ m.isEntry b = false

theorem wp_checkErasable {Q : Post (List BlockId)} {blocks : List (Option BlockId)}
    (hE : ∀ e, (¬ ∀ x ∈ blocks, ∃ b, x = some b ∧ Erasable s.module b) → E (.error e) s)
    (k : ∀ bs, blocks = bs.map some → (∀ b ∈ bs, Erasable s.module b) → Q bs s) :
    wp (checkErasable blocks) Q E s := by
  induction blocks generalizing Q with
  | nil => exact k [] rfl (by simp)
  | cons x xs ih =>
    cases x with
    | none =>
      refine hE _ fun hall => ?_
      obtain ⟨b, hb, -⟩ := hall none mem_cons_self
      cases hb
    | some b =>
      have hbad : (¬ Erasable s.module b) → ∀ e, E (.error e) s := fun hn e =>
        hE e fun hall => by
          obtain ⟨c, hc, herasable⟩ := hall (some b) mem_cons_self
          exact hn (Option.some.inj hc ▸ herasable)
      unfold checkErasable
      simp only [wp_bind, wp_ite]
      refine ⟨fun hno => hbad ?_ _, fun hyes => ⟨fun hentry => hbad ?_ _, fun hentry => ?_⟩⟩
      · rintro ⟨⟨f, hf, hmem⟩, -⟩
        simp [hf, hmem] at hno
      · rintro ⟨-, hn⟩
        rw [hn] at hentry
        cases hentry
      · have hb : Erasable s.module b := by
          refine ⟨?_, by simpa using hentry⟩
          cases hf : (s.module.blocks.get b).func with
          | none => simp [hf] at hyes
          | some f => exact ⟨f, rfl, by simpa [hf] using hyes⟩
        refine ih (fun e hn => hE e fun hall => hn (forall_mem_cons.mp hall).2)
          fun bs hbs hall => k (b :: bs) (by rw [hbs]; rfl) ?_
        intro c hc
        rcases mem_cons.mp hc with rfl | hc
        · exact hb
        · exact hall c hc

theorem wp_checkNoDanglingBranch (h : s.Linked) (bs : List BlockId) (b : BlockId)
    (hC : ∀ c t, c ≠ .corruptUses → s.view.EnteredFromOutside bs b → E (.crash c) t) (k : Q () s) :
    wp (checkNoDanglingBranch bs b) Q E s := by
  refine wp_forM_of_each (fun t => t = s) ?_ rfl fun t ht => ht ▸ k
  rintro e he t rfl
  rw [wp_bind, wp_edge]
  obtain ⟨htarget, hsource⟩ := h.incoming b e he
  -- an edge that knows no predecessor has no source either
  cases hs : (t.module.edges.get e).source with
  | none =>
    rw [h.predIsNone e hs]
    refine hC _ _ (by simp) (.inl ?_)
    have : e ∈ t.module.openEdges b := mem_filter.mpr ⟨he, by rw [hs]; rfl⟩
    exact fun hnil => ne_nil_of_mem this (map_eq_nil_iff.mp hnil)
  | some i =>
    have hi := hsource i hs
    obtain ⟨p, hp⟩ := Option.isSome_iff_exists.mp (h.predIsSome i e hi)
    simp only [hp, wp_bind, wp_demand_some, wp_ite, wp_pure]
    refine ⟨fun hout => hC _ _ (by simp) (.inr ⟨i, _, mem_map_of_mem hi, htarget, ?_⟩),
      fun _ => trivial⟩
    intro c hc hblock
    have : p = c := Option.mem_unique hp (h.pred i e hi c hblock)
    simp [this, hc] at hout

theorem wp_eraseBlocks (h : s.Linked) {blocks : List (Option BlockId)}
    (hinsts : ∀ b, ∀ i ∈ (s.module.blocks.get b).insts, s.module.insts.Has i)
    (hE : ∀ e, (¬ ∀ x ∈ blocks, ∃ b, x = some b ∧ Erasable s.module b) → E (.error e) s)
    (hC : ∀ c t bs, c ≠ .corruptUses → blocks = bs.map some → s.module.view.Needed bs →
      E (.crash c) t)
    (k : ∀ bs m' c, blocks = bs.map some → (∀ b ∈ bs, Erasable s.module b) → bs.Nodup → m'.Linked →
      m'.view = s.module.view.eraseBlocks bs → s.cursor.Leaves bs c →
      Q () { s with module := m', cursor := c }) :
    wp (eraseBlocks blocks) Q E s := by
  unfold eraseBlocks
  rw [wp_bind]
  refine wp_checkErasable hE fun bs hbs herasable => ?_
  replace hC : ∀ c t, c ≠ .corruptUses → s.module.view.Needed bs → E (.crash c) t :=
      fun c t hc hn =>
    hC c t bs hc hbs hn
  rw [wp_bind]
  refine wp_forM_of_each (fun t => t = s) ?_ rfl ?_
  · rintro b hb t rfl
    exact wp_checkNoDanglingBranch h bs b (fun c t hc hn => hC c t hc (.inr ⟨b, hb, .inl hn⟩)) rfl
  rintro t rfl
  rw [wp_bind]
  refine wp_silenceBlocks h bs fun m₁ h₁ hview₁ => ?_
  refine wp_forM_of_invariant (fun done u => u.module.Linked ∧
    u.module.view = m₁.view.dropBlocks done ∧ done.Nodup ∧ t.cursor.Leaves done u.cursor ∧
    u = { t with module := u.module, cursor := u.cursor }) ?_
    ⟨h₁, (dropBlocks_nil _).symm, nodup_nil, .inr ⟨rfl, nofun⟩, rfl⟩ ?_
  · rintro done b rest hrest u ⟨hu, hview, hnodup, hcursor, hs⟩
    have hblock : (u.module.blocks.get b).view =
        if b ∈ done then { t.module.view.block b with insts := [], func := none }
        else t.module.view.block b := by
      show u.module.view.block b = _
      rw [hview, hview₁]
      rfl
    have htwice : b ∈ done → t.module.view.Needed bs := fun hdone => .inl fun hn => by
      rw [hrest, nodup_append] at hn
      exact hn.2.2 b hdone b mem_cons_self rfl
    have hmem : b ∈ bs := by rw [hrest]; simp
    obtain ⟨⟨f, hf, -⟩, -⟩ := herasable b hmem
    have hold : b ∉ done → u.module.view.block b = t.module.view.block b := fun hn => by
      show (u.module.blocks.get b).view = _
      rw [hblock, if_neg hn]
    have hnew : (u.module.blocks.get b).func ≠ none → b ∉ done := fun hsome hdone => hsome (by
      show (u.module.blocks.get b).view.func = none
      rw [hblock, if_pos hdone])
    refine wp_eraseEmptied hu (fun c v hc hn => hC c v hc (htwice ?_)) (fun i hi => ?_)
      (fun c v x hc hdef hreads => hC c v hc ?_) fun m' c hsome hm' hview' hc =>
        ⟨hm', ?_, ?_, hcursor.append hc, ?_⟩
    · by_contra hdone
      have : (u.module.view.block b).func = some f := by rw [hold hdone]; exact hf
      cases hn.symm.trans this
    · show i.index < u.module.view.insts
      rw [hview, hview₁]
      refine hinsts b i ?_
      have hi' : i ∈ (u.module.blocks.get b).view.insts := hi
      rw [hblock] at hi'
      split at hi'
      · cases hi'
      · exact hi'
    · by_cases hdone : b ∈ done
      · exact htwice hdone
      · refine .inr ⟨b, hmem, .inr ⟨x, ?_, ?_⟩⟩
        · unfold View.Defines at hdef ⊢
          rwa [hold hdone] at hdef
        · rw [hview] at hreads
          rwa [← hview₁]
    · rw [hview', hview, dropBlock_dropBlocks _ _ (hnew hsome)]
    · refine nodup_append.mpr ⟨hnodup, nodup_singleton b, ?_⟩
      rintro c hc d hd rfl
      rw [mem_singleton.mp hd] at hc
      exact hnew hsome hc
    · rw [hs]
  · rintro u ⟨hu, hview, hnodup, hcursor, hs⟩
    rw [hs]
    refine k bs _ _ hbs herasable hnodup hu ?_ hcursor
    rw [hview, hview₁]
    rfl

/-! ### Merging blocks -/

/-- The branch `t` with edge `e` at the end of `pred` is the only way into `succ`. -/
structure SoleBranch (m : Module) (pred succ : BlockId) (t : InstId) (e : EdgeId) : Prop where
  terminator : m.terminator pred = some t
  op : (m.insts.get t).op = .br
  edge : (m.insts.get t).targets.head? = some e
  target : (m.edges.get e).target = some succ
  only : (m.blocks.get succ).edges.length = 1
  entry : m.isEntry succ = false

theorem wp_checkSameFunc {Q : BlockId × BlockId × FuncId → Builder → Prop} {doing : Text}
    {a b : Option BlockId} (hE : ∀ e, (∀ x y f, a = some x → b = some y →
      (s.module.blocks.get x).func = some f → (s.module.blocks.get y).func ≠ some f) →
      E (.error e) s)
    (k : ∀ x y f, a = some x → b = some y → (s.module.blocks.get x).func = some f →
      (s.module.blocks.get y).func = some f → Q (x, y, f) s) :
      wp (checkSameFunc doing a b) Q E s := by
  unfold checkSameFunc
  rcases a with _ | x
  · exact hE _ fun x y f hx => absurd hx (by simp)
  rcases b with _ | y
  · exact hE _ fun x y f _ hy => absurd hy (by simp)
  simp only [wp_bind, wp_block]
  have hbad : (∀ f, (s.module.blocks.get x).func = some f → (s.module.blocks.get y).func ≠ some f) →
      ∀ e, E (.error e) s := fun hn e => hE e fun x' y' f hx hy => by
    cases hx
    cases hy
    exact hn f
  split
  · next f g hf hg =>
    simp only [wp_ite]
    refine ⟨fun hfg => k x y f rfl rfl hf (hfg ▸ hg), fun hfg => hbad (fun f' hf' hg' => hfg ?_) _⟩
    exact (Option.mem_unique hf hf').trans (Option.mem_unique hg' hg)
  · next hn => exact hbad (fun f hf hg => hn f f hf hg) _

theorem wp_soleBranch {Q : Option (InstId × EdgeId) → Builder → Prop} {succ : BlockId}
    (hC : ∀ c t, c ≠ .corruptUses → s.module.terminator pred = some t →
      (s.module.insts.get t).op = .br →
      (s.module.insts.get t).targets = [] → E (.crash c) s)
    (hnone : (∀ t e, ¬ SoleBranch s.module pred succ t e) → Q none s)
    (hsome : ∀ t e, SoleBranch s.module pred succ t e → Q (some (t, e)) s) :
    wp (soleBranch pred succ) Q E s := by
  unfold soleBranch
  rw [wp_bind, wp_module]
  cases ht : s.module.terminator pred with
  | none =>
    exact hnone fun t e h => absurd (ht.symm.trans h.terminator) (by simp)
  | some t =>
    have hsame : ∀ t' e, SoleBranch s.module pred succ t' e → t' = t := fun t' e h =>
      Option.mem_unique h.terminator ht
    simp only [wp_ite, wp_bind]
    refine ⟨fun hop => hnone fun t' e h => hop (hsame t' e h ▸ h.op), fun hop => ?_⟩
    rw [not_not] at hop
    cases he : (s.module.insts.get t).targets.head? with
    | none => exact hC _ t (by simp) ht hop (List.head?_eq_none_iff.mp he)
    | some e =>
      refine ⟨fun hgood => ?_, fun hbad => ?_⟩
      · exact hsome t e ⟨ht, hop, he, hgood.1, hgood.2.1, by simpa using hgood.2.2⟩
      · refine hnone fun t' e' h => hbad ?_
        obtain rfl := hsame t' e' h
        obtain rfl : e = e' := Option.mem_unique he h.edge
        exact ⟨h.target, h.only, by simp [h.entry]⟩

theorem wp_replaceAll (h : s.module.Linked) {xs : List (ParamId × Option Value)}
    (hxs : ∀ x ∈ xs, ∀ w, x.2 = some w → s.module.HasValue w)
    (k : s.With (s.view.mapValues (substituteAll xs)) (Q ())) :
    wp (xs.forM fun x => replaceAllUses (some (.param x.1)) x.2) Q E s := by
  refine wp_forM_module (fun done m => m.Linked ∧ m.view = s.view.mapValues (substituteAll done))
    ⟨h, (mapValues_id _).symm⟩ ?_ fun m hm => k m hm.1 hm.2
  rintro done ⟨p, a⟩ rest hrest m ⟨hm, hview⟩
  cases a with
  | none =>
    refine ⟨m, rfl, hm, hview.trans ?_⟩
    congr 1
    funext x
    rw [substituteAll_append]
    rfl
  | some w =>
    have hw : m.HasValue w := by
      have hw' := hxs (p, some w) (by rw [hrest]; simp) w rfl
      rw [hasValue_iff_view] at hw' ⊢
      rw [hview]
      cases w <;> exact hw'
    refine wp_replaceAllUses hm (.param p) w hw fun m' hm' hview' => ⟨m', rfl, hm', ?_⟩
    rw [hview', hview, mapValues_mapValues]
    congr 1
    funext x
    rw [substituteAll_append]
    rfl

theorem wp_rehome (h : s.Linked) (is : List InstId) (b : BlockId)
    (his : ∀ i ∈ is, s.module.insts.Has i)
    (k : ∀ m', m'.Linked → m'.view = { s.module.view with
        inst := fun i => if i ∈ is then { s.module.view.inst i with block := some b }
          else s.module.view.inst i } → Q () { s with module := m' }) :
    wp (is.forM fun i => do
      modifyInst i ({ · with block := some b })
      (← inst i).targets.forM fun e => modifyEdge e ({ · with pred := some b })) Q E s := by
  refine wp_forM_module (fun done m => m.Linked ∧ m.view = { s.module.view with
      inst := fun i => if i ∈ done then { s.module.view.inst i with block := some b }
        else s.module.view.inst i }) ⟨h, by ext1 <;> rfl⟩ ?_ fun m hm => k m hm.1 hm.2
  rintro done i rest hrest m ⟨hm, hview⟩
  simp only [wp_bind, wp_modifyInst, wp_setPreds]
  have hplain : ∀ x, Module.Plain ({ · with block := some b }) x := fun _ => ⟨rfl, rfl, rfl, rfl⟩
  have hi : m.insts.Has i := hasInst_of_view hview (his i (by rw [hrest]; simp))
  have htargets : ((m.updateInst i ({ · with block := some b })).insts.get i).targets =
      (m.insts.get i).targets := Pool.get_update_part _ Inst.targets i i fun _ => rfl
  refine ⟨_, rfl, ?_, ?_⟩
  · rw [htargets]
    exact hm.rehome hplain hi fun _ => rfl
  · rw [view_setPreds, view_updateInst hi hplain, hview]
    ext1 <;> try rfl
    funext j
    by_cases hj : j = i
    · by_cases hd : j ∈ done <;> simp [hd]
    · simp [hj]

theorem wp_mergeBlocks (h : s.Linked) {succ : BlockId}
    (hplaced : ∀ b, ∀ i ∈ (s.module.blocks.get b).insts, (s.module.insts.get i).block = some b)
    (hE : ∀ e, (∀ f t e, (s.module.blocks.get pred).func = some f →
      (s.module.blocks.get succ).func = some f → ¬ SoleBranch s.module pred succ t e) →
      E (.error e) s)
    (hC : ∀ c u, c ≠ .corruptUses →
      (∃ t, s.module.terminator pred = some t ∧ (s.module.insts.get t).op = .br ∧
      (s.module.insts.get t).targets = []) ∨
      (∃ t e, SoleBranch s.module pred succ t e ∧ (s.view.Reads (.inst t) ∨
        (s.module.blocks.get succ).params.length < (s.module.edges.get e).args.length)) →
        E (.crash c) u)
    (k : ∀ f t e m', (s.module.blocks.get pred).func = some f →
      (s.module.blocks.get succ).func = some f → SoleBranch s.module pred succ t e → m'.Linked →
      m'.view = View.merge s.view pred succ t (s.module.operandValues (s.module.edges.get e).args) →
      Q () { s with module := m', cursor := (s.module.cursorPast t s.cursor).merged pred succ }) :
    wp (mergeBlocks (some pred) (some succ)) Q E s := by
  unfold mergeBlocks
  rw [wp_bind]
  refine wp_checkSameFunc (fun e hbad => hE e fun f t e' hp hs _ => hbad pred succ f rfl rfl hp hs)
    fun x y f hx hy hpred hsucc => ?_
  cases hx
  cases hy
  simp only [wp_bind]
  refine wp_soleBranch (fun c t hc ht hop hnil => hC c _ hc (.inl ⟨t, ht, hop, hnil⟩))
    (fun hnone => ?_)
    fun t e hsole => ?_
  · exact hE _ fun f t e _ _ => hnone t e
  simp only [wp_bind, wp_edge, wp_ite, wp_crash]
  refine ⟨fun hmany => hC _ _ (by simp) (.inr ⟨t, e, hsole, .inr ?_⟩), fun hfew => ?_⟩
  · rwa [operandValues, length_map] at hmany
  have hmem : t ∈ (s.module.blocks.get pred).insts :=
    mem_of_getLast? (terminator_eq_some.mp hsole.terminator).1
  refine wp_eraseFrom h (fun e' hbad => absurd ⟨hplaced pred t hmem, hmem⟩ hbad)
    (fun c hc hreads => hC c _ hc (.inr ⟨t, e, hsole, .inl hreads⟩)) fun m₁ _ h₁ hview₁ => ?_
  have htarget : e ∈ (s.module.insts.get t).targets := mem_of_mem_head? hsole.edge
  refine wp_replaceAll h₁ ?_ fun m₂ h₂ hview₂ => ?_
  · rintro ⟨p, a⟩ hx w rfl
    have hw : s.HasValue w :=
      h.hasValue_of_reads (.inr (.inl ⟨t, _, mem_map_of_mem htarget, (of_mem_zip hx).2⟩))
    show m₁.view.Has w
    rw [hview₁]
    exact hw
  refine wp_rehome h₂ _ pred ?_ fun m₃ h₃ hview₃ => ?_
  · intro i hi
    have hi' : i ∈ (m₂.view.block succ).insts := hi
    show i.index < m₂.view.insts
    have hplaced' : s.view.Placed t := fun b => hplaced b t
    rw [hview₂] at hi' ⊢
    replace hi' : i ∈ (m₁.view.block succ).insts := hi'
    show i.index < m₁.view.insts
    rw [hview₁, block_discard hplaced'] at hi'
    rw [hview₁]
    exact (has_discard _ _ (.inst i)).mpr
      (has_of_instBlock (hplaced succ i (mem_of_mem_filter hi')))
  have hpredHas : m₃.blocks.Has pred := by
    have : s.module.blocks.Has pred := has_of_blockFunc (by rw [hpred]; rfl)
    exact hasBlock_of_view hview₃ (hasBlock_of_view hview₂ (hasBlock_of_view hview₁ this))
  have hblock₃ : m₃.view.block = (s.view.discard t).block := by
    rw [hview₃]
    rw [hview₂, ← hview₁]
    rfl
  have hinsts : (m₂.blocks.get succ).insts = ((s.view.discard t).block succ).insts := by
    show (m₂.view.block succ).insts = _
    rw [hview₂, ← hview₁]
    rfl
  rw [hinsts] at hview₃ ⊢
  generalize his : ((s.view.discard t).block succ).insts = is at hview₃ ⊢
  refine wp_setBlock h₃ (fun _ => by trivial) (.inl hpredHas) fun m₄ h₄ hview₄ => ?_
  refine wp_setBlock h₄ (fun _ => by trivial) (.inr rfl) fun m₅ h₅ hview₅ => ?_
  have hfunc₅ : (m₅.view.block succ).func = some f := by
    rw [hview₅, block_setBlock, if_pos rfl]
    rw [hview₄, block_setBlock]
    rw [hblock₃, block_discard fun b => hplaced b t]
    split <;> exact hsucc
  have hfinish : wp (removeBlock succ) Q E
      { s with module := m₅, cursor := (s.module.cursorPast t s.cursor).merged pred succ } := by
    refine wp_removeBlock h₅ succ (fun d u _ hn => absurd (hfunc₅.symm.trans hn) (by simp))
      fun m' _ hm' hview' => k f t e m' hpred hsucc hsole hm' ?_
    rw [hview', hview₅, hview₄, hview₃]
    unfold View.merge View.append View.removeBlock
    have hsucc' : ((mapValues (s.view.discard t) (substituteAll
      ((s.view.block succ).params.zip (s.module.operandValues (s.module.edges.get e).args)))).block
        succ).insts = is := his
    rw [hsucc', ← hview₁]
    have hparams : (s.view.block succ).params = (s.module.blocks.get succ).params := rfl
    rw [hparams, ← hview₂]
  rw [Cursor.merged] at hfinish
  exact ⟨fun hc => by rwa [if_pos hc] at hfinish, fun hc => by rwa [if_neg hc] at hfinish⟩

end Build

end Midlevel.Ir
