import Midlevel.Proofs.Ir.Functions

/-!
The shape of a module: an instruction is listed in its own block only, a block in its own function
only, a parameter in its own block only, and a branch has the exits of its opcode. The verifier does
not look at most of this, and no operation of the builder can break it.
-/

namespace Midlevel.Ir

open List
open Function (update_apply)
open Pass (Exit)

variable {f : FuncId} {before : Option InstId} {is : List InstId} {x : Inst} {vs : Args}

def Opcode.exits : Opcode → Nat
  | .br => 1
  | .condBr => 2
  | _ => 0

/-- A number of operands without which an instruction makes no sense: a conditional branch has one
condition, and a call has a callee. -/
def Opcode.Takes : Opcode → Nat → Prop
  | .condBr, n => n = 1
  | .call, n | .apply, n => n ≠ 0
  | _, _ => True

namespace View

variable {i : InstId} {bs : List BlockId}
variable {g : Func → Func}

/-- Instructions are listed in their own block, once. -/
structure InstsPlaced (w : View) : Prop where
  placed : ∀ i, w.Placed i
  nodup : ∀ b, (w.block b).insts.Nodup

/-- Blocks are listed in their own function, once; a function without a body has none. -/
structure BlocksPlaced (w : View) : Prop where
  mem_iff : ∀ f b, b ∈ (w.func f).blocks ↔ (w.block b).func = some f
  nodup : ∀ f, (w.func f).blocks.Nodup
  undefined : ∀ f, (w.func f).defined = false → (w.func f).blocks = []

/-- Parameters are listed in their own block, once. -/
structure ParamsPlaced (w : View) : Prop where
  block : ∀ b, ∀ p ∈ (w.block b).params, (w.param p).block = b
  made : ∀ b, ∀ p ∈ (w.block b).params, p.index < w.params
  nodup : ∀ b, (w.block b).params.Nodup

/-- Branches have the exits of their opcode, conditional ones a condition and calls a callee, and
what was erased has nothing. -/
structure Formed (w : View) : Prop where
  erased : ∀ i, (w.inst i).erased = true → (w.inst i).block = none ∧ w.reads i = [] ∧ w.exits i = []
  exits : ∀ i, (w.inst i).erased = false → (w.exits i).length = (w.inst i).op.exits
  takes : ∀ i, (w.inst i).erased = false → (w.inst i).op.Takes (w.reads i).length

def OrderMade (w : View) : Prop := ∀ f ∈ w.order, f.index < w.funcs

structure Shape (w : View) : Prop where
  insts : w.InstsPlaced
  blocks : w.BlocksPlaced
  params : w.ParamsPlaced
  formed : w.Formed
  order : w.OrderMade

variable {w w' : View}

/-! ### What each part depends on -/

theorem BlocksPlaced.setFunc (h : w.BlocksPlaced) (hfunc : w'.func = (w.setFunc f g).func)
    (hmem : ∀ b, b ∈ (g (w.func f)).blocks ↔ (w'.block b).func = some f)
    (hother : ∀ f', f' ≠ f → ∀ b, (w'.block b).func = some f' ↔ (w.block b).func = some f')
    (hnodup : (g (w.func f)).blocks.Nodup)
    (hdefined : (g (w.func f)).defined = false → (g (w.func f)).blocks = []) : w'.BlocksPlaced := by
  have hself : w'.func f = g (w.func f) := by rw [hfunc, func_setFunc, if_pos rfl]
  have hne : ∀ f', f' ≠ f → w'.func f' = w.func f' := fun f' hf => by
    rw [hfunc, func_setFunc, if_neg hf]
  refine ⟨fun f' b => ?_, fun f' => ?_, fun f' => ?_⟩ <;> by_cases hf : f' = f
  · rw [hf, hself, hmem]
  · rw [hne f' hf, h.mem_iff, hother f' hf]
  · rwa [hf, hself]
  · exact hne f' hf ▸ h.nodup f'
  · rwa [hf, hself]
  · exact hne f' hf ▸ h.undefined f'

theorem InstsPlaced.congr (h : w.InstsPlaced)
    (hinst : ∀ i, (w'.inst i).block = (w.inst i).block := by intro; rfl)
    (hblock : ∀ b, (w'.block b).insts = (w.block b).insts := by intro; rfl) : w'.InstsPlaced where
  placed i b hi := by
    rw [hblock] at hi
    rw [hinst]
    exact h.placed i b hi
  nodup b := by
    rw [hblock]
    exact h.nodup b

theorem BlocksPlaced.congr (h : w.BlocksPlaced)
    (hblock : ∀ b, (w'.block b).func = (w.block b).func := by intro; rfl)
    (hfunc : ∀ f, (w'.func f).blocks = (w.func f).blocks := by intro; rfl)
    (hdefined : ∀ f, (w'.func f).defined = false →
      (w.func f).defined = false := by exact fun _ h => h) :
    w'.BlocksPlaced where
  mem_iff f b := by
    rw [hfunc, hblock]
    exact h.mem_iff f b
  nodup f := by
    rw [hfunc]
    exact h.nodup f
  undefined f hf := by
    rw [hfunc]
    exact h.undefined f (hdefined f hf)

theorem ParamsPlaced.congr (h : w.ParamsPlaced)
    (hblock : ∀ b, (w'.block b).params = (w.block b).params := by intro; rfl)
    (hparam : ∀ p, (w'.param p).block = (w.param p).block := by intro; rfl)
    (hparams : w.params ≤ w'.params := by exact Nat.le_refl _) : w'.ParamsPlaced where
  block b p hp := by
    rw [hblock] at hp
    rw [hparam]
    exact h.block b p hp
  made b p hp := by
    rw [hblock] at hp
    exact Nat.lt_of_lt_of_le (h.made b p hp) hparams
  nodup b := by
    rw [hblock]
    exact h.nodup b

theorem Formed.congr (h : w.Formed)
    (hinst : ∀ i, (w'.inst i).op = (w.inst i).op ∧ (w'.inst i).erased = (w.inst i).erased :=
      by exact fun _ => ⟨rfl, rfl⟩)
    (hblock : ∀ i, (w.inst i).erased = true → (w'.inst i).block = (w.inst i).block :=
      by intros; rfl)
    (hreads : ∀ i, (w'.reads i).length = (w.reads i).length := by intro; rfl)
    (hexits : ∀ i, (w'.exits i).length = (w.exits i).length := by intro; rfl) : w'.Formed where
  erased i hi := by
    rw [(hinst i).2] at hi
    obtain ⟨hb, hr, he⟩ := h.erased i hi
    refine ⟨(hblock i hi).trans hb, ?_, ?_⟩
    · rw [← length_eq_zero_iff, hreads, hr, length_nil]
    · rw [← length_eq_zero_iff, hexits, he, length_nil]
  exits i hi := by
    rw [(hinst i).2] at hi
    rw [hexits, (hinst i).1]
    exact h.exits i hi
  takes i hi := by
    rw [(hinst i).2] at hi
    rw [hreads, (hinst i).1]
    exact h.takes i hi

theorem Shape.congr (h : w.Shape)
    (hinst : ∀ i, (w'.inst i).block = (w.inst i).block ∧ (w'.inst i).op = (w.inst i).op ∧
      (w'.inst i).erased = (w.inst i).erased) (hblock : w'.block = w.block)
    (hparam : ∀ p, (w'.param p).block = (w.param p).block)
    (hfunc : ∀ f, (w'.func f).blocks = (w.func f).blocks ∧ (w'.func f).defined = (w.func f).defined)
    (hparams : w.params ≤ w'.params) (hreads : ∀ i, (w'.reads i).length = (w.reads i).length)
    (hexits : ∀ i, (w'.exits i).length = (w.exits i).length)
    (horder : ∀ f ∈ w'.order, f ∈ w.order) (hfuncs : w.funcs ≤ w'.funcs) : w'.Shape where
  insts := h.insts.congr (fun i => (hinst i).1) fun _ => by rw [hblock]
  blocks := h.blocks.congr (fun _ => by rw [hblock]) (fun f => (hfunc f).1) fun f hf =>
    (hfunc f).2 ▸ hf
  params := h.params.congr (fun _ => by rw [hblock]) hparam hparams
  formed := h.formed.congr (fun i => (hinst i).2) (fun i _ => (hinst i).1) hreads hexits
  order f hf := Nat.lt_of_lt_of_le (h.order f (horder f hf)) hfuncs

/-- One instruction with what it reads and where it leads is formed. -/
structure FormedAt (x : Inst) (vs : Args) (exits : List Exit) : Prop where
  erased : x.erased = true → x.block = none ∧ vs = [] ∧ exits = []
  exits : x.erased = false → exits.length = x.op.exits
  takes : x.erased = false → x.op.Takes vs.length

theorem formed_iff : w.Formed ↔ ∀ i, FormedAt (w.inst i) (w.reads i) (w.exits i) :=
  ⟨fun h i => ⟨h.erased i, h.exits i, h.takes i⟩,
    fun h => ⟨fun i => (h i).erased, fun i => (h i).exits, fun i => (h i).takes⟩⟩

theorem Formed.clear (h : w.Formed) (is : List InstId)
    (hinst : ∀ i, w'.inst i = if i ∈ is then { w.inst i with block := none, erased := true }
      else w.inst i)
    (hreads : ∀ i, w'.reads i = if i ∈ is then [] else w.reads i)
    (hexits : ∀ i, w'.exits i = if i ∈ is then [] else w.exits i) : w'.Formed := by
  refine formed_iff.mpr fun i => ?_
  rw [hinst, hreads, hexits]
  split
  · exact ⟨fun _ => ⟨rfl, rfl, rfl⟩, nofun, nofun⟩
  · exact formed_iff.mp h i

/-! ### Values -/

theorem Shape.mapValues (h : w.Shape) (f : Option Value → Option Value) :
    (w.mapValues f).Shape where
  insts := h.insts.congr
  blocks := h.blocks.congr
  params := h.params.congr
  order := h.order
  formed := h.formed.congr (fun _ => ⟨rfl, rfl⟩) (fun _ _ => rfl) (fun _ => length_map ..) fun _ =>
    length_map ..

/-! ### Instructions -/

theorem InstsPlaced.unlink (h : w.InstsPlaced) (i : InstId) : (w.unlink i).InstsPlaced where
  placed j b hj := by
    rw [block_unlink (h.placed i)] at hj
    obtain ⟨hj, hji⟩ := mem_filter.mp hj
    show (if j = i then _ else w.inst j).block = some b
    rw [if_neg (of_decide_eq_true hji)]
    exact h.placed j b hj
  nodup b := by
    rw [block_unlink (h.placed i)]
    exact (h.nodup b).filter _

theorem mem_insertBefore {j : InstId} : j ∈ Build.insertBefore i before is ↔ j = i ∨ j ∈ is := by
  unfold Build.insertBefore
  cases before with
  | none => simp [or_comm]
  | some k =>
    have hsplit : j ∈ is ↔ j ∈ is.takeWhile (· ≠ k) ∨ j ∈ is.dropWhile (· ≠ k) := by
      rw [← mem_append, takeWhile_append_dropWhile]
    rw [mem_append, mem_cons]
    tauto

theorem nodup_insertBefore (hi : i ∉ is) (his : is.Nodup) :
    (Build.insertBefore i before is).Nodup := by
  unfold Build.insertBefore
  cases before with
  | none => exact nodup_append.mpr ⟨his, nodup_singleton i, by grind⟩
  | some k =>
    have hsplit : (is.takeWhile (· ≠ k) ++ is.dropWhile (· ≠ k)) = is :=
      takeWhile_append_dropWhile
    rw [nodup_middle, nodup_cons, hsplit]
    exact ⟨hi, his⟩

theorem block_place (w : View) (i : InstId) (b c : BlockId) (before : Option InstId) :
    (w.place i b before).block c =
      if c = b then { w.block c with insts := Build.insertBefore i before (w.block c).insts }
      else w.block c := by
  unfold place
  rw [block_setInst, block_setBlock]

theorem inst_place (w : View) (i j : InstId) (b : BlockId) (before : Option InstId) :
    (w.place i b before).inst j = if j = i then { w.inst j with block := some b, erased := false }
      else w.inst j := by
  unfold place
  rw [inst_setInst]
  rfl

theorem InstsPlaced.place (h : w.InstsPlaced) (hi : (w.inst i).block = none) (b : BlockId)
    (before : Option InstId) : (w.place i b before).InstsPlaced := by
  have hnot : ∀ c, i ∉ (w.block c).insts := fun c hc => by
    rw [h.placed i c hc] at hi
    cases hi
  have hold : ∀ j c, j ∈ (w.block c).insts → ((w.place i b before).inst j).block = some c := by
    intro j c hj
    rw [inst_place, if_neg (fun hji => hnot c (hji ▸ hj) : j ≠ i)]
    exact h.placed j c hj
  refine ⟨fun j c hj => ?_, fun c => ?_⟩
  · rw [block_place] at hj
    split at hj
    · next hc =>
      rcases mem_insertBefore.mp hj with rfl | hj
      · rw [inst_place, if_pos rfl, hc]
      · exact hold j c hj
    · exact hold j c hj
  · rw [block_place]
    split
    · exact nodup_insertBefore (hnot c) (h.nodup c)
    · exact h.nodup c

theorem Shape.unlink (h : w.Shape) (i : InstId) : (w.unlink i).Shape where
  insts := h.insts.unlink i
  blocks := h.blocks.congr fun b => by rw [block_unlink (h.insts.placed i)]
  params := h.params.congr fun b => by rw [block_unlink (h.insts.placed i)]
  order := h.order
  formed := h.formed.congr (fun _ => ⟨part_ite Inst.op, part_ite Inst.erased⟩) fun j hj =>
    part_ite Inst.block (h.formed.erased j hj).1.symm

theorem Shape.place (h : w.Shape) (hi : (w.inst i).block = none)
    (herased : (w.inst i).erased = false)
    (b : BlockId) (before : Option InstId) : (w.place i b before).Shape where
  insts := h.insts.place hi b before
  blocks := h.blocks.congr fun c => by
    rw [block_place]
    split <;> rfl
  params := h.params.congr fun c => by
    rw [block_place]
    split <;> rfl
  order := h.order
  formed := by
    refine h.formed.congr (fun j => ?_) fun j hj => ?_
    · rw [inst_place]
      split
      · next hj => exact ⟨rfl, (hj ▸ herased).symm⟩
      · exact ⟨rfl, rfl⟩
    · rw [inst_place, if_neg]
      rintro rfl
      cases hj.symm.trans herased

theorem Shape.discard (h : w.Shape) (i : InstId) : (w.discard i).Shape where
  insts := by
    refine (h.insts.unlink i).congr fun j => ?_
    rw [inst_discard]
    show _ = (if j = i then _ else w.inst j : Inst).block
    split <;> rfl
  blocks := h.blocks.congr fun b => by
    rw [block_discard (h.insts.placed i)]
  params := h.params.congr fun b => by
    rw [block_discard (h.insts.placed i)]
  order := h.order
  formed := h.formed.clear [i] (fun j => by simp only [inst_discard, mem_singleton])
    (fun j => by simp only [reads_discard, mem_singleton])
    fun j => by simp only [exits_discard, mem_singleton]

/-- What an instruction needs to be emitted: it is new, and has the exits of its opcode. -/
structure Emittable (x : Inst) (vs : Args) (exits : List Exit) : Prop where
  block : x.block = none
  erased : x.erased = false
  exits : exits.length = x.op.exits
  takes : x.op.Takes vs.length

theorem Shape.addBranch (h : w.Shape) (hnew : (w.inst w.nextInst).block = none)
    {exits : List Exit} (hx : Emittable x vs exits) : (w.addBranch x vs exits).Shape where
  insts := by
    refine h.insts.congr fun j => ?_
    show (Function.update w.inst w.nextInst x j).block = _
    rw [update_apply]
    split
    · next hj => rw [hj, hnew, hx.block]
    · rfl
  blocks := h.blocks.congr
  params := h.params.congr
  order := h.order
  formed := by
    refine formed_iff.mpr fun j => ?_
    show FormedAt (Function.update w.inst w.nextInst x j) (Function.update w.reads w.nextInst vs j)
      (Function.update w.exits w.nextInst exits j)
    rw [update_apply, update_apply, update_apply]
    split
    · exact ⟨fun he => absurd (hx.erased.symm.trans he) nofun, fun _ => hx.exits, fun _ => hx.takes⟩
    · exact formed_iff.mp h.formed j

theorem Shape.emit (h : w.Shape) (hnew : (w.inst w.nextInst).block = none)
    {exits : List Exit} (hx : Emittable x vs exits) (b : BlockId)
    (before : Option InstId) : (w.emit x vs exits b before).Shape := by
  have hinst : (w.addBranch x vs exits).inst w.nextInst = x := Function.update_self ..
  refine (h.addBranch hnew hx).place ?_ ?_ b before
  · rw [hinst]
    exact hx.block
  · rw [hinst]
    exact hx.erased

/-! ### Blocks -/

theorem mem_instsOf : i ∈ w.instsOf bs ↔ ∃ b ∈ bs, i ∈ (w.block b).insts := mem_flatMap

theorem InstsPlaced.mem_instsOf (h : w.InstsPlaced) {b : BlockId} (hi : i ∈ (w.block b).insts) :
    i ∈ w.instsOf bs ↔ b ∈ bs := by
  rw [View.mem_instsOf]
  constructor
  · rintro ⟨c, hc, hic⟩
    exact (Option.mem_unique (h.placed i b hi) (h.placed i c hic)) ▸ hc
  · exact fun hb => ⟨b, hb, hi⟩

theorem InstsPlaced.clear (h : w.InstsPlaced) (bs : List BlockId)
    (hinst : ∀ i, i ∉ w.instsOf bs → (w'.inst i).block = (w.inst i).block)
    (hblock : ∀ b, (w'.block b).insts = if b ∈ bs then [] else (w.block b).insts) :
    w'.InstsPlaced where
  placed i b hi := by
    rw [hblock] at hi
    split at hi
    · cases hi
    · next hb =>
      rw [hinst i fun hc => hb ((h.mem_instsOf hi).mp hc)]
      exact h.placed i b hi
  nodup b := by
    rw [hblock]
    split
    · exact nodup_nil
    · exact h.nodup b

theorem Shape.eraseBlocks (h : w.Shape) (bs : List BlockId) : (w.eraseBlocks bs).Shape where
  insts := h.insts.clear bs (fun _ hi => congrArg Inst.block (if_neg hi)) fun _ =>
    apply_ite Block.insts ..
  blocks := by
    have hfunc : ∀ f, ((w.eraseBlocks bs).func f).blocks =
      (w.func f).blocks.filter fun b => ¬ (b ∈ bs ∧ (w.block b).func = some f) := fun _ => rfl
    have hblock : ∀ b, ((w.eraseBlocks bs).block b).func = if b ∈ bs then none else
        (w.block b).func :=
      fun _ => apply_ite Block.func ..
    refine ⟨fun f b => ?_, fun f => ?_, fun f hf => ?_⟩
    · rw [hfunc, hblock, mem_filter, h.blocks.mem_iff]
      by_cases hb : b ∈ bs
      · simp [hb]
      · simp [hb]
    · exact (h.blocks.nodup f).filter _
    · rw [hfunc, h.blocks.undefined f hf]
      rfl
  params := h.params.congr fun _ => part_ite Block.params
  order := h.order
  formed := h.formed.clear (w.instsOf bs) (fun _ => rfl) (fun _ => rfl) fun _ => rfl

theorem BlocksPlaced.blocks_leaveFunc (h : w.BlocksPlaced) (b : BlockId) (f : FuncId) :
    ((w.leaveFunc b).func f).blocks = (w.func f).blocks.filter (· ≠ b) := by
  show (if (w.block b).func = some f then (w.func f).withBlocks _ else w.func f).blocks = _
  split
  · rfl
  · next hf =>
    refine (filter_eq_self.mpr fun c hc => decide_eq_true ?_).symm
    rintro rfl
    exact hf ((h.mem_iff f c).mp hc)

theorem BlocksPlaced.leaveFunc (h : w.BlocksPlaced) (b : BlockId) :
    (w.leaveFunc b).BlocksPlaced := by
  have hfunc := h.blocks_leaveFunc b
  have hdefined : ∀ f, ((w.leaveFunc b).func f).defined = (w.func f).defined := fun _ =>
    part_ite Func.defined
  have hblock (c) : ((w.leaveFunc b).block c).func = if c = b then none else (w.block c).func :=
    (congrArg Block.func (update_apply ..)).trans (apply_ite Block.func ..)
  refine ⟨fun f c => ?_, fun f => ?_, fun f hf => ?_⟩
  · rw [hfunc, hblock, mem_filter, h.mem_iff]
    by_cases hc : c = b <;> simp [hc]
  · rw [hfunc]
    exact (h.nodup f).filter _
  · rw [hdefined] at hf
    rw [hfunc, h.undefined f hf]
    rfl

theorem inst_append (w : View) (pred succ : BlockId) (i : InstId) : (w.append pred succ).inst i =
    if i ∈ (w.block succ).insts then { w.inst i with block := some pred } else w.inst i := rfl

theorem block_append (w : View) (pred succ c : BlockId) : (w.append pred succ).block c =
    if c = succ then { w.block c with insts := [], func := none }
    else if c = pred then { w.block c with insts := (w.block c).insts ++ (w.block succ).insts }
    else w.block c := by
  unfold View.append
  rw [block_removeBlock, block_setBlock]
  split
  · split <;> rfl
  · rfl

theorem BlocksPlaced.appended (h : w.BlocksPlaced) (pred succ : BlockId) :
    ((({ w with
        inst := fun i => if i ∈ (w.block succ).insts then { w.inst i with block := some pred }
          else w.inst i }).setBlock pred fun x =>
      { x with insts := x.insts ++ (w.block succ).insts }).setBlock succ
        ({ · with insts := [] })).BlocksPlaced := by
  refine h.congr fun c => ?_
  rw [block_setBlock, block_setBlock]
  split <;> split <;> rfl

theorem BlocksPlaced.blocks_append (h : w.BlocksPlaced) (pred succ : BlockId) (f : FuncId) :
    ((w.append pred succ).func f).blocks = (w.func f).blocks.filter (· ≠ succ) :=
  (h.appended pred succ).blocks_leaveFunc succ f

theorem Shape.append (h : w.Shape) (pred succ : BlockId) : (w.append pred succ).Shape := by
  have hinst := w.inst_append pred succ
  have hblock := w.block_append pred succ
  have hparams (c) : ((w.append pred succ).block c).params = (w.block c).params := by
    rw [hblock]
    split
    · rfl
    · split <;> rfl
  have hold : ∀ i c, c ≠ succ → i ∈ (w.block c).insts →
      ((w.append pred succ).inst i).block = some c := by
    intro i c hc hi
    rw [hinst, if_neg]
    · exact h.insts.placed i c hi
    · exact fun hs => hc (Option.mem_unique (h.insts.placed i c hi) (h.insts.placed i succ hs))
  refine ⟨⟨fun i c hi => ?_, fun c => ?_⟩, ?_, h.params.congr hparams, ?_, h.order⟩
  · rw [hblock] at hi
    split at hi
    · cases hi
    · next hc =>
      split at hi
      · next hp =>
        rcases mem_append.mp hi with hi | hi
        · exact hold i c hc hi
        · rw [hinst, if_pos hi, hp]
      · exact hold i c hc hi
  · rw [hblock]
    split
    · exact nodup_nil
    · next hc =>
      split
      · refine nodup_append.mpr ⟨h.insts.nodup c, h.insts.nodup succ, ?_⟩
        rintro i hi j hj rfl
        exact hc (Option.mem_unique (h.insts.placed i c hi) (h.insts.placed i succ hj))
      · exact h.insts.nodup c
  · exact (h.blocks.appended pred succ).leaveFunc succ
  · refine h.formed.congr (fun i => ?_) fun i hi => ?_
    · rw [hinst]
      split <;> exact ⟨rfl, rfl⟩
    · rw [hinst, if_neg]
      intro hs
      have := h.insts.placed i succ hs
      rw [(h.formed.erased i hi).1] at this
      cases this

theorem Shape.merge (h : w.Shape) (pred succ : BlockId) (t : InstId) (args : Args) :
    (w.merge pred succ t args).Shape := ((h.discard t).mapValues _).append pred succ

/-! ### Functions -/

/-- Ids that were never given out stand for nothing. -/
structure Unused (w : View) : Prop where
  inst : (w.inst w.nextInst).block = none
  insts : (w.block w.nextBlock).insts = []
  params : (w.block w.nextBlock).params = []
  block : (w.block w.nextBlock).func = none
  func : (w.func w.nextFunc).blocks = []
  defined : (w.func w.nextFunc).defined = false
  exits : w.exits w.nextInst = []
  opens : w.opens w.nextBlock = []

theorem Unused.withTypes (h : w.Unused) (types : TypeTable) : (w.withTypes types).Unused :=
  ⟨h.inst, h.insts, h.params, h.block, h.func, h.defined, h.exits, h.opens⟩

theorem ParamsPlaced.addParams (h : w.ParamsPlaced) (b : BlockId) (ps : List Member) :
    (w.addParams b ps).ParamsPlaced := by
  have hblock : ∀ c, ((w.addParams b ps).block c).params =
      if c = b then (w.block c).params ++ w.newParams ps.length else (w.block c).params :=
    fun _ => apply_ite Block.params ..
  have hold : ∀ p : ParamId, p.index < w.params → (w.addParams b ps).param p = w.param p := by
    intro p hp
    simp only [View.addParams, newParam?, if_neg (show ¬ w.params ≤ p.index by omega)]
  have hnew : ∀ p ∈ w.newParams ps.length, ((w.addParams b ps).param p).block = b := by
    intro p hp
    obtain ⟨hle, hlt⟩ := mem_newParams.mp hp
    simp only [View.addParams, newParam?, if_pos hle,
      List.getElem?_eq_getElem (show p.index - w.params < ps.length by omega)]
  have hparams : (w.addParams b ps).params = w.params + ps.length := rfl
  refine ⟨fun c p hp => ?_, fun c p hp => ?_, fun c => ?_⟩
  · rw [hblock] at hp
    split at hp
    · next hc =>
      rcases mem_append.mp hp with hp | hp
      · rw [hold p (h.made c p hp)]
        exact h.block c p hp
      · rw [hnew p hp, hc]
    · rw [hold p (h.made c p hp)]
      exact h.block c p hp
  · rw [hblock] at hp
    split at hp
    · rcases mem_append.mp hp with hp | hp
      · exact Nat.lt_add_right _ (h.made c p hp)
      · exact (mem_newParams.mp hp).2
    · exact Nat.lt_add_right _ (h.made c p hp)
  · rw [hblock]
    split
    · refine nodup_append.mpr ⟨h.nodup c, ?_, ?_⟩
      · refine List.Nodup.map (fun m n hmn => ?_) nodup_range'
        exact congrArg Id.index hmn
      · rintro p hp q hq rfl
        have := h.made c p hp
        have := (mem_newParams.mp hq).1
        omega
    · exact h.nodup c

/-- A function gains a new block. The list of its blocks after that is `bs`. -/
theorem Shape.addBlock (h : w.Shape) (hu : w.Unused) (name : Text) (f : FuncId) (ps : List Member)
    (hg : (g (w.func f)).blocks = (w.func f).blocks ++ [w.nextBlock])
    (hdefined : (g (w.func f)).defined = true) :
    (((w.addBlock { name, func := some f }).addParams w.nextBlock ps).setFunc f g).Shape := by
  have hblock : ∀ c, (w.addBlock { name, func := some f }).block c =
    if c = w.nextBlock then { name, func := some f } else w.block c := fun c => update_apply ..
  have hblock' : ∀ c, (((w.addBlock { name, func := some f }).addParams w.nextBlock ps).setFunc
    f g).block c =
    if c = w.nextBlock then { (w.addBlock { name, func := some f }).block c with
      params := ((w.addBlock { name, func := some f }).block c).params ++ w.newParams ps.length }
    else (w.addBlock { name, func := some f }).block c := fun _ => rfl
  have hinsts : ∀ c,
    ((((w.addBlock { name, func := some f }).addParams w.nextBlock ps).setFunc f g).block
      c).insts = (w.block c).insts := by
    intro c
    rw [hblock', hblock]
    split
    · next hc => rw [hc, hu.insts]
    · rfl
  have hfunc : ∀ c,
    ((((w.addBlock { name, func := some f }).addParams w.nextBlock ps).setFunc f g).block
      c).func = if c = w.nextBlock then some f else (w.block c).func := by
    intro c
    rw [hblock', hblock]
    split <;> rfl
  have hnot : ∀ f', w.nextBlock ∉ (w.func f').blocks := fun f' hc => by
    rw [h.blocks.mem_iff, hu.block] at hc
    cases hc
  refine ⟨h.insts.congr (fun _ => rfl) hinsts,
    h.blocks.setFunc rfl (fun c => ?_) (fun f' hf c => ?_) ?_
    fun hc => absurd (hdefined.symm.trans hc) (by simp), ?_, h.formed.congr, h.order⟩
  · rw [hfunc, hg, mem_append, h.blocks.mem_iff]
    by_cases hc : c = w.nextBlock <;> simp [hc]
  · rw [hfunc]
    split
    · next hc =>
      rw [← h.blocks.mem_iff, hc]
      exact ⟨fun he => absurd (Option.some.inj he).symm hf, fun hn => absurd hn (hnot f')⟩
    · rfl
  · rw [hg]
    refine nodup_append.mpr ⟨h.blocks.nodup f, nodup_singleton _, ?_⟩
    rintro c hc d hd rfl
    exact hnot f (mem_singleton.mp hd ▸ hc)
  · have hparams : (w.addBlock { name, func := some f }).ParamsPlaced := by
      refine h.params.congr fun c => ?_
      rw [hblock]
      split
      · next hc => rw [hc, hu.params]
      · rfl
    exact (hparams.addParams w.nextBlock ps).congr

theorem Shape.define (h : w.Shape) (hu : w.Unused) (hf : (w.func f).defined = false)
    (ps : List Member) : (w.define f ps).Shape := by
  have hshape := h.addBlock hu "entry" f ps
    (g := ({ · with blocks := [w.nextBlock], defined := true }))
    (by rw [h.blocks.undefined f hf]; rfl) rfl
  exact hshape.congr (fun _ => ⟨rfl, rfl, rfl⟩) rfl (fun _ => rfl) (fun _ => ⟨rfl, rfl⟩) .refl
    (fun _ => rfl) (fun _ => rfl) (fun _ hf => hf) .refl

theorem Shape.addFunc (h : w.Shape) (hu : w.Unused) {x : Func} (hx : x.blocks = []) :
    (w.addFunc x).Shape := by
  have hfunc (f) : (w.addFunc x).func f = if f = w.nextFunc then x else w.func f :=
    update_apply ..
  refine ⟨h.insts.congr, h.blocks.congr (fun _ => rfl) (fun f => ?_) fun f => ?_, h.params.congr,
    h.formed.congr, ?_⟩
  · rw [hfunc]
    split
    · next hf => rw [hx, hf, hu.func]
    · rfl
  · rw [hfunc]
    split
    · next hf => exact fun _ => hf ▸ hu.defined
    · exact fun hf => hf
  · intro f hf
    rcases mem_append.mp hf with hf | hf
    · exact Nat.lt_succ_of_lt (h.order f hf)
    · rw [mem_singleton.mp hf]
      exact Nat.lt_succ_self _

theorem Shape.clearBlocks (h : w.Shape) (bs : List BlockId) : (w.clearBlocks bs).Shape where
  insts := h.insts.clear bs (fun _ hi => congrArg Inst.block (if_neg hi)) fun _ =>
    apply_ite Block.insts ..
  blocks := h.blocks.congr fun _ => part_ite Block.func
  params := h.params.congr fun _ => part_ite Block.params
  order := h.order
  formed := h.formed.clear (w.instsOf bs) (fun _ => rfl) (fun _ => rfl) fun _ => rfl

theorem Loosens.has (hl : w.Loosens w' bs) {v : Value} (hv : w.Has v) : w'.Has v := by
  rw [← hl.rest] at hv
  cases v <;> exact hv

theorem Loosens.shape (hl : w.Loosens w' bs) (h : w.Shape) : w'.Shape := by
  rw [← hl.rest] at h
  refine h.congr (fun _ => ⟨rfl, rfl, rfl⟩) rfl (fun _ => rfl) (fun _ => ⟨rfl, rfl⟩) .refl hl.reads
    (fun i => ?_) (fun _ hf => hf) .refl
  have := congrArg List.length (hl.targets i)
  rwa [length_map, length_map] at this

theorem Shape.orphan (h : w.Shape) (f : FuncId) (hg : (g (w.func f)).blocks = []) :
    ((w.orphan (w.func f).blocks).setFunc f g).Shape := by
  have hblock : ∀ b, (w.orphan (w.func f).blocks).block b =
    if b ∈ (w.func f).blocks then { w.block b with func := none } else w.block b := fun _ => rfl
  refine ⟨h.insts.congr (fun _ => rfl) fun _ => part_ite Block.insts,
    h.blocks.setFunc rfl (fun b => ?_)
    (fun f' hf b => ?_) (by rw [hg]; exact nodup_nil) fun _ => hg, h.params.congr fun _ =>
      part_ite Block.params,
    h.formed.congr, h.order⟩
  · rw [block_setFunc, hblock, hg]
    split
    · simp
    · next hb =>
      rw [h.blocks.mem_iff] at hb
      simp [hb]
  · rw [block_setFunc, hblock]
    split
    · next hb =>
      rw [h.blocks.mem_iff] at hb
      rw [hb]
      exact ⟨fun he => absurd he (by simp), fun he => absurd (Option.some.inj he).symm hf⟩
    · rfl

theorem Shape.permute (h : w.Shape) (f : FuncId) (hg : (g (w.func f)).blocks.Perm (w.func f).blocks)
    (hdefined : (g (w.func f)).defined = (w.func f).defined) : (w.setFunc f g).Shape := by
  refine ⟨h.insts.congr, h.blocks.setFunc rfl (fun b => hg.mem_iff.trans (h.blocks.mem_iff f b))
    (fun _ _ _ => Iff.rfl) (hg.nodup_iff.mpr (h.blocks.nodup f)) fun hf => ?_, h.params.congr,
      h.formed.congr, h.order⟩
  rw [hdefined] at hf
  rw [h.blocks.undefined f hf] at hg
  exact hg.eq_nil

end View

theorem Module.unused (m : Module) : m.view.Unused := by
  have hinst : m.insts.get m.insts.next = default := Pool.get_next _
  have hblock : m.blocks.get m.blocks.next = default := Pool.get_next _
  have hfunc : m.funcs.get m.funcs.next = default := Pool.get_next _
  refine ⟨?_, ?_, ?_, ?_, ?_, ?_, ?_, ?_⟩
  · exact congrArg Inst.block hinst
  · exact congrArg Block.insts hblock
  · exact congrArg Block.params hblock
  · exact congrArg Block.func hblock
  · exact congrArg Func.blocks hfunc
  · exact congrArg Func.defined hfunc
  · exact map_eq_nil_iff.mpr (congrArg Inst.targets hinst)
  · refine map_eq_nil_iff.mpr ?_
    have hedges : (m.blocks.get m.blocks.next).edges = [] := congrArg Block.edges hblock
    exact filter_eq_nil_iff.mpr fun e he => absurd (hedges ▸ he) not_mem_nil

end Midlevel.Ir
