import Midlevel.Proofs.Ir.Built

/-!
Edges and use lists in every module that was built. `Linked` says that the two ends of an edge
know each other where they do; `View.Applied` adds what is passed along, that a function is
entered from nowhere at its entry alone, and that blocks know the branches that lead to them.
Every change keeps it.

The main statements are `use_lists_exact`, about the operands that a value is registered with, and
`applications_paired`, about the edges of blocks and branches.
-/

namespace Midlevel.Ir

open Build Midlevel.Ir.Module List
open Function (update update_apply update_of_ne)

open Pass (Exit)

variable {i : InstId} {bs : List BlockId} {b : BlockId} {e : EdgeId} {m : Module}

namespace View

variable {w w' : View}
variable {f : FuncId}

/-- All the blocks that the branch leads to are in functions. -/
def Standing (w : View) (i : InstId) : Prop :=
  ∀ x ∈ w.exits i, ∀ b, x.target = some b → (w.block b).func ≠ none

structure Applied (w : View) : Prop where
  made : ∀ i, ∀ x ∈ w.exits i, ∀ b, x.target = some b → b.index < w.blocks
  exits : ∀ i, ∀ x ∈ w.exits i, ∀ b, x.target = some b → (w.block b).func ≠ none →
    x.args.length = (w.block b).params.length
  opens : ∀ b, ∀ args ∈ w.opens b, args.length = (w.block b).params.length
  entry : ∀ b, w.opens b ≠ [] → ∃ f, (w.func f).blocks.head? = some b
  single : ∀ b, (w.opens b).length ≤ 1
  entered : ∀ i, w.Standing i → w.entered i

/-! ### Changes that add no edge -/

theorem Applied.of_fewer (h : w.Applied) (hblocks : w'.blocks = w.blocks)
    (hparams : ∀ b, (w'.block b).params = (w.block b).params)
    (hfunc : ∀ b, (w'.block b).func ≠ none → (w.block b).func ≠ none)
    (hexits : ∀ i, ∀ x ∈ w'.exits i, ∃ y ∈ w.exits i, y.target = x.target ∧
      ∀ b, x.target = some b → (w'.block b).func ≠ none → y.args.length = x.args.length)
    (hopens : ∀ b, w'.opens b = [] ∨ (w'.opens b).map length = (w.opens b).map length)
    (hhead : ∀ f b, w'.opens b ≠ [] → (w.func f).blocks.head? = some b →
      (w'.func f).blocks.head? = some b)
    (hentered : ∀ i, w'.Standing i → (w.Standing i → w.entered i) → w'.entered i) : w'.Applied where
  made i x hx b hb := by
    obtain ⟨y, hy, htarget, -⟩ := hexits i x hx
    exact hblocks ▸ h.made i y hy b (htarget.trans hb)
  exits i x hx b hb hf := by
    obtain ⟨y, hy, htarget, hlength⟩ := hexits i x hx
    rw [hparams, ← hlength b hb hf]
    exact h.exits i y hy b (htarget.trans hb) (hfunc b hf)
  opens b args hargs := by
    have hsame := (hopens b).resolve_left (ne_nil_of_mem hargs)
    obtain ⟨args', hargs', hlength⟩ := mem_map.mp (hsame ▸ mem_map_of_mem hargs)
    rw [hparams, ← h.opens b args' hargs', hlength]
  entry b hb := by
    have hsame := (hopens b).resolve_left hb
    obtain ⟨f, hf⟩ := h.entry b fun hnil => hb (by simpa [hnil] using hsame)
    exact ⟨f, hhead f b hb hf⟩
  single b := by
    rcases hopens b with hnil | hsame
    · simp [hnil]
    · have hlength := congrArg length hsame
      rw [length_map, length_map] at hlength
      exact hlength ▸ h.single b
  entered i hi := hentered i hi (h.entered i)

theorem Alike.exit (h : w.Alike w') {x : Exit} (hx : x ∈ w'.exits i) :
    ∃ y ∈ w.exits i, lead y = lead x :=
  mem_map.mp (h.exits i ▸ mem_map_of_mem hx)

theorem Alike.applied (h : w.Alike w') (ha : w.Applied) : w'.Applied := by
  refine ha.of_fewer h.blocks (fun b => by rw [h.block]) (fun b => by rw [h.block]; exact id)
    (fun i x hx => ?_) (fun b => .inr (h.opens b)) (fun f b _ hf => by rw [(h.func f).1, hf])
      fun i hi he => ?_
  · obtain ⟨y, hy, hlead⟩ := h.exit hx
    exact ⟨y, hy, congrArg Prod.fst hlead, fun _ _ _ => congrArg Prod.snd hlead⟩
  rw [h.entered]
  refine he fun y hy b hb => ?_
  obtain ⟨x, hx, hlead⟩ :=
    mem_map.mp (h.exits i ▸ mem_map_of_mem hy : lead y ∈ (w'.exits i).map lead)
  rw [← h.block]
  exact hi x hx b ((congrArg Prod.fst hlead).trans hb)

theorem Applied.of_cleared (h : w.Applied) (hblocks : w'.blocks = w.blocks)
    (hparams : ∀ b, (w'.block b).params = (w.block b).params)
    (hfunc : ∀ b, (w'.block b).func ≠ none → (w.block b).func ≠ none)
    (hexits : ∀ i, (w'.exits i = [] ∧ w'.entered i) ∨
      (w'.exits i = w.exits i ∧ (w.entered i → w'.entered i)))
    (hopens : w'.opens = w.opens)
    (hhead : ∀ f b, (w.func f).blocks.head? = some b → (w'.func f).blocks.head? = some b) :
    w'.Applied := by
  refine h.of_fewer hblocks hparams hfunc (fun i x hx => ?_) (fun b => .inr (by rw [hopens]))
    (fun f b _ => hhead f b) fun i hi he => ?_
  · rcases hexits i with ⟨hnil, -⟩ | ⟨hsame, -⟩
    · exact absurd (hnil ▸ hx) not_mem_nil
    · exact ⟨x, hsame ▸ hx, rfl, fun _ _ _ => rfl⟩
  · rcases hexits i with ⟨-, hentered⟩ | ⟨hsame, hentered⟩
    · exact hentered
    · exact hentered (he fun x hx b hb => hfunc b (hi x (hsame ▸ hx) b hb))

theorem Applied.unlink (h : w.Applied) (hs : w.Shape) (i : InstId) : (w.unlink i).Applied := by
  have hblock := block_unlink (hs.insts.placed i)
  exact h.of_cleared rfl (fun b => by rw [hblock]) (fun b => by rw [hblock]; exact id)
    (fun _ => .inr ⟨rfl, id⟩) rfl fun _ _ hf => hf

theorem Applied.discard (h : w.Applied) (hs : w.Shape) (i : InstId) : (w.discard i).Applied := by
  have hblock := block_discard (hs.insts.placed i)
  refine h.of_cleared rfl (fun b => by rw [hblock]) (fun b => by rw [hblock]; exact id)
    (fun j => ?_) rfl
    fun _ _ hf => hf
  have hentered : (w.discard i).entered j = update w.entered i True j := rfl
  rw [exits_discard, hentered, update_apply]
  split
  · exact .inl ⟨rfl, trivial⟩
  · exact .inr ⟨rfl, id⟩

theorem Applied.place (h : w.Applied) (i : InstId) (b : BlockId) (before : Option InstId) :
    (w.place i b before).Applied := by
  have hblock (c) : ((w.place i b before).block c).params = (w.block c).params ∧
      ((w.place i b before).block c).func = (w.block c).func := by
    rw [block_place]
    split <;> exact ⟨rfl, rfl⟩
  exact h.of_cleared rfl (fun c => (hblock c).1) (fun c => by rw [(hblock c).2]; exact id)
    (fun _ => .inr ⟨rfl, id⟩) rfl fun _ _ hf => hf

theorem head?_filter_of_head? {p : BlockId → Bool} (hb : bs.head? = some b)
    (hp : p b = true) : (bs.filter p).head? = some b := by
  obtain ⟨rest, rfl⟩ := head?_eq_some_iff.mp hb
  rw [filter_cons_of_pos hp, head?_cons]

namespace Applied

variable (h : w.Applied)
include h

theorem eraseBlocks (hbs : ∀ b ∈ bs, ∀ f, (w.func f).blocks.head? ≠ some b) :
    (w.eraseBlocks bs).Applied := by
  have hblock : ∀ b, (w.eraseBlocks bs).block b =
    if b ∈ bs then { w.block b with insts := [], func := none } else w.block b := fun _ => rfl
  refine h.of_cleared rfl (fun b => ?_) (fun b => ?_) (fun i => ?_) rfl fun f b hf => ?_
  · rw [hblock]
    split <;> rfl
  · rw [hblock]
    split
    · exact fun hn => absurd rfl hn
    · exact id
  · show ((if i ∈ w.instsOf bs then [] else w.exits i) = [] ∧ (i ∈ w.instsOf bs ∨ w.entered i)) ∨
      (if i ∈ w.instsOf bs then [] else w.exits i) = w.exits i ∧
        (w.entered i → i ∈ w.instsOf bs ∨ w.entered i)
    split
    · next hi => exact .inl ⟨rfl, .inl hi⟩
    · exact .inr ⟨rfl, .inr⟩
  · refine head?_filter_of_head? hf (decide_eq_true fun hb => hbs b hb.1 f hf)

theorem append (hs : w.Shape) (pred : BlockId) {succ : BlockId}
    (hsucc : ∀ f, (w.func f).blocks.head? ≠ some succ) : (w.append pred succ).Applied := by
  have hblock := w.block_append pred succ
  refine h.of_cleared rfl (fun b => ?_) (fun b => ?_) (fun _ => .inr ⟨rfl, id⟩) rfl fun f b hf => ?_
  · rw [hblock]
    split
    · rfl
    · split <;> rfl
  · rw [hblock]
    split
    · exact fun hn => absurd rfl hn
    · split <;> exact id
  · rw [hs.blocks.blocks_append]
    exact head?_filter_of_head? hf (decide_eq_true fun hb => hsucc f (hb ▸ hf))

theorem setFunc {g : Func → Func}
    (hg : ∀ b, (w.func f).blocks.head? = some b → (g (w.func f)).blocks.head? = some b) :
    (w.setFunc f g).Applied := by
  refine h.of_cleared rfl (fun _ => rfl) (fun _ => id) (fun _ => .inr ⟨rfl, id⟩) rfl
    fun f' b hf => ?_
  rw [func_setFunc]
  split
  · next hff => exact hff ▸ hg b (hff ▸ hf)
  · exact hf

theorem addFunc (hu : w.Unused) (x : Func) : (w.addFunc x).Applied := by
  refine h.of_cleared rfl (fun _ => rfl) (fun _ => id) (fun _ => .inr ⟨rfl, id⟩) rfl
    fun f b hf => ?_
  show (update w.func w.nextFunc x f).blocks.head? = some b
  rw [update_apply]
  split
  · next he =>
    rw [he, hu.func] at hf
    cases hf
  · exact hf

theorem removeFunc {v : View}
    (hloose : (w.clearBlocks (w.func f).blocks).Loosens v (w.func f).blocks)
    (hshut : ∀ b ∈ (w.func f).blocks, v.opens b = []) :
    Applied
    { ((v.orphan (w.func f).blocks).setFunc f ({ · with blocks := [], removed := true })) with
      order := v.order.filter (· ≠ f) } := by
  generalize hbs : (w.func f).blocks = bs at hloose hshut
  generalize hw' : ({ ((v.orphan bs).setFunc f ({ · with blocks := [], removed := true })) with
      order := v.order.filter (· ≠ f) } : View) = w'
  have hvblock : v.block = (w.clearBlocks bs).block := (congrArg View.block hloose.rest :)
  have hvblocks : v.blocks = w.blocks := (congrArg View.blocks hloose.rest :)
  have hvfunc : v.func = w.func := (congrArg View.func hloose.rest :)
  have hblock (b) : (w'.block b).params = (w.block b).params ∧
      ((w'.block b).func ≠ none → b ∉ bs ∧ (w.block b).func ≠ none) := by
    have hclear : (w.clearBlocks bs).block b = if b ∈ bs then { w.block b with insts := [] }
      else w.block b := rfl
    subst hw'
    show (if b ∈ bs then { v.block b with func := none } else v.block b : Block).params = _ ∧
      ((if b ∈ bs then { v.block b with func := none } else v.block b : Block).func ≠ none → _)
    rw [hvblock, hclear]
    split
    · exact ⟨rfl, fun hn => absurd rfl hn⟩
    · next hb => exact ⟨rfl, fun hn => ⟨hb, hn⟩⟩
  have hexits : w'.exits = v.exits := by subst hw'; rfl
  have hopens : w'.opens = v.opens := by subst hw'; rfl
  have hclear : ∀ i, ∀ x ∈ (w.clearBlocks bs).exits i, i ∉ w.instsOf bs ∧ x ∈ w.exits i := by
    intro i x hx
    have hx' : x ∈ if i ∈ w.instsOf bs then [] else w.exits i := hx
    split at hx'
    · cases hx'
    · next hi => exact ⟨hi, hx'⟩
  refine h.of_fewer ?_ (fun b => (hblock b).1) (fun b hb => ((hblock b).2 hb).2)
    (fun i x hx => ?_) (fun b => ?_)
    (fun f' b hb hf' => ?_) fun i hi _ => ?_
  · subst hw'
    exact hvblocks
  · rw [hexits] at hx
    by_cases hin : ∃ b ∈ bs, x.target = some b
    · have htarget : x.target ∈ ((w.clearBlocks bs).exits i).map Exit.target :=
        hloose.targets i ▸ mem_map_of_mem hx
      obtain ⟨y, hy, hyx⟩ := mem_map.mp htarget
      obtain ⟨c, hc, hcx⟩ := hin
      exact ⟨y, (hclear i y hy).2, hyx,
        fun b hb hf => absurd (Option.mem_unique hcx hb ▸ hc) ((hblock b).2 hf).1⟩
    · obtain ⟨y, hy, htarget, hlength⟩ := hloose.others i x hx fun b hb htarget =>
        hin ⟨b, hb, htarget⟩
      exact ⟨y, (hclear i y hy).2, htarget, fun _ _ _ => hlength⟩
  · rw [hopens]
    by_cases hb : b ∈ bs
    · exact .inl (hshut b hb)
    · exact .inr (congrArg (map length) (hloose.opens b hb))
  · -- a block that something enters from nowhere is not one of those
    have hne : f' ≠ f := by
      rintro rfl
      exact hb (hopens ▸ hshut b (hbs ▸ mem_of_mem_head? hf'))
    subst hw'
    show (update v.func f _ f').blocks.head? = some b
    rw [update_of_ne hne, hvfunc]
    exact hf'
  · have houtside : ∀ x ∈ (w.clearBlocks bs).exits i, ∀ b ∈ bs, x.target ≠ some b := by
      intro x hx b hb htarget
      have hmem : some b ∈ (w'.exits i).map Exit.target := by
        rw [hexits, hloose.targets i]
        exact htarget ▸ mem_map_of_mem hx
      obtain ⟨y, hy, hyb⟩ := mem_map.mp hmem
      exact ((hblock b).2 (hi y hy b hyb)).1 hb
    obtain ⟨-, hsame, hentered⟩ := hloose.same i houtside
    have hwentered : w'.entered i = (i ∈ w.instsOf bs ∨ w.entered i) := by
      subst hw'
      exact hentered
    rw [hwentered]
    by_cases hmem : i ∈ w.instsOf bs
    · exact .inl hmem
    · refine .inr (h.entered i fun x hx b hb => ?_)
      have hx' : x ∈ w'.exits i := by
        rw [hexits, hsame]
        show x ∈ if i ∈ w.instsOf bs then [] else w.exits i
        rwa [if_neg hmem]
      exact ((hblock b).2 (hi x hx' b hb)).2

end Applied

/-! ### New edges -/

theorem Applied.addBranch (h : w.Applied) (hu : w.Unused) (x : Inst) (vs : Args)
    {exits : List Exit} (hexits : ∀ y ∈ exits, ∀ t, y.target = some t →
      t.index < w.blocks ∧ y.args.length = (w.block t).params.length) :
      (w.addBranch x vs exits).Applied := by
  have hexit : ∀ i, ∀ y ∈ (w.addBranch x vs exits).exits i, y ∈ exits ∨ y ∈ w.exits i := by
    intro i y hy
    have hy' : y ∈ update w.exits w.nextInst exits i := hy
    rw [update_apply] at hy'
    split at hy'
    · exact .inl hy'
    · exact .inr hy'
  refine ⟨fun i y hy b hb => ?_, fun i y hy b hb hf => ?_, h.opens, h.entry, h.single,
    fun i hi => ?_⟩
  · rcases hexit i y hy with hy | hy
    · exact (hexits y hy b hb).1
    · exact h.made i y hy b hb
  · rcases hexit i y hy with hy | hy
    · exact (hexits y hy b hb).2
    · exact h.exits i y hy b hb hf
  · refine h.entered i fun y hy b hb => ?_
    by_cases hnew : i = w.nextInst
    · rw [hnew, hu.exits] at hy
      cases hy
    · refine hi y ?_ b hb
      show y ∈ update w.exits w.nextInst exits i
      rwa [update_of_ne hnew]

theorem Applied.addBlock (h : w.Applied) (hu : w.Unused) (x : Block) (ps : List Member) :
    ((w.addBlock x).addParams w.nextBlock ps).Applied := by
  have hblock := fun b => w.block_addBlock_of_ne x ps (b := b)
  have hold : ∀ i, ∀ y ∈ w.exits i, ∀ b, y.target = some b → b ≠ w.nextBlock :=
      fun i y hy b hb he =>
    Nat.lt_irrefl _ (he ▸ h.made i y hy b hb : w.nextBlock.index < w.blocks)
  refine ⟨fun i y hy b hb => Nat.lt_succ_of_lt (h.made i y hy b hb), fun i y hy b hb hf => ?_,
    fun b args hargs => ?_, h.entry, h.single, fun i hi => h.entered i fun y hy b hb => ?_⟩
  · rw [hblock b (hold i y hy b hb)] at hf ⊢
    exact h.exits i y hy b hb hf
  · have hne : b ≠ w.nextBlock := by
      rintro rfl
      have hargs' : args ∈ w.opens w.nextBlock := hargs
      rw [hu.opens] at hargs'
      cases hargs'
    rw [hblock b hne]
    exact h.opens b args hargs
  · rw [← hblock b (hold i y hy b hb)]
    exact hi y hy b hb

theorem Applied.define (h : w.Applied) (hs : w.Shape) (hu : w.Unused)
    (hf : (w.func f).defined = false)
    (ps : List Member) : (w.define f ps).Applied := by
  have hnew := h.addBlock hu { name := "entry", func := some f } ps
  have hopens (b) : (w.define f ps).opens b = if b = w.nextBlock then
      [(((w.define f ps).block b).params.map fun p => some (.param p))] else w.opens b := by
    show update w.opens w.nextBlock (w.opens w.nextBlock ++ [_]) b = _
    rw [update_apply, hu.opens]
    split
    · next hb => rw [hb]; rfl
    · rfl
  refine ⟨hnew.made, hnew.exits, fun b args hargs => ?_, fun b hb => ?_, fun b => ?_, hnew.entered⟩
  · rw [hopens] at hargs
    split at hargs
    · rw [mem_singleton.mp hargs, length_map]
    · exact hnew.opens b args hargs
  · rw [hopens] at hb
    split at hb
    · next he =>
      refine ⟨f, ?_⟩
      show (update w.func f _ f).blocks.head? = some b
      rw [Function.update_self, he]
      rfl
    · obtain ⟨f', hf'⟩ := h.entry b hb
      have hne : f' ≠ f := by
        rintro rfl
        rw [hs.blocks.undefined f' hf] at hf'
        cases hf'
      refine ⟨f', ?_⟩
      show (update w.func f _ f').blocks.head? = some b
      rw [update_of_ne hne]
      exact hf'
  · rw [hopens]
    split
    · exact Nat.le_refl _
    · exact h.single b

/-! ### All changes -/

theorem Growth.applied (hs : w.Shape) (h : w.Growth w') (ha : w.Applied) : w'.Applied := by
  cases h with
  | alike h => exact h.applied ha
  | @emit _ _ _ hu _ hexits b before _ => exact (ha.addBranch hu _ _ hexits).place _ b before
  | @place _ _ _ b before _ => exact ha.place _ b before
  | addBlock hu name hf ps =>
    refine (ha.addBlock hu _ ps).setFunc fun b hb => ?_
    rw [head?_append, hb]
    rfl
  | permute _ hhead _ => exact ha.setFunc fun _ hb => hhead.trans hb
  | addFunc hu _ => exact ha.addFunc hu _
  | define hu hf ps => exact ha.define hs hu hf ps

theorem Change.applied (hs : w.Shape) (h : w.Change w') (ha : w.Applied) : w'.Applied := by
  cases h with
  | growth h => exact h.applied hs ha
  | discard i => exact ha.discard hs i
  | unlink i => exact ha.unlink hs i
  | eraseBlocks hbs => exact ha.eraseBlocks hbs
  | @merge pred _ t _ _ _ _ hsucc =>
    exact ((Alike.mapValues _ _).applied (ha.discard hs t)).append
      ((hs.discard t).mapValues _) pred hsucc
  | removeFunc hloose hshut => exact ha.removeFunc hloose hshut

end View

/-! ### Modules that were built -/

theorem applied_new (name : Text) : (Module.view { name }).Applied where
  made _ _ hx := absurd hx not_mem_nil
  exits _ _ hx := absurd hx not_mem_nil
  opens _ _ hargs := absurd hargs not_mem_nil
  entry _ hb := absurd rfl hb
  single _ := Nat.zero_le _
  entered _ _ _ he := absurd he not_mem_nil

theorem Built.applied {s : Builder} (h : Built s) : s.view.Applied :=
  h.induct applied_new View.Change.applied

namespace Module

/-- An edge without a source, into the entry of a function. -/
structure EntersFunction (m : Module) (e : EdgeId) (f : FuncId) (b : BlockId) : Prop where
  entry : (m.funcs.get f).blocks.head? = some b
  mem : e ∈ (m.blocks.get b).edges
  source : (m.edges.get e).source = none
  pred : (m.edges.get e).pred = none

theorem mem_openEdges : e ∈ m.openEdges b ↔ e ∈ (m.blocks.get b).edges ∧
    (m.edges.get e).source = none := by
  rw [openEdges, mem_filter, Option.isNone_iff_eq_none]

theorem Linked.entersFunction (h : m.Linked) (ha : m.view.Applied)
    (he : e ∈ (m.blocks.get b).edges) (hsource : (m.edges.get e).source = none) :
    ∃ f, m.EntersFunction e f b := by
  have hopen : m.view.opens b ≠ [] := fun hnil =>
    ne_nil_of_mem (mem_openEdges.mpr ⟨he, hsource⟩) (map_eq_nil_iff.mp hnil)
  obtain ⟨f, hf⟩ := ha.entry b hopen
  exact ⟨f, hf, he, hsource, h.predIsNone e hsource⟩

theorem Linked.reader (h : m.Linked) (hs : m.view.Shape) (ha : m.view.Applied)
    {o : OperandId} {v : Value}
    (ho : m.operandValue o = some v) : (∃ i, (m.insts.get i).erased = false ∧ o ∈ m.allOperands i) ∨
      ∃ e f b, m.EntersFunction e f b ∧ o ∈ (m.edges.get e).args := by
  obtain ⟨howned, hopen⟩ := h.owned o v ho
  cases huser : (m.operands.get o).user with
  | some i =>
    refine .inl ⟨i, ?_, howned i huser⟩
    by_contra herased
    rw [Bool.not_eq_false] at herased
    obtain ⟨-, hreads, hexits⟩ := hs.formed.erased i herased
    rcases mem_allOperands.mp (howned i huser) with hmem | ⟨e, he, -⟩
    · exact absurd (map_eq_nil_iff.mp hreads ▸ hmem) not_mem_nil
    · exact absurd (map_eq_nil_iff.mp hexits ▸ he) not_mem_nil
  | none =>
    obtain ⟨e, hsource, hmem⟩ := hopen huser
    obtain ⟨b, hb⟩ := h.enters e (ne_nil_of_mem hmem)
    obtain ⟨f, hf⟩ := h.entersFunction ha hb hsource
    exact .inr ⟨e, f, b, hf, hmem⟩

end Module

/-- Operands are where their values have them registered, every value is registered with exactly the
operands that read it, once each, and no operation finds it otherwise. -/
theorem use_lists_exact {s : Builder} (h : Built s) : (∀ v k o, (s.module.uses v)[k]? = some o →
      s.module.operandValue o = some v ∧ (s.module.operands.get o).index = some k) ∧
    (∀ v, (s.module.uses v).Nodup ∧ ∀ o, o ∈ s.module.uses v ↔ s.module.operandValue o = some v ∧
      ((∃ i, (s.module.insts.get i).erased = false ∧ o ∈ s.module.allOperands i) ∨
        ∃ e f b, s.module.EntersFunction e f b ∧ o ∈ (s.module.edges.get e).args)) ∧
    ∀ {α : Type} (x : Build α), Operation s.module x → ∀ t, x.run.run s ≠
    (.error (.crash .corruptUses), t) := by
  have hsound := h.sound
  have hwired := hsound.linked.wired
  refine ⟨fun v k o hk => ((hwired.registered v o k).mp hk).2,
    fun v => ⟨hwired.nodup_uses v, fun o => ?_⟩,
    fun x hx t ht => ?_⟩
  · rw [hwired.mem_uses]
    exact ⟨fun ho => ⟨ho, hsound.linked.reader hsound.shape h.applied ho⟩, And.left⟩
  · exact ((wp_iff_of_error ht).mp (hx.keeps hsound)).uncorrupted rfl

/-- When all uses of `v` are pointed at `w`, nothing reads `v` any more and its uses stand behind
those of `w`, in their order. Every operand knows its place, and no other operand, use list or part
of the module has changed. -/
theorem all_uses_move {s : Builder} {v w : Value} (h : s.module.Wired) (hw : s.module.HasValue w)
    (hvw : v ≠ w) :
    ∃ m', (replaceAllUses (some v) (some w)).run.run s = (.ok (), { s with module := m' }) ∧
      m'.uses v = [] ∧ m'.uses w = s.module.uses w ++ s.module.uses v ∧
      (∀ u k o, (m'.uses u)[k]? = some o → (m'.operands.get o).index = some k) ∧
      (∀ o, s.module.operandValue o = some v → m'.operandValue o = some w) ∧
      (∀ o, s.module.operandValue o ≠ some v → m'.operands.get o = s.module.operands.get o) ∧
      (∀ u, u ≠ v → u ≠ w → m'.uses u = s.module.uses u) ∧
      m'.skeleton = s.module.skeleton ∧ m'.readers = s.module.readers := by
  have hredirected : wp (replaceAllUses (some v) (some w))
    (fun _ t => ∃ m', t = { s with module := m' } ∧
      s.module.Redirects m' v w (s.module.uses v)) (fun _ _ => False) s :=
    wp_redirect h hvw hw fun m' hm' => ⟨m', rfl, hm'⟩
  obtain ⟨_, _, hrun, m', rfl, hm'⟩ := exists_run_of_wp hredirected
  have hvalue (o : OperandId) : m'.operandValue o = substitute v w (s.module.operandValue o) := by
    simp only [hm'.value, h.mem_uses, substitute]
  refine ⟨m', hrun, ?_, ?_, ?_, ?_, hm'.kept, ?_, hm'.skeleton, hm'.readers⟩
  · refine hm'.wired.uses_eq_nil.mpr fun o ho => ?_
    rw [hvalue, substitute] at ho
    split at ho
    · exact hvw (Option.some.inj ho).symm
    · contradiction
  · simpa using hm'.uses w hvw.symm
  · exact fun u k o hk => ((hm'.wired.registered u o k).mp hk).2.2
  · exact fun o ho => (hvalue o).trans (if_pos ho)
  · exact fun u huv huw => by simpa [huw] using hm'.uses u huv

/-! #### An example -/

def predicateType : TypeId × TypeTable :=
  TypeTable.initial.function { params := [.bool], result := .bool, conv := default, self := .none }

/-- A function returned its parameter, which then was replaced by a literal everywhere. -/
def settled : Builder :=
  after (replaceAllUses (some (.param ⟨0⟩)) (some (.inst ⟨0⟩))) <|
  after (ret (some (.param ⟨0⟩))) <|
  after (boolLiteral true) <|
  after (buildFunction "f" predicateType.1 ["p"]) <|
  after (modifyModule ({ · with types := predicateType.2, providers := [], typeDecls := [] }))
    { module := { name := "m" } }

theorem built_settled : Built settled := by
  repeat refine built_after ?_
  exact .new _

/-- The literal is read by the return and passed to the entry; nothing reads the parameter. -/
theorem settled_use_lists : Built settled ∧ settled.module.uses (.param ⟨0⟩) = [] ∧
    (settled.module.uses (.inst ⟨0⟩)).length = 2 ∧
    (∀ o, o ∈ settled.module.uses (.inst ⟨0⟩) ↔ settled.module.operandValue o = some (.inst ⟨0⟩) ∧
      ((∃ i, (settled.module.insts.get i).erased = false ∧ o ∈ settled.module.allOperands i) ∨
        ∃ e f b, settled.module.EntersFunction e f b ∧ o ∈ (settled.module.edges.get e).args)) :=
  ⟨built_settled, by decide +kernel, by decide +kernel, ((use_lists_exact built_settled).2.1 _).2⟩

/-- The uses of the literal go back to the parameter. -/
theorem settled_uses_move : settled.module.Wired ∧ settled.module.HasValue (.param ⟨0⟩) ∧
    ∃ m', (replaceAllUses (some (.inst ⟨0⟩)) (some (.param ⟨0⟩))).run.run settled =
        (.ok (), { settled with module := m' }) ∧
      m'.uses (.inst ⟨0⟩) = [] ∧ (m'.uses (.param ⟨0⟩)).length = 2 := by
  have hwired := built_settled.sound.linked.wired
  have hhas : settled.module.HasValue (.param ⟨0⟩) := by decide +kernel
  obtain ⟨m', hrun, hv, hw, -⟩ := all_uses_move hwired hhas (v := .inst ⟨0⟩) (by decide)
  refine ⟨hwired, hhas, m', hrun, hv, ?_⟩
  rw [hw]
  decide +kernel

/-! ### Both ends of an edge -/

theorem Module.Linked.open_unique (ha : m.view.Applied) {e' : EdgeId}
    (he : e ∈ (m.blocks.get b).edges) (hsource : (m.edges.get e).source = none)
    (he' : e' ∈ (m.blocks.get b).edges) (hsource' : (m.edges.get e').source = none) : e' = e := by
  have hlength : (m.openEdges b).length ≤ 1 := by
    have hopens : ((m.openEdges b).map _).length ≤ 1 := ha.single b
    rwa [length_map] at hopens
  obtain ⟨d, hd⟩ := length_eq_one_iff.mp
    (Nat.le_antisymm hlength (length_pos_of_mem (mem_openEdges.mpr ⟨he, hsource⟩)))
  have hmem := hd ▸ mem_openEdges.mpr ⟨he, hsource⟩
  have hmem' := hd ▸ mem_openEdges.mpr ⟨he', hsource'⟩
  rw [mem_singleton.mp hmem, mem_singleton.mp hmem']

theorem Module.Linked.mem_exits (h : m.Linked)
    (he : e ∈ (m.blocks.get b).edges) (hi : (m.edges.get e).source = some i) :
    ⟨some b, m.operandValues (m.edges.get e).args⟩ ∈ m.view.exits i := by
  obtain ⟨htarget, hmem⟩ := h.incoming b e he
  exact htarget ▸ mem_map_of_mem (hmem i hi)

/-- What a block of a function is entered by leads to it, passes as much as it asks for, and is
either the only edge from nowhere, into the entry, or listed once by the branch it comes from, which
was not erased and stands where the edge says. Conversely a branch whose targets are all in
functions is known to them, once for each edge. -/
theorem applications_paired {s : Builder} (h : Built s) :
    (∀ f b, (s.module.blocks.get b).func = some f → ∀ e ∈ (s.module.blocks.get b).edges,
      (s.module.edges.get e).target = some b ∧
      (s.module.edges.get e).args.length = (s.module.blocks.get b).params.length ∧
      ((s.module.EntersFunction e f b ∧
          ∀ e' ∈ (s.module.blocks.get b).edges, (s.module.edges.get e').source = none → e' = e) ∨
        ∃ i, (s.module.edges.get e).source = some i ∧ (s.module.insts.get i).erased = false ∧
          (s.module.insts.get i).targets.count e = 1 ∧
          ∀ c, (s.module.insts.get i).block = some c → (s.module.edges.get e).pred = some c)) ∧
    ∀ i, (∀ e ∈ (s.module.insts.get i).targets, ∀ b, (s.module.edges.get e).target = some b →
        (s.module.blocks.get b).func ≠ none) →
      ∀ e ∈ (s.module.insts.get i).targets, ∃ b, (s.module.edges.get e).target = some b ∧
        (s.module.blocks.get b).edges.count e = 1 := by
  have hl := h.sound.linked
  have hs := h.sound.shape
  have ha := h.applied
  refine ⟨fun f b hf e he => ?_, fun i hi e he => ?_⟩
  · obtain ⟨htarget, hmem⟩ := hl.incoming b e he
    have hlength : ∀ {n : Nat}, (s.module.operandValues (s.module.edges.get e).args).length = n →
        (s.module.edges.get e).args.length = n := fun hn => (length_map _).symm.trans hn
    cases hsource : (s.module.edges.get e).source with
    | none =>
      obtain ⟨g, hg⟩ := hl.entersFunction ha he hsource
      have hgf : g = f := Option.some.inj
        (((hs.blocks.mem_iff g b).mp (mem_of_mem_head? hg.entry)).symm.trans hf)
      have hopen : s.module.operandValues (s.module.edges.get e).args ∈ s.module.view.opens b :=
        mem_map_of_mem (mem_openEdges.mpr ⟨he, hsource⟩)
      exact ⟨htarget, hlength (ha.opens b _ hopen), .inl ⟨hgf ▸ hg, fun e' he' hsource' =>
        Module.Linked.open_unique ha he hsource he' hsource'⟩⟩
    | some i =>
      have hfunc : (s.module.view.block b).func ≠ none := fun hn =>
        Option.some_ne_none f (hf.symm.trans hn)
      refine ⟨htarget, hlength (ha.exits i _ (hl.mem_exits he hsource) b rfl hfunc),
        .inr ⟨i, rfl, ?_, ?_, ?_⟩⟩
      · by_contra herased
        rw [Bool.not_eq_false] at herased
        have hexits := (hs.formed.erased i herased).2.2
        exact absurd (hexits ▸ hl.mem_exits he hsource) not_mem_nil
      · exact count_eq_one_of_mem (hl.targetsNodup i) (hmem i hsource)
      · exact fun c hc => hl.pred i e (hmem i hsource) c hc
  · have hstanding : s.module.view.Standing i := by
      intro x hx b hb
      obtain ⟨d, hd, rfl⟩ := mem_map.mp hx
      exact hi d hd b hb
    obtain ⟨b, hb⟩ := ha.entered i hstanding e he
    exact ⟨b, (hl.incoming b e hb).1, count_eq_one_of_mem (hl.edgesNodup b) hb⟩

/-! #### An example -/

def actionType : TypeId × TypeTable :=
  TypeTable.initial.function { params := [], result := .void, conv := default, self := .none }

/-- The entry of `f` branched to a block of `f`, and the branch was moved to the entry of `g`. -/
def strayed : Builder :=
  after (move (some ⟨0⟩) { func := some ⟨1⟩, block := some ⟨2⟩ }) <|
  after (buildFunction "g" actionType.1 []) <|
  after (br (some ⟨1⟩) []) <|
  after (appendBlock "b" []) <|
  after (buildFunction "f" actionType.1 []) <|
  after (modifyModule ({ · with types := actionType.2, providers := [], typeDecls := [] }))
    { module := { name := "m" } }

theorem built_strayed : Built strayed := by
  repeat refine built_after ?_
  exact .new _

/-- The block in `f` knows the branch in `g`. -/
theorem strayed_applications_paired : Built strayed ∧
    (strayed.module.blocks.get ⟨1⟩).func = some ⟨0⟩ ∧
    (strayed.module.insts.get ⟨0⟩).block = some ⟨2⟩ ∧
    (strayed.module.insts.get ⟨0⟩).targets = [⟨1⟩] ∧
    ∃ b, (strayed.module.edges.get ⟨1⟩).target = some b ∧
    (strayed.module.blocks.get b).edges.count ⟨1⟩ = 1 := by
  refine ⟨built_strayed, by decide +kernel, by decide +kernel, by decide +kernel, ?_⟩
  refine (applications_paired built_strayed).2 ⟨0⟩ (fun e he b hb => ?_) ⟨1⟩ (by decide +kernel)
  have htargets : (strayed.module.insts.get ⟨0⟩).targets = [⟨1⟩] := by decide +kernel
  have htarget : (strayed.module.edges.get ⟨1⟩).target = some ⟨1⟩ := by decide +kernel
  obtain rfl := mem_singleton.mp (htargets ▸ he)
  obtain rfl := Option.mem_unique htarget hb
  decide +kernel

/-- When `f` is removed, with no instruction out of place, the branch stays in `g` and nothing
knows it. -/
theorem removal_cuts_branch : Built (after (Build.removeFunction ⟨0⟩) strayed) ∧
    strayed.module.insts.entries.size = 1 ∧ (strayed.module.insts.get ⟨0⟩).block = some ⟨2⟩ ∧
    ((after (Build.removeFunction ⟨0⟩) strayed).module.insts.get ⟨0⟩).block = some ⟨2⟩ ∧
    ((after (Build.removeFunction ⟨0⟩) strayed).module.blocks.get ⟨2⟩).func = some ⟨1⟩ ∧
    ((after (Build.removeFunction ⟨0⟩) strayed).module.insts.get ⟨0⟩).targets = [⟨1⟩] ∧
    ((after (Build.removeFunction ⟨0⟩) strayed).module.edges.get ⟨1⟩).target = some ⟨1⟩ ∧
    ((after (Build.removeFunction ⟨0⟩) strayed).module.blocks.get ⟨1⟩).edges = [] := by
  refine ⟨built_after built_strayed (.removeFunction ?_), ?_⟩
  · show (0 : Nat) < strayed.module.funcs.entries.size
    decide +kernel
  · decide +kernel

end Midlevel.Ir
