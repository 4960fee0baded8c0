import Midlevel.Proofs.Ir.Changes
import Mathlib.Data.List.TakeWhile

/-!
Where instructions stand: one that is in a block is listed there, and a terminator is the last of
its block. Every change of a module keeps that, so what may go into a block before another
instruction is taken out may go there afterwards.
-/

namespace Midlevel.Ir

open Build List

namespace View

variable {w w' : View}
variable {b : BlockId} {i : InstId}
variable {before : Option InstId}

/-- An instruction is listed where it stands, and a terminator stands at the end. -/
structure Ended (w : View) : Prop where
  made : ∀ i b, (w.inst i).block = some b → b.index < w.blocks
  listed : ∀ i b, (w.inst i).block = some b → (w.block b).func ≠ none → i ∈ (w.block b).insts
  last : ∀ i b, (w.inst i).block = some b → (w.inst i).op.isTerminator = true →
    (w.block b).func ≠ none ∧ (w.block b).insts.getLast? = some i

namespace Ended

variable (h : w.Ended)
include h

theorem plain (hi : (w.inst i).block = some b)
    (hb : ∀ j, (w.block b).insts.getLast? = some j → (w.inst j).op.isTerminator = false) :
    (w.inst i).op.isTerminator = false :=
  Bool.eq_false_iff.mpr fun hop => Bool.false_ne_true ((hb i (h.last i b hi hop).2).symm.trans hop)

theorem of_fewer (hblocks : w.blocks ≤ w'.blocks)
    (hinst : ∀ i b, (w'.inst i).block = some b → (w.inst i).block = some b ∧
      (w'.inst i).op = (w.inst i).op)
    (hblock : ∀ i b, (w'.inst i).block = some b → (w'.block b).func = none ∧ i ∉ (w.block b).insts ∨
      (w'.block b).func = (w.block b).func ∧
      ∃ p : InstId → Bool, p i = true ∧ (w'.block b).insts = (w.block b).insts.filter p) :
      w'.Ended where
  made i b hi := lt_of_lt_of_le (h.made i b (hinst i b hi).1) hblocks
  listed i b hi hf := by
    rcases hblock i b hi with ⟨hnone, -⟩ | ⟨hfunc, p, hp, hinsts⟩
    · exact absurd hnone hf
    · rw [hinsts, mem_filter]
      exact ⟨h.listed i b (hinst i b hi).1 (hfunc ▸ hf), hp⟩
  last i b hi hop := by
    obtain ⟨hold, hsame⟩ := hinst i b hi
    obtain ⟨hf, hlast⟩ := h.last i b hold (hsame ▸ hop)
    rcases hblock i b hi with ⟨-, hnot⟩ | ⟨hfunc, p, hp, hinsts⟩
    · exact absurd (mem_of_getLast? hlast) hnot
    · obtain ⟨init, hinit⟩ := getLast?_eq_some_iff.mp hlast
      rw [hfunc, hinsts, hinit, filter_append, filter_cons_of_pos hp]
      exact ⟨hf, getLast?_concat⟩

theorem of_same (hblocks : w.blocks ≤ w'.blocks)
    (hinst : ∀ i b, (w'.inst i).block = some b → (w.inst i).block = some b ∧
      (w'.inst i).op = (w.inst i).op)
    (hblock : ∀ b, b ≠ w.nextBlock → (w'.block b).func = (w.block b).func ∧
      (w'.block b).insts = (w.block b).insts) : w'.Ended := by
  refine h.of_fewer hblocks hinst fun i b hi => .inr ?_
  have hmade := h.made i b (hinst i b hi).1
  obtain ⟨hfunc, hinsts⟩ := hblock b fun he =>
    lt_irrefl _ (he ▸ hmade : w.nextBlock.index < w.blocks)
  exact ⟨hfunc, fun _ => true, rfl, hinsts.trans (filter_eq_self.mpr fun _ _ => rfl).symm⟩

theorem unlink (hs : w.Shape) (i : InstId) : (w.unlink i).Ended := by
  have hinst : ∀ j b, ((w.unlink i).inst j).block = some b → j ≠ i ∧
      (w.unlink i).inst j = w.inst j := by
    intro j b hj
    have hj' : (if j = i then { w.inst j with block := none } else w.inst j : Inst).block =
      some b := hj
    split at hj'
    · cases hj'
    · next hne => exact ⟨hne, if_neg hne⟩
  refine h.of_fewer .refl (fun j b hj => ?_) fun j b hj => .inr ?_
  · have hsame := (hinst j b hj).2
    exact ⟨hsame ▸ hj, by rw [hsame]⟩
  · rw [block_unlink (hs.insts.placed i)]
    exact ⟨rfl, _, decide_eq_true (hinst j b hj).1, rfl⟩

theorem discard (hs : w.Shape) (i : InstId) : (w.discard i).Ended := by
  refine (h.unlink hs i).of_same .refl (fun j b hj => ?_) fun b _ => ⟨rfl, rfl⟩
  have hinst : ((w.unlink i).inst j).block = ((w.discard i).inst j).block ∧
      ((w.discard i).inst j).op = ((w.unlink i).inst j).op := by
    rw [inst_discard]
    show (if j = i then _ else w.inst j : Inst).block = _ ∧
      _ = (if j = i then _ else w.inst j : Inst).op
    split <;> exact ⟨rfl, rfl⟩
  exact ⟨hinst.1.trans hj, hinst.2⟩

end Ended

theorem getLast?_insertBefore {j : InstId} {is : List InstId} (hj : j ∈ is) :
    (insertBefore i (some j) is).getLast? = is.getLast? := by
  have hne : is.dropWhile (· ≠ j) ≠ [] := by
    intro hnil
    rw [dropWhile_eq_nil_iff] at hnil
    simpa using hnil j hj
  obtain ⟨k, rest, hdrop⟩ := exists_cons_of_ne_nil hne
  have hsplit : is = is.takeWhile (· ≠ j) ++ is.dropWhile (· ≠ j) := takeWhile_append_dropWhile.symm
  rw [insertBefore]
  nth_rewrite 3 [hsplit]
  rw [hdrop, getLast?_append, getLast?_append, getLast?_cons_cons]

theorem Ended.place (h : w.Ended) (hb : w.Admits (w.inst i).op b before) :
    (w.place i b before).Ended := by
  have hinst : ∀ j c, ((w.place i b before).inst j).block = some c → j = i ∧ c = b ∨
      j ≠ i ∧ (w.inst j).block = some c := by
    intro j c hj
    rw [inst_place] at hj
    split at hj
    · next hji => exact .inl ⟨hji, (Option.some.inj hj).symm⟩
    · next hji => exact .inr ⟨hji, hj⟩
  refine ⟨fun j c hj => ?_, fun j c hj hf => ?_, fun j c hj hop => ?_⟩
  · rcases hinst j c hj with ⟨-, rfl⟩ | ⟨-, hold⟩
    · exact hb.made
    · exact h.made j c hold
  · rw [block_place] at hf ⊢
    rcases hinst j c hj with ⟨rfl, rfl⟩ | ⟨-, hold⟩
    · rw [if_pos rfl]
      exact mem_insertBefore.mpr (.inl rfl)
    · split at hf
      · next hc =>
        rw [if_pos hc]
        exact mem_insertBefore.mpr (.inr (h.listed j c hold hf))
      · next hc =>
        rw [if_neg hc]
        exact h.listed j c hold hf
  · have hop' : (w.inst j).op.isTerminator = true := by
      rw [inst_place] at hop
      split at hop <;> exact hop
    rw [block_place]
    rcases hinst j c hj with ⟨rfl, rfl⟩ | ⟨-, hold⟩
    · rw [if_pos rfl]
      cases before with
      | none => exact ⟨hb.func, getLast?_concat⟩
      | some k => cases hop'.symm.trans (hb.within k rfl).2
    · obtain ⟨hf, hlast⟩ := h.last j c hold hop'
      split
      · next hc =>
        subst hc
        cases before with
        | none => cases hop'.symm.trans (hb.atEnd rfl j hlast)
        | some k =>
          refine ⟨hf, (getLast?_insertBefore ?_).trans hlast⟩
          exact h.listed k c (hb.within k rfl).1 hf
      · exact ⟨hf, hlast⟩

theorem Ended.clear (h : w.Ended) {bs : List BlockId} (hblocks : w'.blocks = w.blocks)
    (hinst : ∀ i, w'.inst i = if i ∈ w.instsOf bs then
      { w.inst i with block := none, erased := true } else w.inst i)
    (hgone : ∀ b ∈ bs, (w'.block b).func = none)
    (hkept : ∀ b, b ∉ bs → w'.block b = w.block b) : w'.Ended := by
  have hold : ∀ i b, (w'.inst i).block = some b → i ∉ w.instsOf bs ∧ w'.inst i = w.inst i := by
    intro i b hi
    rw [hinst] at hi ⊢
    split at hi
    · cases hi
    · next hnot => exact ⟨hnot, if_neg hnot⟩
  refine h.of_fewer (le_of_eq hblocks.symm) (fun i b hi => ?_) fun i b hi => ?_
  · have hsame := (hold i b hi).2
    exact ⟨hsame ▸ hi, by rw [hsame]⟩
  · by_cases hb : b ∈ bs
    · exact .inl ⟨hgone b hb, fun hmem => (hold i b hi).1 (mem_instsOf.mpr ⟨b, hb, hmem⟩)⟩
    · rw [hkept b hb]
      exact .inr ⟨rfl, fun _ => true, rfl, (filter_eq_self.mpr fun _ _ => rfl).symm⟩

theorem Ended.append (h : w.Ended) (hs : w.Shape) {pred succ : BlockId}
    (hmade : pred.index < w.blocks)
    (hfunc : (w.block pred).func ≠ none)
    (hopen : ∀ i, (w.inst i).block = some pred → (w.inst i).op.isTerminator = false) :
    (w.append pred succ).Ended := by
  have hinst : ∀ i c, ((w.append pred succ).inst i).block = some c →
      i ∈ (w.block succ).insts ∧ c = pred ∨ i ∉ (w.block succ).insts ∧
          (w.inst i).block = some c := by
    intro i c hi
    rw [inst_append] at hi
    split at hi
    · next hmem => exact .inl ⟨hmem, (Option.some.inj hi).symm⟩
    · next hmem => exact .inr ⟨hmem, hi⟩
  refine ⟨fun i c hi => ?_, fun i c hi hf => ?_, fun i c hi hop => ?_⟩
  · rcases hinst i c hi with ⟨-, rfl⟩ | ⟨-, hold⟩
    · exact hmade
    · exact h.made i c hold
  · rw [block_append] at hf ⊢
    split at hf
    · exact absurd rfl hf
    · next hc =>
      rw [if_neg hc]
      rcases hinst i c hi with ⟨hmem, rfl⟩ | ⟨-, hold⟩
      · rw [if_pos rfl]
        exact mem_append_right _ hmem
      · split
        · next hp => exact mem_append_left _ (h.listed i c hold (hp ▸ hfunc))
        · next hp =>
          rw [if_neg hp] at hf
          exact h.listed i c hold hf
  · have hop' : (w.inst i).op.isTerminator = true := by
      rw [inst_append] at hop
      split at hop <;> exact hop
    rw [block_append]
    rcases hinst i c hi with ⟨hmem, rfl⟩ | ⟨hmem, hold⟩
    · have hsucc := hs.insts.placed i succ hmem
      have hne : c ≠ succ := by
        rintro rfl
        cases hop'.symm.trans (hopen i hsucc)
      rw [if_neg hne, if_pos rfl]
      obtain ⟨init, hinit⟩ := getLast?_eq_some_iff.mp (h.last i succ hsucc hop').2
      refine ⟨hfunc, ?_⟩
      rw [hinit, ← append_assoc]
      exact getLast?_concat
    · have hpred : c ≠ pred := by
        rintro rfl
        cases hop'.symm.trans (hopen i hold)
      obtain ⟨hf, hlast⟩ := h.last i c hold hop'
      have hsucc : c ≠ succ := by
        rintro rfl
        exact hmem (mem_of_getLast? hlast)
      rw [if_neg hsucc, if_neg hpred]
      exact ⟨hf, hlast⟩

theorem Alike.ended (h : w.Alike w') (he : w.Ended) : w'.Ended := by
  refine he.of_same (le_of_eq h.blocks.symm) (fun i b hi => ?_) fun b _ => by
    rw [h.block]; exact ⟨rfl, rfl⟩
  exact ⟨(h.inst i).1 ▸ hi, (h.inst i).2.1⟩

theorem Ended.emit (he : w.Ended) (hs : w.Shape) (hu : (w.inst w.nextInst).block = none)
    {x : Inst} {vs : Args}
    {exits : List Pass.Exit} (hx : Emittable x vs exits) (hb : w.Admits x.op b before) :
    (w.emit x vs exits b before).Ended := by
  have hinst (i) : (w.addBranch x vs exits).inst i = if i = w.nextInst then x else w.inst i :=
    Function.update_apply ..
  have hadded : (w.addBranch x vs exits).Ended := by
    refine he.of_same .refl (fun i c hi => ?_) fun _ _ => ⟨rfl, rfl⟩
    rw [hinst] at hi ⊢
    split at hi
    · rw [hx.block] at hi
      cases hi
    · next hne =>
      rw [if_neg hne]
      exact ⟨hi, rfl⟩
  have hself : (w.addBranch x vs exits).inst w.nextInst = x := Function.update_self ..
  have hold : ∀ i c, (w.inst i).block = some c → (w.addBranch x vs exits).inst i = w.inst i := by
    intro i c hi
    rw [hinst, if_neg]
    rintro rfl
    cases hu.symm.trans hi
  refine hadded.place ⟨hb.made, hb.func, fun i hi => ?_, fun hnone i hi => ?_⟩
  · rw [hself, hold i b (hb.within i hi).1]
    exact hb.within i hi
  · rw [hold i b (hs.insts.placed i b (mem_of_getLast? hi))]
    exact hb.atEnd hnone i hi

theorem Growth.ended (hs : w.Shape) (h : w.Growth w') (he : w.Ended) : w'.Ended := by
  cases h with
  | alike h => exact h.ended he
  | emit hu hx _ hb => exact he.emit hs hu.inst hx hb
  | place _ _ hb => exact he.place hb
  | @addBlock _ name f _ ps =>
    refine he.of_same (Nat.le_succ _) (fun _ _ hi => ⟨hi, rfl⟩) fun b hb => ?_
    have hblock := w.block_addBlock_of_ne { name, func := some f } ps hb
    exact ⟨congrArg Block.func hblock, congrArg Block.insts hblock⟩
  | permute hg _ _ => exact he.of_same .refl (fun _ _ hi => ⟨hi, rfl⟩) fun _ _ => ⟨rfl, rfl⟩
  | addFunc hu _ => exact he.of_same .refl (fun _ _ hi => ⟨hi, rfl⟩) fun _ _ => ⟨rfl, rfl⟩
  | @define _ f _ ps =>
    refine he.of_same (Nat.le_succ _) (fun _ _ hi => ⟨hi, rfl⟩) fun b hb => ?_
    have hblock := w.block_addBlock_of_ne { name := "entry", func := some f } ps hb
    exact ⟨congrArg Block.func hblock, congrArg Block.insts hblock⟩

theorem Ended.eraseBlocks (he : w.Ended) (bs : List BlockId) : (w.eraseBlocks bs).Ended := by
  refine he.clear rfl (fun _ => rfl) (fun b hb => ?_) fun b hb => ?_
  · exact congrArg Block.func (if_pos hb)
  · exact if_neg hb

theorem Ended.merge (he : w.Ended) (hs : w.Shape) {pred succ : BlockId} {t : InstId}
    (args : List (Option Value))
    (hpred : (w.block pred).func ≠ none) (ht : (w.block pred).insts.getLast? = some t) :
    (w.merge pred succ t args).Ended := by
  have hold := (Alike.mapValues (w.discard t)
    (substituteAll ((w.block succ).params.zip args))).ended (he.discard hs t)
  refine hold.append ((hs.discard t).mapValues _) (he.made t pred ?_) ?_ fun i hi => ?_
  · exact hs.insts.placed t pred (mem_of_getLast? ht)
  · show ((w.discard t).block pred).func ≠ none
    rwa [block_discard (hs.insts.placed t)]
  · have hi' : ((w.discard t).inst i).block = some pred := hi
    show ((w.discard t).inst i).op.isTerminator = false
    rw [inst_discard] at hi' ⊢
    split at hi'
    · cases hi'
    · next hne =>
      rw [if_neg hne]
      refine Bool.eq_false_iff.mpr fun hterm => hne ?_
      exact Option.some.inj ((he.last i pred hi' hterm).2.symm.trans ht)

theorem Change.ended (hs : w.Shape) (h : w.Change w') (he : w.Ended) : w'.Ended := by
  cases h with
  | growth h => exact h.ended hs he
  | discard i => exact he.discard hs i
  | unlink i => exact he.unlink hs i
  | @eraseBlocks bs _ => exact he.eraseBlocks bs
  | merge args hpred ht _ _ => exact he.merge hs args hpred ht
  | @removeFunc v f hloose hshut =>
    have hinst : v.inst = (w.clearBlocks (w.func f).blocks).inst :=
      (congrArg View.inst hloose.rest :)
    have hblock : v.block = (w.clearBlocks (w.func f).blocks).block :=
      (congrArg View.block hloose.rest :)
    have hblocks : v.blocks = w.blocks := (congrArg View.blocks hloose.rest :)
    refine he.clear hblocks (fun i => ?_) (fun b (hb : b ∈ (w.func f).blocks) => ?_) fun b hb => ?_
    · exact congrFun hinst i
    · exact congrArg Block.func (if_pos hb)
    · exact (if_neg hb).trans ((congrFun hblock b).trans (if_neg hb))

theorem Changes.ended (h : w.Changes w') (hs : w.Shape) (he : w.Ended) : w'.Ended :=
  (h.induct Change.ended hs he).2

theorem Admits.unlink {op : Opcode} (h : w.Admits op b before) (he : w.Ended) (hs : w.Shape)
    (hi : before ≠ some i) : (w.unlink i).Admits op b before := by
  have hblock := block_unlink (hs.insts.placed i) b
  refine ⟨h.made, ?_, fun j hj => ?_, fun hnone j hj => ?_⟩
  · rw [hblock]
    exact h.func
  · have hinst : (w.unlink i).inst j = w.inst j := if_neg fun hji : j = i => hi (hji ▸ hj)
    rw [hinst]
    exact h.within j hj
  · rw [hblock] at hj
    have hmem : j ∈ (w.block b).insts := (mem_filter.mp (mem_of_getLast? hj)).1
    have hop : ((w.unlink i).inst j).op = (w.inst j).op := by
      show (if j = i then _ else w.inst j : Inst).op = _
      split <;> rfl
    rw [hop]
    exact he.plain (hs.insts.placed j b hmem) (h.atEnd hnone)

theorem Ended.admits_discard (he : w.Ended) (hs : w.Shape) (hi : (w.inst i).block = some b)
    (hop : (w.inst i).op.isTerminator = true) (op : Opcode) : (w.discard i).Admits op b none := by
  obtain ⟨hfunc, hlast⟩ := he.last i b hi hop
  refine ⟨he.made i b hi, ?_, nofun, fun _ j hj => ?_⟩
  · rwa [block_discard (hs.insts.placed i)]
  · rw [block_discard (hs.insts.placed i)] at hj
    obtain ⟨hmem, hji⟩ := mem_filter.mp (mem_of_getLast? hj)
    have hne : j ≠ i := of_decide_eq_true hji
    rw [inst_discard, if_neg hne]
    refine Bool.eq_false_iff.mpr fun hterm => hne (Option.some.inj ?_)
    exact (he.last j b (hs.insts.placed j b hmem) hterm).2.symm.trans hlast

end View

end Midlevel.Ir
