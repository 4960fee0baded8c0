import Midlevel.Proofs.Pass.StraightLines

/-!
The clean-up of control flow as a whole. It is run on functions that were put together by the
operations of the builder; on those, what it leaves does what was there before, whatever the
instructions mean.
-/

namespace Midlevel.Pass

open Midlevel.Flow Ir.Build
open List hiding after
open Ir

variable {f : FuncId} {g : Graph}

structure Ready (s : Builder) (f : FuncId) : Prop where
  built : Built s
  defined : (s.module.funcs.get f).defined = true
  /-- No instruction is left detached. -/
  listed : ∀ i, s.module.insts.Has i → (s.module.insts.get i).erased = false →
    ∃ b, i ∈ (s.module.blocks.get b).insts
  /-- No branch is used as an operand. -/
  unread : ∀ i, (s.module.insts.get i).op.isTerminator = true → (s.module.insts.get i).uses = []
  verified : s.module.verifyFunc f = .ok []
  dominated : (s.module.view.graph f).Dominated

theorem accepted {s : Builder} (h : Built s) (hdefined : (s.module.funcs.get f).defined = true)
    (hunread : ∀ i, (s.module.insts.get i).op.isTerminator = true →
      (s.module.insts.get i).uses = [])
    (hverified : s.module.verifyFunc f = .ok []) : s.view.Accepted f := by
  obtain ⟨hl, hs, he, -⟩ := h.sound
  exact ⟨hs, he, fun i hi => hl.uses_eq_nil.mp (hunread i hi),
    Module.verified_of_verifyFunc hl hs he.listed hdefined hverified⟩

theorem Ready.runnable {s : Builder} (h : Ready s f) : s.view.Runnable f := by
  have ha := accepted h.built h.defined h.unread h.verified
  have hresults : (s.view.graph f).ReadsResults := by
    intro b l hl c k hk hv
    obtain ⟨i, -, rfl⟩ := mem_map.mp hl
    obtain ⟨j, -, rfl⟩ := mem_map.mp hk
    exact Bool.not_eq_true _ ▸ fun hop => ha.unread j hop (View.mem_reads hv)
  exact ⟨ha, _, h.dominated.available hresults⟩

theorem wp_simplifyControlFlow {w₀ : View} {s : Workspace} (h : Kept f w₀ s) :
    wp (simplifyControlFlow f) (fun _ s' => Kept f w₀ s') (fun _ _ => ¬ w₀.Enclosed f) s := by
  rw [simplifyControlFlow, wp_bind]
  refine wp_imp (wp_foldConstantBranches h) fun _ s₁ h₁ => ?_
  refine wp_seq (wp_bypassForwardingBlocks h₁) fun _ s₂ h₂ => ?_
  refine wp_seq (wp_removeUnreachable h₂) fun _ s₃ h₃ => ?_
  exact wp_mergeStraightLines h₃

/-- What is read was defined earlier in the block, is one of its parameters, or is defined at the
entry. -/
def near (g : Graph) (b : BlockId) (before : List Flow.Line) : Option Value → Bool
  | some (.inst i) => before.any (·.id = i) || b ≠ g.entry && (g.lines g.entry).any (·.id = i)
  | some (.param p) => p ∈ g.params b
  | _ => true

def allNear (g : Graph) (b : BlockId) : Bool :=
  (range (g.lines b).length).all fun n =>
    ((g.lines b)[n]?.map Flow.Line.values).all (·.all (near g b ((g.lines b).take n)))

theorem mem_of_walk {bs : List BlockId} {b : BlockId} (h : g.Walk bs b) : g.entry ∈ b :: bs := by
  induction h with
  | start => exact mem_cons_self
  | step _ _ ih => exact mem_cons_of_mem _ ih

theorem dominated_of_near (h : ∀ b, allNear g b = true) : g.Dominated := by
  intro b _ before l after heq v hv
  have hb := h b
  rw [allNear, all_eq_true] at hb
  have hl := hb before.length (mem_range.mpr (by rw [heq]; simp))
  rw [heq, getElem?_append_right .refl, Nat.sub_self, take_left] at hl
  have hnear : near g b before (some v) = true := all_eq_true.mp hl _ hv
  cases v with
  | inst i =>
    simp only [near, Bool.or_eq_true, Bool.and_eq_true, any_eq_true, decide_eq_true_eq] at hnear
    rcases hnear with hk | ⟨hne, hk⟩
    · exact .inl hk
    · exact .inr ⟨g.entry, Ne.symm hne, hk, fun _ hw => mem_of_walk hw⟩
  | param p => exact ⟨b, decide_eq_true_eq.mp hnear, fun _ _ => mem_cons_self⟩
  | func f => trivial
  | global g => trivial

def thunkType : TypeId × TypeTable :=
  TypeTable.initial.function { params := [], result := .bool, conv := default, self := .none }

/-- Branches on a literal to two blocks that only branch on, to one that returns what it is
passed. -/
def choosing : Builder :=
  after (ret (some (.param ⟨0⟩))) <|
  after (positionAtEnd ⟨3⟩) <|
  after (br (some ⟨3⟩) [some (.inst ⟨1⟩)]) <|
  after (positionAtEnd ⟨2⟩) <|
  after (br (some ⟨3⟩) [some (.inst ⟨1⟩)]) <|
  after (positionAtEnd ⟨1⟩) <|
  after (condBr (some (.inst ⟨0⟩)) (some ⟨1⟩) [] (some ⟨2⟩) []) <|
  after (boolLiteral false) <|
  after (boolLiteral true) <|
  after (appendBlock "c" [{ name := "p", type := .bool }]) <|
  after (appendBlock "b" []) <|
  after (appendBlock "a" []) <|
  after (buildFunction "f" thunkType.1 []) <|
  after (modifyModule ({ · with types := thunkType.2, providers := [], typeDecls := [] }))
    { module := { name := "m" } }

theorem built_choosing : Built choosing := by
  repeat refine built_after ?_
  exact .new _

theorem unread_of_each {m : Module} (h : ∀ n < m.insts.entries.size,
      (m.insts.get ⟨n⟩).op.isTerminator = true → (m.insts.get ⟨n⟩).uses = []) (i : InstId)
    (hop : (m.insts.get i).op.isTerminator = true) : (m.insts.get i).uses = [] := by
  by_cases hi : m.insts.Has i
  · exact h i.index hi hop
  · rw [Pool.get_of_not_has hi]
    rfl

theorem ready_choosing : Ready choosing ⟨0⟩ where
  built := built_choosing
  defined := by decide +kernel
  listed i hi _ := by
    have h : ∀ n < choosing.module.insts.entries.size, ∃ k < 4,
      (⟨n⟩ : InstId) ∈ (choosing.module.blocks.get ⟨k⟩).insts := by decide +kernel
    obtain ⟨k, -, hk⟩ := h i.index hi
    exact ⟨⟨k⟩, hk⟩
  unread := unread_of_each (by decide +kernel)
  verified := eq_nil_of_checked (by decide +kernel)
  dominated := by
    refine dominated_of_near fun b => ?_
    by_cases hb : choosing.module.blocks.Has b
    · have h : ∀ n < choosing.module.blocks.entries.size,
        allNear (choosing.module.view.graph ⟨0⟩) ⟨n⟩ = true := by decide +kernel
      exact h b.index hb
    · have hlines : (choosing.module.view.graph ⟨0⟩).lines b = [] := by
        show (choosing.module.blocks.get b).insts.map _ = []
        rw [Pool.get_of_not_has hb]
        rfl
      rw [allNear, hlines]
      rfl

end Midlevel.Pass
