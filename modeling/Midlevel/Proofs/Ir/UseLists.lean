import Mathlib.Data.List.Nodup
import Midlevel.Ir.Uses

/-!
Use lists never go wrong. A module is *wired* when the use lists and the operands tell the same
story: operand `o` stands at position `k` of the use list of `v` exactly if it reads `v` and says
so. Every operation that points an operand somewhere keeps this, so removing an operand from a use
list always finds it where it should be, and a value has no uses exactly if no operand reads it.

What these operations leave alone is said at once, by the `skeleton` of a module: everything except
the use lists and what operands read.
-/

namespace Midlevel.Ir

open List Pool Operand
open Option (mem_unique)
open Function (update_apply update_self)

/-- What an instruction reads or a branch passes; any of it may be missing. -/
abbrev Args := List (Option Value)

theorem Id.eq_of_lt_succ {e : Entity} {i : Id e} {n : Nat} (h : i.index < n + 1)
    (h' : ¬ i.index < n) :
    i = ⟨n⟩ := congrArg Id.mk (show i.index = n by omega)

/-! ### Pools -/

namespace Pool

variable {e : Entity} {α β : Type}
variable {i : Id e}
variable {f : α → α}

def Has (p : Pool e α) (i : Id e) : Prop := i.index < p.entries.size

instance (p : Pool e α) (i : Id e) : Decidable (p.Has i) :=
  inferInstanceAs (Decidable (i.index < p.entries.size))

def map (p : Pool e α) (f : α → β) : Pool e β := ⟨p.entries.map f⟩

variable (p : Pool e α)

@[simp] theorem not_has_next : ¬ p.Has p.next := Nat.lt_irrefl _

@[simp] theorem has_update (i j : Id e) (f : α → α) : (p.update i f).Has j ↔ p.Has j := by
  unfold Has
  rw [size_update]

@[simp] theorem has_push (a : α) (i : Id e) : (p.push a).Has i ↔ p.Has i ∨ i = p.next := by
  obtain ⟨i⟩ := i
  simp only [Has, push, next, Array.size_push, Id.mk.injEq]
  omega

theorem update_of_fixed (h : ∀ a, p.entries[i.index]? = some a → f a = a) : p.update i f = p := by
  have : p.entries.modify i.index f = p.entries := by
    apply Array.ext
    · simp
    · intro n h₁ h₂
      rw [Array.getElem_modify]
      split
      · next hn => exact h _ (hn ▸ Array.getElem?_eq_getElem h₂)
      · rfl
  rw [update, this]

theorem update_of_not_has (h : ¬ p.Has i) (f : α → α) : p.update i f = p :=
  p.update_of_fixed fun _ ha => absurd (Array.getElem?_eq_some_iff.mp ha).1 h

theorem size_le_push (x : α) : p.entries.size ≤ (p.push x).entries.size := by
  simp [push]

@[simp] theorem size_map (f : α → β) : (p.map f).entries.size = p.entries.size := by
  simp [map]

theorem map_update (f : α → β) (i : Id e) (g : α → α) (h : ∀ a, f (g a) = f a) :
    (p.update i g).map f = p.map f := by
  have : (p.entries.modify i.index g).map f = p.entries.map f := by
    apply Array.ext
    · simp
    · intro n h₁ h₂
      rw [Array.getElem_map, Array.getElem_map, Array.getElem_modify]
      split
      · exact h _
      · rfl
  simp only [map, update, this]

variable [Inhabited α]

theorem get_of_not_has {p : Pool e α} (h : ¬ p.Has i) : p.get i = default := by
  have h' : p.entries[i.index]? = none := by
    rw [Array.getElem?_eq_none_iff]
    exact Nat.not_lt.mp h
  rw [get, Array.getD_eq_getD_getElem?, h', Option.getD_none]

@[simp] theorem get_next : p.get p.next = default := get_of_not_has p.not_has_next

theorem get_update_or (h : p.Has i ∨ f default = default) (j : Id e) :
    (p.update i f).get j = if j = i then f (p.get j) else p.get j := by
  split
  · next hj =>
    subst hj
    by_cases hi : p.Has j
    · exact get_update_self p hi f
    · rw [update_of_not_has p hi, get_of_not_has hi, h.resolve_left hi]
  · next hj => exact get_update_of_ne p (Ne.symm hj) f

theorem get_update (h : p.Has i) (j : Id e) (f : α → α) :
    (p.update i f).get j = if j = i then f (p.get j) else p.get j := p.get_update_or (.inl h) j

theorem get_update_cases (i j : Id e) (f : α → α) :
    (p.update i f).get j = p.get j ∨ i = j ∧ (p.update i f).get j = f (p.get j) := by
  by_cases h : p.Has i
  · rw [get_update p h]
    split
    · next hj => exact .inr ⟨hj.symm, rfl⟩
    · exact .inl rfl
  · rw [update_of_not_has p h]
    exact .inl rfl

theorem get_update_part (part : α → β) (i j : Id e)
    (hf : ∀ x, part (f x) = part x) : part ((p.update i f).get j) = part (p.get j) := by
  rcases p.get_update_cases i j f with h | ⟨-, h⟩
  · rw [h]
  · rw [h, hf]

theorem update_eq_self (i : Id e) (h : f (p.get i) = p.get i) : p.update i f = p := by
  refine p.update_of_fixed fun a ha => ?_
  rwa [get, Array.getD_eq_getD_getElem?, ha] at h

@[simp] theorem get_push (a : α) (i : Id e) : (p.push a).get i = if i = p.next then a
    else p.get i := by
  obtain ⟨i⟩ := i
  simp only [get, push, next, Array.getD_eq_getD_getElem?, Array.getElem?_push, Id.mk.injEq]
  split <;> rfl

theorem get_push_part (x : α) (part : α → β) :
    (fun i => part ((p.push x).get i)) = Function.update (fun i => part (p.get i)) p.next
    (part x) := by
  funext i
  rw [get_push, update_apply]
  split <;> rfl

theorem get_push_part_of_default {x : α} (part : α → β)
    (hx : part x = part default) (i : Id e) : part ((p.push x).get i) = part (p.get i) := by
  rw [get_push]
  split
  · next hi => rw [hx, hi, get_next]
  · rfl

theorem get_map [Inhabited β] (f : α → β) (hf : f default = default) (i : Id e) :
    (p.map f).get i = f (p.get i) := by
  simp only [get, map, Array.getD_eq_getD_getElem?, Array.getElem?_map]
  cases p.entries[i.index]? with
  | none => exact hf.symm
  | some a => rfl

end Pool

def Inst.bare (x : Inst) : Inst := { x with uses := [] }

def Param.bare (x : Param) : Param := { x with uses := [] }

def Func.bare (x : Func) : Func := { x with uses := [] }

def Global.bare (x : Global) : Global := { x with uses := [] }

def Operand.bare (x : Operand) : Operand := { x with value := none, index := none }

namespace Module

variable {m m' : Module} {o : OperandId} {v : Value}

def HasValue (m : Module) : Value → Prop
  | .inst i => m.insts.Has i
  | .param p => m.params.Has p
  | .func f => m.funcs.Has f
  | .global g => m.globals.Has g

theorem HasValue.mono (h : m.HasValue v) (hi : m.insts.entries.size ≤ m'.insts.entries.size)
    (hp : m.params.entries.size ≤ m'.params.entries.size)
    (hf : m.funcs.entries.size ≤ m'.funcs.entries.size)
    (hg : m.globals.entries.size ≤ m'.globals.entries.size) : m'.HasValue v := by
  cases v with
  | inst i => exact Nat.lt_of_lt_of_le h hi
  | param p => exact Nat.lt_of_lt_of_le h hp
  | func f => exact Nat.lt_of_lt_of_le h hf
  | global g => exact Nat.lt_of_lt_of_le h hg

def skeleton (m : Module) : Module :=
  { m with
    insts := m.insts.map Inst.bare
    params := m.params.map Param.bare
    funcs := m.funcs.map Func.bare
    globals := m.globals.map Global.bare
    operands := {} }

def readers (m : Module) : Pool .operand Operand := m.operands.map bare

section Skeleton

variable (h : m'.skeleton = m.skeleton) (i : InstId)

include h

theorem skeleton_inst : (m'.insts.get i).bare = (m.insts.get i).bare := by
  have : m'.insts.map Inst.bare = m.insts.map Inst.bare := congrArg Module.insts h
  rw [← get_map m'.insts Inst.bare rfl, this, get_map m.insts Inst.bare rfl]

theorem skeleton_operands : (m'.insts.get i).operands = (m.insts.get i).operands :=
  (congrArg Inst.operands (skeleton_inst h i) :)

theorem skeleton_targets : (m'.insts.get i).targets = (m.insts.get i).targets :=
  (congrArg Inst.targets (skeleton_inst h i) :)

theorem skeleton_instBlock : (m'.insts.get i).block = (m.insts.get i).block :=
  (congrArg Inst.block (skeleton_inst h i) :)

theorem skeleton_blocks : m'.blocks = m.blocks := congrArg (fun x => x.blocks) h

theorem skeleton_edges : m'.edges = m.edges := congrArg (fun x => x.edges) h

theorem skeleton_sizeInsts : m'.insts.entries.size = m.insts.entries.size := by
  have := congrArg (fun x => x.insts.entries.size) h
  simpa only [skeleton, size_map] using this

theorem skeleton_hasInst : m'.insts.Has i ↔ m.insts.Has i := by
  rw [Pool.Has, Pool.Has, skeleton_sizeInsts h]

theorem skeleton_hasValue (v : Value) : m'.HasValue v ↔ m.HasValue v := by
  have hp := congrArg (fun x => x.params.entries.size) h
  have hf := congrArg (fun x => x.funcs.entries.size) h
  have hg := congrArg (fun x => x.globals.entries.size) h
  simp only [skeleton, size_map] at hp hf hg
  cases v with
  | inst i => exact skeleton_hasInst h i
  | param p => simp only [HasValue, Pool.Has, hp]
  | func f => simp only [HasValue, Pool.Has, hf]
  | global g => simp only [HasValue, Pool.Has, hg]

end Skeleton

theorem user_eq_of_readers (h : m'.readers = m.readers) (o : OperandId) :
    (m'.operands.get o).user = (m.operands.get o).user := by
  have hget : (m'.operands.get o).bare = (m.operands.get o).bare := by
    rw [← get_map m'.operands bare rfl, ← get_map m.operands bare rfl]
    exact congrArg (fun p => get p o) h
  exact (congrArg user hget :)

theorem hasOperand_of_readers (h : m'.readers = m.readers) (o : OperandId) : m'.operands.Has o ↔
    m.operands.Has o := by
  have : m'.operands.entries.size = m.operands.entries.size := by
    rw [← size_map m'.operands bare, ← size_map m.operands bare]
    exact congrArg (fun p => p.entries.size) h
  rw [Pool.Has, Pool.Has, this]

/-! ### Wiring -/

/-- The live operands are registered with what they read, and nothing else is registered. -/
structure WiredOn (m : Module) (live : OperandId → Prop) : Prop where
  registered : ∀ v o k, (m.uses v)[k]? = some o ↔ live o ∧ m.operandValue o = some v ∧
    (m.operands.get o).index = some k
  indexed : ∀ o v, live o → m.operandValue o = some v → ∃ k, (m.operands.get o).index = some k
  made : ∀ o v, live o → m.operandValue o = some v → m.HasValue v

abbrev Wired (m : Module) : Prop := m.WiredOn fun _ => True

theorem Wired.mem_uses (h : m.Wired) : o ∈ m.uses v ↔ m.operandValue o = some v := by
  rw [mem_iff_getElem?]
  constructor
  · rintro ⟨k, hk⟩
    exact ((h.registered v o k).mp hk).2.1
  · intro hv
    obtain ⟨k, hk⟩ := h.indexed o v trivial hv
    exact ⟨k, (h.registered v o k).mpr ⟨trivial, hv, hk⟩⟩

theorem Wired.uses_eq_nil (h : m.Wired) : m.uses v = [] ↔ ∀ o, m.operandValue o ≠ some v := by
  rw [eq_nil_iff_forall_not_mem]
  exact forall_congr' fun _ => not_congr h.mem_uses

theorem Wired.nodup_uses (h : m.Wired) (v : Value) : (m.uses v).Nodup := by
  rw [nodup_iff_getElem?_ne_getElem?]
  intro j k hjk hk heq
  have hk' : (m.uses v)[k]? = some (m.uses v)[k] := getElem?_eq_getElem hk
  have h₁ := ((h.registered v _ k).mp hk').2.2
  have h₂ := ((h.registered v _ j).mp (heq.trans hk')).2.2
  have : j = k := mem_unique h₂ h₁
  omega

theorem WiredOn.congr {live : OperandId → Prop} (h : m.WiredOn live)
    (huses : ∀ v, m'.uses v = m.uses v)
    (hmade : ∀ v, m.HasValue v → m'.HasValue v)
    (hvalue : m'.operandValue = m.operandValue := by rfl)
    (hindex : ∀ o, (m'.operands.get o).index = (m.operands.get o).index := by intro; rfl) :
    m'.WiredOn live where
  registered v o k := by
    rw [huses, hvalue, hindex]
    exact h.registered v o k
  indexed o v hl hv := by
    rw [hvalue] at hv
    rw [hindex]
    exact h.indexed o v hl hv
  made o v hl hv := by
    rw [hvalue] at hv
    exact hmade v (h.made o v hl hv)

@[simp] theorem operands_modifyUses (m : Module) (c : List OperandId → List OperandId) (v : Value) :
    (m.modifyUses c v).operands = m.operands := by
  cases v <;> rfl

@[simp] theorem hasValue_modifyUses (m : Module) (c : List OperandId → List OperandId)
    (v w : Value) : (m.modifyUses c v).HasValue w ↔ m.HasValue w := by
  cases v <;> cases w <;> simp [modifyUses, HasValue]

theorem uses_modifyUses (h : m.HasValue v) (c : List OperandId → List OperandId) (w : Value) :
    (m.modifyUses c v).uses w = if w = v then c (m.uses w) else m.uses w := by
  cases v <;> cases w <;> simp only [HasValue] at h <;>
    simp only [modifyUses, uses, get_update _ h, Value.inst.injEq, Value.param.injEq,
      Value.func.injEq, Value.global.injEq, reduceCtorEq, if_false] <;> split <;> rfl

@[simp] theorem skeleton_modifyUses (m : Module) (c : List OperandId → List OperandId) (v : Value) :
    (m.modifyUses c v).skeleton = m.skeleton := by
  cases v <;> simp only [modifyUses, skeleton] <;> rw [map_update] <;> intro <;> rfl

theorem readers_update (m : Module) (o : OperandId) (f : Operand → Operand)
    (h : ∀ x, (f x).user = x.user) :
    (m.operands.update o f).map bare = m.readers := by
  rw [map_update, readers]
  intro x
  rw [bare, h]
  rfl

/-! ### Adding and removing a use -/

theorem skeleton_addUse (m : Module) (v : Value) (o : OperandId) :
    (m.addUse v o).skeleton = m.skeleton := m.skeleton_modifyUses (· ++ [o]) v

theorem readers_addUse (m : Module) (v : Value) (o : OperandId) :
    (m.addUse v o).readers = m.readers := by
  show ((m.modifyUses _ v).operands.update o _).map bare = m.readers
  rw [operands_modifyUses, readers_update]
  exact fun _ => rfl

theorem uses_addUse (h : m.HasValue v) (o : OperandId) (w : Value) :
    (m.addUse v o).uses w = if w = v then m.uses w ++ [o] else m.uses w := by
  show (m.modifyUses (· ++ [o]) v).uses w = _
  rw [uses_modifyUses h]

theorem operand_addUse (ho : m.operands.Has o) (v : Value) (p : OperandId) :
    (m.addUse v o).operands.get p =
      if p = o then { m.operands.get p with index := some (m.uses v).length }
      else m.operands.get p := by
  simp only [addUse]
  rw [get_update]
  · simp
  · simpa using ho

theorem operandValue_addUse (m : Module) (v : Value) (o : OperandId) :
    (m.addUse v o).operandValue = m.operandValue := by
  funext p
  show (((m.modifyUses _ v).operands.update o _).get p).value = _
  rw [get_update_part _ value, operands_modifyUses]
  all_goals intros; rfl

theorem getElem?_concat_eq {us : List OperandId} {p : OperandId} {k : Nat} (ho : o ∉ us) :
    (us ++ [o])[k]? = some p ↔ if p = o then k = us.length else us[k]? = some p := by
  grind

theorem WiredOn.addUse (h : m.WiredOn (· ≠ o)) (ho : m.operands.Has o) (hv : m.HasValue v)
    (hread : m.operandValue o = some v) : (m.addUse v o).Wired where
  registered w p k := by
    have hfresh (u : Value) : o ∉ m.uses u := fun hmem => by
      obtain ⟨k, hk⟩ := mem_iff_getElem?.mp hmem
      exact ((h.registered u o k).mp hk).1 rfl
    rw [operandValue_addUse, uses_addUse hv, operand_addUse ho, true_and]
    by_cases hp : p = o
    · subst hp
      rw [if_pos rfl, hread]
      split
      · next hw =>
        rw [getElem?_concat_eq (hfresh w), if_pos rfl, hw]
        simp [eq_comm]
      · next hw =>
        exact ⟨fun hk => absurd (mem_of_getElem? hk) (hfresh w),
          fun hk => absurd (Option.some.inj hk.1).symm hw⟩
    · have hold : (m.uses w)[k]? = some p ↔ m.operandValue p = some w ∧
          (m.operands.get p).index = some k :=
        (h.registered w p k).trans (and_iff_right hp)
      rw [if_neg hp, ← hold]
      split
      · rw [getElem?_concat_eq (hfresh w), if_neg hp]
      · rfl
  indexed p w _ hw := by
    rw [operandValue_addUse] at hw
    rw [operand_addUse ho]
    split
    · exact ⟨_, rfl⟩
    · next hp => exact h.indexed p w hp hw
  made p w _ hw := by
    rw [operandValue_addUse] at hw
    rw [skeleton_hasValue (m.skeleton_addUse v o)]
    by_cases hp : p = o
    · subst hp
      rw [hread] at hw
      exact (Option.some.inj hw) ▸ hv
    · exact h.made p w hp hw

theorem removeUse?_eq (h : m.Wired) (hread : m.operandValue o = some v) :
    ∃ i last, (m.operands.get o).index = some i ∧ (m.uses v)[i]? = some o ∧
    (m.uses v).getLast? = some last ∧
      m.removeUse? v o = some
        { m.modifyUses (fun us => (us.set i last).dropLast) v with
          operands := (m.operands.update last ({ · with index := some i })).update o
            ({ · with index := none }) } := by
  obtain ⟨i, hi⟩ := h.indexed o v trivial hread
  have hat : (m.uses v)[i]? = some o := (h.registered v o i).mpr ⟨trivial, hread, hi⟩
  have hne : m.uses v ≠ [] := by
    intro hnil
    rw [hnil] at hat
    simp at hat
  obtain ⟨last, hlast⟩ := getLast?_isSome.mpr hne |> Option.isSome_iff_exists.mp
  refine ⟨i, last, hi, hat, hlast, ?_⟩
  unfold removeUse?
  rw [hi, hlast]
  simp only [hat, if_true, operands_modifyUses]

theorem hasOperand_of_value (h : m.operandValue o = some v) : m.operands.Has o := by
  by_contra hn
  rw [operandValue, get_of_not_has hn] at h
  exact absurd h (Option.some_ne_none v).symm

/-- What takes the last place of a list without repetitions moves to the place of what is
removed. -/
theorem getElem?_swapRemove {us : List OperandId} {p last : OperandId} {i k : Nat} (hn : us.Nodup)
    (hat : us[i]? = some o)
    (hlast : us.getLast? = some last) :
    ((us.set i last).dropLast)[k]? = some p ↔ p ≠ o ∧
      if p = last then k = i else us[k]? = some p := by
  have hinj {j k : Nat} {q : OperandId} (hj : us[j]? = some q) (hk : us[k]? = some q) : j = k :=
    (getElem?_inj (List.getElem?_eq_some_iff.mp hj).1 hn).mp (hj.trans hk.symm)
  grind

theorem WiredOn.removeUse (h : m.Wired) (hread : m.operandValue o = some v) :
    ∃ m', m.removeUse? v o = some m' ∧ m'.WiredOn (· ≠ o) ∧ m'.skeleton = m.skeleton ∧
      m'.readers = m.readers ∧ m'.operandValue = m.operandValue ∧
      (∀ u, u ≠ v → m'.uses u = m.uses u) ∧
      ∀ p, m.operandValue p ≠ some v → m'.operands.get p = m.operands.get p := by
  obtain ⟨i, last, hi, hat, hlast, heq⟩ := removeUse?_eq h hread
  have hv : m.HasValue v := h.made o v trivial hread
  have ho : m.operands.Has o := hasOperand_of_value hread
  have hlastRead : m.operandValue last = some v := h.mem_uses.mp (mem_of_getLast? hlast)
  have hget : ∀ p, ((m.operands.update last ({ · with index := some i })).update o
      ({ · with index := none })).get p =
      if p = o then { m.operands.get p with index := none }
      else if p = last then { m.operands.get p with index := some i } else m.operands.get p := by
    intro p
    rw [get_update _ (by simpa using ho), get_update _ (hasOperand_of_value hlastRead)]
    split <;> split <;> rfl
  have hvalue (p : OperandId) : (((m.operands.update last ({ · with index := some i })).update o
      ({ · with index := none })).get p).value = m.operandValue p := by
    rw [get_update_part _ value, get_update_part _ value]
    all_goals intros; rfl
  refine ⟨_, heq, ⟨?_, ?_, ?_⟩, m.skeleton_modifyUses _ v, ?_, funext hvalue, fun u hu => ?_,
    fun p hp => ?_⟩
  · intro w p k
    show ((m.modifyUses _ v).uses w)[k]? = some p ↔ p ≠ o ∧ _ = some w ∧ _
    rw [uses_modifyUses hv, operandValue, hvalue p]
    by_cases hw : w = v
    · subst hw
      rw [if_pos rfl, getElem?_swapRemove (h.nodup_uses w) hat hlast, hget]
      refine and_congr_right fun hpo => ?_
      rw [if_neg hpo]
      split
      · next hpl =>
        rw [hpl, hlastRead]
        simp [eq_comm]
      · rw [h.registered, true_and]
    · rw [if_neg hw, h.registered w p k, hget, true_and]
      have hpo : m.operandValue p = some w → p ≠ o := by
        rintro hp rfl
        exact hw (mem_unique hp hread)
      have hpl : m.operandValue p = some w → p ≠ last := by
        rintro hp rfl
        exact hw (mem_unique hp hlastRead)
      constructor
      · rintro ⟨hp, hk⟩
        rw [if_neg (hpo hp), if_neg (hpl hp)]
        exact ⟨hpo hp, hp, hk⟩
      · rintro ⟨-, hp, hk⟩
        rw [if_neg (hpo hp), if_neg (hpl hp)] at hk
        exact ⟨hp, hk⟩
  · intro p w hpo hp
    rw [operandValue, hvalue] at hp
    simp only [hget, if_neg hpo]
    split
    · exact ⟨i, rfl⟩
    · exact h.indexed p w trivial hp
  · intro p w _ hp
    rw [operandValue, hvalue] at hp
    show (m.modifyUses _ v).HasValue w
    rw [hasValue_modifyUses]
    exact h.made p w trivial hp
  · show map _ bare = m.readers
    rw [map_update, readers_update]
    · exact fun _ => rfl
    · exact fun _ => rfl
  · exact (uses_modifyUses hv _ u).trans (if_neg hu)
  · exact (hget p).trans (by rw [if_neg (by grind), if_neg (by grind)])

/-! ### Pointing operands at values -/

/-- `m'` is `m` with operands that read `value`; use lists follow. -/
structure Rewires (m m' : Module) (value : OperandId → Option Value) : Prop where
  wired : m'.Wired
  skeleton : m'.skeleton = m.skeleton
  readers : m'.readers = m.readers
  value : m'.operandValue = value

theorem Rewires.refl (h : m.Wired) : m.Rewires m m.operandValue := ⟨h, rfl, rfl, rfl⟩

theorem WiredOn.of_live {live live' : OperandId → Prop} (h : m.WiredOn live)
    (hlive : ∀ p v, m.operandValue p = some v → (live' p ↔ live p)) : m.WiredOn live' where
  registered v p k := by
    rw [h.registered]
    exact and_congr_left fun hp => (hlive p v hp.1).symm
  indexed p v hp hv := h.indexed p v ((hlive p v hv).mp hp) hv
  made p v hp hv := h.made p v ((hlive p v hv).mp hp) hv

theorem wiredOn_iff_wired (ho : m.operandValue o = none) : m.WiredOn (· ≠ o) ↔ m.Wired := by
  have hne : ∀ p v, m.operandValue p = some v → (p ≠ o ↔ True) := by
    refine fun p v hp => iff_true_intro ?_
    rintro rfl
    cases ho.symm.trans hp
  exact ⟨fun h => h.of_live fun p v hp => (hne p v hp).symm, fun h => h.of_live hne⟩

def point (m : Module) (o : OperandId) (v : Option Value) : Module :=
  { m with operands := m.operands.update o ({ · with value := v }) }

theorem operandValue_point (ho : m.operands.Has o) (v : Option Value) :
    (m.point o v).operandValue = Function.update m.operandValue o v := by
  funext p
  simp only [operandValue, point, get_update _ ho, update_apply]
  split <;> rfl

theorem index_point (m : Module) (o : OperandId) (v : Option Value) (p : OperandId) :
    ((m.point o v).operands.get p).index = (m.operands.get p).index :=
  get_update_part _ index o p fun _ => rfl

theorem WiredOn.point (h : m.WiredOn (· ≠ o)) (ho : m.operands.Has o) (v : Option Value) :
    (m.point o v).WiredOn (· ≠ o) where
  registered w p k := by
    show (m.uses w)[k]? = some p ↔ _
    rw [operandValue_point ho, update_apply, index_point, h.registered w p k]
    exact and_congr_right fun hp => by rw [if_neg hp]
  indexed p w hp hw := by
    rw [operandValue_point ho, update_apply, if_neg hp] at hw
    simp only [index_point]
    exact h.indexed p w hp hw
  made p w hp hw := by
    rw [operandValue_point ho, update_apply, if_neg hp] at hw
    exact h.made p w hp hw

theorem skeleton_register (m : Module) (o : OperandId) (v : Option Value) :
    (m.register o v).skeleton = m.skeleton := by
  cases v with
  | none => rfl
  | some w => exact skeleton_addUse (m.point o (some w)) w o

theorem readers_register (m : Module) (o : OperandId) (v : Option Value) :
    (m.register o v).readers = m.readers := by
  have hpoint : (m.point o v).readers = m.readers := readers_update _ _ _ fun _ => rfl
  cases v with
  | none => exact hpoint
  | some w => exact (readers_addUse _ w o).trans hpoint

theorem operandValue_register (ho : m.operands.Has o) (v : Option Value) :
    (m.register o v).operandValue = Function.update m.operandValue o v := by
  cases v with
  | none => exact operandValue_point ho none
  | some w => exact (operandValue_addUse _ w o).trans (operandValue_point ho (some w))

theorem operand_register {p : OperandId} (hp : p ≠ o) (v : Option Value) :
    (m.register o v).operands.get p = m.operands.get p := by
  have hpoint : (m.point o v).operands.get p = m.operands.get p := get_update_of_ne _ hp.symm _
  cases v with
  | none => exact hpoint
  | some w =>
    show (((m.point o (some w)).modifyUses _ w).operands.update o _).get p = _
    rw [get_update_of_ne _ hp.symm, operands_modifyUses]
    exact hpoint

theorem WiredOn.register (h : m.WiredOn (· ≠ o)) (ho : m.operands.Has o) (v : Option Value)
    (hv : ∀ w, v = some w → m.HasValue w) :
    m.Rewires (m.register o v) (Function.update m.operandValue o v) := by
  refine ⟨?_, m.skeleton_register o v, m.readers_register o v, operandValue_register ho v⟩
  have hself : (m.point o v).operandValue o = v := by rw [operandValue_point ho v, update_self]
  cases v with
  | none => exact (wiredOn_iff_wired hself).mp (h.point ho none)
  | some w =>
    have ho' : (m.point o (some w)).operands.Has o := by simpa [Module.point] using ho
    exact (h.point ho _).addUse ho' (hv w rfl) hself

theorem setOperand?_eq (h : m.Wired) (ho : m.operands.Has o) (v : Option Value)
    (hv : ∀ w, v = some w → m.HasValue w) :
    ∃ m', m.setOperand? o v = some m' ∧ m.Rewires m' (Function.update m.operandValue o v) := by
  unfold setOperand?
  by_cases hold : (m.operands.get o).value = v
  · refine ⟨m, if_pos hold, ?_⟩
    rw [← hold]
    have : Function.update m.operandValue o (m.operands.get o).value = m.operandValue :=
      Function.update_eq_self o m.operandValue
    rw [this]
    exact Rewires.refl h
  · rw [if_neg hold]
    cases hcur : (m.operands.get o).value with
    | none => exact ⟨_, rfl, ((wiredOn_iff_wired hcur).mpr h).register ho v hv⟩
    | some w =>
      obtain ⟨m₁, heq, hw, hs, hr, hval, -⟩ := WiredOn.removeUse h hcur
      have hreg := hw.register ((hasOperand_of_readers hr o).mpr ho) v
        fun u hu => (skeleton_hasValue hs u).mpr (hv u hu)
      refine ⟨m₁.register o v, ?_, ?_⟩
      · simp only [heq, Option.map_some]
      · exact ⟨hreg.wired, hreg.skeleton.trans hs, hreg.readers.trans hr, hval ▸ hreg.value⟩

/-- `m'` is `m` with the operands `done`, which read `v`, reading `w` instead. -/
structure Redirects (m m' : Module) (v w : Value) (done : List OperandId) : Prop extends
    Rewires m m' fun o => if o ∈ done then some w else m.operandValue o where
  uses : ∀ u, u ≠ v → m'.uses u = if u = w then m.uses u ++ done else m.uses u
  kept : ∀ p, m.operandValue p ≠ some v → m'.operands.get p = m.operands.get p

theorem Redirects.step {w : Value} {done : List OperandId}
    (h : m.Redirects m' v w done) (hvw : v ≠ w)
    (hw : m.HasValue w) (ho : m.operandValue o = some v) (hnew : o ∉ done) :
    ∃ m'', m'.setOperand? o (some w) = some m'' ∧ m.Redirects m'' v w (done ++ [o]) := by
  have hread : m'.operandValue o = some v := by simp [h.value, hnew, ho]
  obtain ⟨m₁, hfreed, hwired, hskeleton, hreaders, hvalue, huses, hkept⟩ :=
    WiredOn.removeUse h.wired hread
  have hw₁ : m₁.HasValue w := (skeleton_hasValue (hskeleton.trans h.skeleton) w).mpr hw
  have hreg := hwired.register (hasOperand_of_value (hvalue ▸ hread)) (some w) fun u hu =>
    Option.some.inj hu ▸ hw₁
  refine ⟨m₁.register o (some w), ?_, ⟨hreg.wired, ?_, ?_, ?_⟩, fun u hu => ?_, fun p hp => ?_⟩
  · have hold : (m'.operands.get o).value = some v := hread
    simp [setOperand?, hold, hvw, hfreed]
  · exact hreg.skeleton.trans (hskeleton.trans h.skeleton)
  · exact hreg.readers.trans (hreaders.trans h.readers)
  · rw [hreg.value, hvalue, h.value]
    funext p
    by_cases hp : p = o <;> simp [hp]
  · have hadded : _ = if u = w then m₁.uses u ++ [o] else m₁.uses u :=
      uses_addUse (m := m₁.point o (some w)) hw₁ o u
    refine hadded.trans ?_
    rw [huses u hu, h.uses u hu]
    split <;> simp
  · have hpo : p ≠ o := fun hc => hp (hc ▸ ho)
    rw [operand_register hpo, hkept p, h.kept p hp]
    rw [operandValue, h.kept p hp]
    exact hp

/-! ### New operands -/

/-- `m'` is `m` with the operands `os` of `user` added, which read `vs`. -/
structure Appends (m m' : Module) (os : List OperandId) (vs : Args)
    (user : Option InstId) : Prop where
  skeleton : m'.skeleton = m.skeleton
  fresh : ∀ o ∈ os, ¬ m.operands.Has o
  has : ∀ o, m'.operands.Has o ↔ m.operands.Has o ∨ o ∈ os
  old : ∀ o, o ∉ os → m'.operands.get o = m.operands.get o
  owned : ∀ o ∈ os, (m'.operands.get o).user = user
  values : m'.operandValues os = vs

variable {os : List OperandId} {vs : Args}

theorem Appends.user {user : Option InstId} (h : m.Appends m' os vs user) (o : OperandId) :
    (m'.operands.get o).user = if o ∈ os then user else (m.operands.get o).user := by
  split
  · next ho => exact h.owned o ho
  · next ho => rw [h.old o ho]

variable {user : Option InstId}

theorem Appends.value_of_not_mem (h : m.Appends m' os vs user) (o : OperandId) (ho : o ∉ os) :
    m'.operandValue o = m.operandValue o := by
  rw [operandValue, h.old o ho]
  rfl

theorem appends_newOperand (m : Module) (v : Option Value) (user : Option InstId) :
    m.Appends (m.newOperand v user).2 [(m.newOperand v user).1] [v] user := by
  let o := m.operands.next
  let p : Module := { m with operands := m.operands.push { value := none, user } }
  have hget : ∀ q, p.operands.get q = if q = o then { value := none, user } else m.operands.get q :=
    fun q => get_push _ _ q
  have hmem (q) : q ∈ [(m.newOperand v user).1] ↔ q = o := mem_singleton
  have hvalue : (p.register o v).operandValue = Function.update p.operandValue o v :=
    operandValue_register ((has_push _ _ _).mpr (.inr rfl)) v
  refine ⟨p.skeleton_register o v, fun q hq => ?_, fun q => ?_, fun q hq => ?_, fun q hq => ?_, ?_⟩
  · rw [(hmem q).mp hq]
    exact m.operands.not_has_next
  · rw [hmem]
    exact (hasOperand_of_readers (p.readers_register o v) q).trans (has_push _ _ q)
  · rw [hmem] at hq
    exact (operand_register hq v).trans ((hget q).trans (if_neg hq))
  · refine (user_eq_of_readers (p.readers_register o v) q).trans ?_
    rw [hget, if_pos ((hmem q).mp hq)]
  · refine congrArg (fun x => [x]) ((congrFun hvalue o).trans ?_)
    rw [update_self]

theorem Appends.cons {m₁ m₂ : Module} {v : Option Value} (h : m.Appends m₁ [o] [v] user)
    (h' : m₁.Appends m₂ os vs user) : m.Appends m₂ (o :: os) (v :: vs) user := by
  have ho : m₁.operands.Has o := (h.has o).mpr (.inr (mem_singleton_self o))
  have hnot : o ∉ os := fun hc => h'.fresh o hc ho
  refine ⟨h'.skeleton.trans h.skeleton, forall_mem_cons.mpr ⟨h.fresh o (mem_singleton_self o), ?_⟩,
    ?_, ?_,
    forall_mem_cons.mpr ⟨?_, h'.owned⟩, ?_⟩
  · exact fun p hp hc => h'.fresh p hp ((h.has p).mpr (.inl hc))
  · intro p
    rw [h'.has, h.has, mem_singleton, mem_cons, or_assoc]
  · intro p hp
    rw [mem_cons, not_or] at hp
    rw [h'.old p hp.2, h.old p (by simpa using hp.1)]
  · rw [h'.old o hnot]
    exact h.owned o (mem_singleton_self o)
  · have hhead : m₁.operandValue o = v := cons.inj h.values |>.1
    show m₂.operandValue o :: m₂.operandValues os = v :: vs
    rw [h'.value_of_not_mem o hnot, hhead, h'.values]

theorem appends_newOperands (m : Module) (vs : Args) (user : Option InstId) :
    m.Appends (m.newOperands vs user).2 (m.newOperands vs user).1 vs user := by
  induction vs generalizing m with
  | nil => exact ⟨rfl, nofun, by simp [newOperands], fun _ _ => rfl, nofun, rfl⟩
  | cons v vs ih => exact (appends_newOperand m v user).cons (ih _)

theorem wired_newOperands (h : m.Wired) (vs : Args) (user : Option InstId)
    (hvs : ∀ w, some w ∈ vs → m.HasValue w) : (m.newOperands vs user).2.Wired := by
  induction vs generalizing m with
  | nil => exact h
  | cons v vs ih =>
    let p : Module := { m with operands := m.operands.push { value := none, user } }
    have hp : p.Wired := h.congr (fun _ => rfl) (fun _ hw => hw)
      (funext (m.operands.get_push_part_of_default value rfl))
      (m.operands.get_push_part_of_default (x := { value := none, user }) index rfl)
    have hnone : p.operandValue m.operands.next = none := by simp [operandValue, p]
    have hreg := ((wiredOn_iff_wired hnone).mpr hp).register ((has_push _ _ _).mpr (.inr rfl)) v
      fun w hw => hvs w (hw ▸ mem_cons_self)
    exact ih hreg.wired fun w hw =>
      (skeleton_hasValue hreg.skeleton w).mpr (hvs w (mem_cons_of_mem v hw))

structure Adds (m m' : Module) (os : List OperandId) (vs : Args) (user : Option InstId) : Prop
    extends m.Appends m' os vs user where
  wired : m'.Wired

theorem adds_newOperands (h : m.Wired) (vs : Args) (user : Option InstId)
    (hvs : ∀ w, some w ∈ vs → m.HasValue w) :
    m.Adds (m.newOperands vs user).2 (m.newOperands vs user).1 vs user :=
  ⟨m.appends_newOperands vs user, wired_newOperands h vs user hvs⟩

end Module

end Midlevel.Ir
