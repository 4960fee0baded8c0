import Mathlib.Data.List.Nodup
import Mathlib.Data.List.Perm.Subperm
import Mathlib.Order.Bounds.Basic
import Midlevel.Ir.Printer
import Midlevel.Proofs.Ir.Built

/-!
The names of a dump. There are more numbers than names, so a search for a free one always finds it,
and the blocks and the values of a function get names of their own. Calls keep their callee and
branches their exits, so every function can be printed, and what is printed of it is words and
`refs`: its definitions and uses in their order, each by its name.
-/

namespace Midlevel.Ir

open List Midlevel.Ir.Module NameTable

variable {taken : List Text} {base t : Text} {tries : Nat}

/-! ### Searching -/

theorem numbered_inj {n k : Nat} (h : base ++ Text.ofNat n = base ++ Text.ofNat k) : n = k := by
  have hbytes : (toString n).toList.utf8Encode = (toString k).toList.utf8Encode :=
    congrArg toByteArray (append_cancel_left h)
  rw [String.utf8Encode_toList, String.utf8Encode_toList, String.toByteArray_inj] at hbytes
  have hdigits : Nat.toDigits 10 n = Nat.toDigits 10 k := String.ofList_injective hbytes
  calc
    n = Nat.ofDigitChars 10 (Nat.toDigits 10 n) 0 := Nat.ofDigitChars_ten_toDigits.symm
    _ = Nat.ofDigitChars 10 (Nat.toDigits 10 k) 0 := by rw [hdigits]
    _ = k := Nat.ofDigitChars_ten_toDigits

theorem freeNumber_spec (taken : List Text) (base : Text) (tries n : Nat) :
    n ≤ freeNumber taken base tries n ∧
    (∀ k, n ≤ k → k < freeNumber taken base tries n → base ++ Text.ofNat k ∈ taken) ∧
    (base ++ Text.ofNat (freeNumber taken base tries n) ∈ taken →
      freeNumber taken base tries n = n + tries) := by
  induction tries generalizing n with
  | zero => exact ⟨le_refl n, fun k hk hlt => absurd hk (not_le.mpr hlt), fun _ => rfl⟩
  | succ tries ih =>
    unfold freeNumber
    split
    · next hn =>
      obtain ⟨hle, hbelow, hend⟩ := ih (n + 1)
      refine ⟨by omega, fun k hk hlt => ?_, fun h => by rw [hend h]; omega⟩
      rcases Nat.eq_or_lt_of_le hk with rfl | hk
      · exact hn
      · exact hbelow k hk hlt
    · next hn => exact ⟨le_refl n, fun k hk hlt => absurd hk (not_le.mpr hlt), fun h => absurd h hn⟩

/-- Among more numbers than there are names one is free, so the search ends before the tries do. -/
theorem freeNumber_least (base : Text) (n : Nat) (h : taken.length ≤ tries) :
    IsLeast {k | n ≤ k ∧ base ++ Text.ofNat k ∉ taken} (freeNumber taken base tries n) := by
  obtain ⟨hle, hbelow, hend⟩ := freeNumber_spec taken base tries n
  refine ⟨⟨hle, fun hmem => ?_⟩, fun k hk => ?_⟩
  · have hnodup : ((range (tries + 1)).map fun i => base ++ Text.ofNat (n + i)).Nodup :=
      nodup_range.map fun i j hij => Nat.add_left_cancel (numbered_inj hij)
    have hsub : ((range (tries + 1)).map fun i => base ++ Text.ofNat (n + i)) ⊆ taken := by
      intro x hx
      obtain ⟨i, hi, rfl⟩ := mem_map.mp hx
      rcases Nat.eq_or_lt_of_le (Nat.le_of_lt_succ (mem_range.mp hi)) with rfl | hi
      · exact hend hmem ▸ hmem
      · exact hbelow _ (Nat.le_add_right n i) (by rw [hend hmem]; omega)
    have hlength := (hnodup.subperm hsub).length_le
    simp at hlength
    omega
  · by_contra hlt
    exact hk.2 (hbelow k hk.1 (not_le.mp hlt))

theorem freshName_not_mem (taken : List Text) (base : Text) : freshName taken base ∉ taken := by
  unfold freshName
  split
  · exact (freeNumber_least base 1 (le_refl _)).1.2
  · assumption

/-! ### Names -/

namespace NameTable

variable {α : Type} {ns : NameTable α} {a b : α}

def Distinct (ns : NameTable α) : Prop := ns.taken.Nodup

theorem Distinct.cons (h : ns.Distinct) (ht : t ∉ ns.taken) : Distinct ((a, t) :: ns) :=
  nodup_cons.mpr ⟨ht, h⟩

theorem Distinct.give (h : ns.Distinct) (a : α) (base : Text) : (ns.give a base).Distinct :=
  h.cons (freshName_not_mem _ _)

def owners (ns : NameTable α) : List α := ns.map (·.1)

theorem fold_all {σ : Type} (names : σ → NameTable α) (step : σ → α → σ)
    (hstep : ∀ s a, (names s).Distinct → (names (step s a)).Distinct ∧
      a ∈ (names (step s a)).owners ∧ (names s).owners ⊆ (names (step s a)).owners)
    (as : List α) (s : σ) (h : (names s).Distinct) : (names (as.foldl step s)).Distinct ∧
      (names s).owners ⊆ (names (as.foldl step s)).owners ∧
      as ⊆ (names (as.foldl step s)).owners := by
  induction as generalizing s with
  | nil => exact ⟨h, List.Subset.refl _, nil_subset _⟩
  | cons a as ih =>
    obtain ⟨hdistinct, ha, hold⟩ := hstep s a h
    obtain ⟨hdistinct, hkept, has⟩ := ih (step s a) hdistinct
    exact ⟨hdistinct, fun b hb => hkept (hold hb), cons_subset.mpr ⟨hkept ha, has⟩⟩

variable [DecidableEq α]

theorem mem_of_name? (h : ns.name? a = some t) : (a, t) ∈ ns := by
  obtain ⟨p, hp, rfl⟩ := Option.map_eq_some_iff.mp h
  have hid := find?_some hp
  rw [← of_decide_eq_true hid]
  exact mem_of_find?_eq_some hp

theorem Distinct.eq (h : ns.Distinct) (ha : ns.name? a = some t)
    (hb : ns.name? b = some t) : a = b :=
  congrArg Prod.fst (inj_on_of_nodup_map h (mem_of_name? ha) (mem_of_name? hb) rfl)

theorem name?_of_mem (h : a ∈ ns.owners) : ∃ t, ns.name? a = some t := by
  obtain ⟨p, hp, rfl⟩ := mem_map.mp h
  refine Option.isSome_iff_exists.mp ?_
  simpa [name?] using ⟨p.2, hp⟩

theorem number_spec (s : NameTable α × Nat) (a : α) (h : s.1.Distinct) : (number s a).1.Distinct ∧
    a ∈ (number s a).1.owners ∧ s.1.owners ⊆ (number s a).1.owners := by
  unfold number
  dsimp only
  split
  · next t ht => exact ⟨h, mem_map_of_mem (mem_of_name? ht), List.Subset.refl _⟩
  · exact ⟨h.cons (freeNumber_least [] s.2 (length_map _).le).1.2, mem_cons_self,
      subset_cons_self _ _⟩

end NameTable

namespace Naming

variable {m : Module} {f : FuncId}

theorem distinct_nameValues (vs : List Value) (ns : NameTable Value) (h : ns.Distinct) :
    (nameValues m ns vs).Distinct := by
  induction vs generalizing ns with
  | nil => exact h
  | cons v vs ih =>
    refine ih _ ?_
    dsimp only
    split
    · exact h
    · exact h.give v _

theorem ofFunc_values (m : Module) (f : FuncId) : (ofFunc m f).values.Distinct ∧
    ∀ v ∈ (m.funcs.get f).blocks.flatMap (definitions m), ∃ t, (ofFunc m f).value? v = some t := by
  obtain ⟨hdistinct, -, hvalues⟩ := fold_all Prod.fst number number_spec
    ((m.funcs.get f).blocks.flatMap (definitions m)) (nameValues m [] _, 0)
      (distinct_nameValues _ [] .nil)
  exact ⟨hdistinct, fun v hv => name?_of_mem (hvalues hv)⟩

end Naming

/-! ### References -/

namespace Module

variable (m : Module)

def operandRefs (os : List OperandId) : List Piece := (m.operandValues os).map .value

def edgeRefs (e : EdgeId) : List Piece :=
  .block (m.edges.get e).target :: m.operandRefs (m.edges.get e).args

/-- The operands of an instruction and where it goes to. Literals and allocations have no
operands. -/
def argRefs (i : Inst) : List Piece :=
  match i.op with
  | .intLiteral | .boolLiteral | .stringLiteral | .alloc | .allocObject => []
  | .br => (i.targets.take 1).flatMap m.edgeRefs
  | .condBr => m.operandRefs i.operands ++ (i.targets.take 2).flatMap m.edgeRefs
  | _ => m.operandRefs i.operands

def instRefs (i : InstId) : List Piece :=
  (if (m.insts.get i).type = .void then [] else [.value (some (.inst i))]) ++
    m.argRefs (m.insts.get i)

def blockRefs (b : BlockId) : List Piece :=
  .block (some b) :: (m.blocks.get b).params.map (fun p => .value (some (.param p))) ++
    (m.blocks.get b).insts.flatMap m.instRefs

end Module

def refs (ps : List Piece) : List Piece := ps.filter fun | .words _ => false | _ => true

variable {m : Module} {f : FuncId} {ps : List Piece}

@[simp] theorem refs_nil : refs [] = [] := rfl

@[simp] theorem refs_append (ps qs : List Piece) : refs (ps ++ qs) = refs ps ++ refs qs :=
  filter_append ..

@[simp] theorem refs_said (t : Text) : refs (said t) = [] := rfl

@[simp] theorem refs_value (v : Option Value) (ps : List Piece) :
    refs (.value v :: ps) = .value v :: refs ps := rfl

@[simp] theorem refs_block (b : Option BlockId) (ps : List Piece) :
    refs (.block b :: ps) = .block b :: refs ps := rfl

theorem refs_commas (pss : List (List Piece)) : refs (Piece.commas pss) = pss.flatMap refs := by
  induction pss with
  | nil => rfl
  | cons ps pss ih => cases pss with
    | nil => simp [Piece.commas, intercalate]
    | cons qs pss =>
      have hstep : Piece.commas (ps :: qs :: pss) = ps ++ said ", " ++
          Piece.commas (qs :: pss) := by
        simp [Piece.commas, intercalate, said]
      simp [hstep, ih]

@[simp] theorem refs_showOperands (os : List OperandId) :
    refs (m.showOperands os) = m.operandRefs os := by
  simp [showOperands, operandRefs, refs_commas, flatMap_map, ← map_eq_flatMap]

@[simp] theorem refs_showEdge (e : EdgeId) : refs (m.showEdge e) = m.edgeRefs e := by
  simp only [showEdge, edgeRefs]
  cases (m.edges.get e).args with
  | nil => rfl
  | cons o os => simp

/-- What is shown of something can be shown, and refers to `rs`. -/
def Refers (shown : Except Crash (List Piece)) (rs : List Piece) : Prop :=
  ∃ ps, shown = .ok ps ∧ refs ps = rs

theorem Refers.map {shown : Except Crash (List Piece)} {rs rs' : List Piece} (h : Refers shown rs)
    {g : List Piece → List Piece} (hg : ∀ ps, refs ps = rs → refs (g ps) = rs') :
    Refers (shown.map g) rs' := by
  obtain ⟨ps, rfl, hps⟩ := h
  exact ⟨g ps, rfl, hg ps hps⟩

theorem refers_showArgs {i : Inst} (hexits : i.targets.length = i.op.exits)
    (htakes : i.op.Takes i.operands.length) : Refers (m.showArgs i) (m.argRefs i) := by
  unfold showArgs argRefs
  cases hop : i.op with
  | call | apply =>
    rw [hop] at htakes
    obtain ⟨o, os, hos⟩ := exists_cons_of_length_pos (Nat.pos_of_ne_zero htakes)
    rw [hos]
    exact ⟨_, rfl, by simp [operandRefs, operandValues]⟩
  | br =>
    rw [hop] at hexits
    obtain ⟨e, he⟩ := length_eq_one_iff.mp hexits
    rw [he]
    exact ⟨_, rfl, by simp⟩
  | condBr =>
    rw [hop] at hexits
    obtain ⟨t, e, he⟩ := length_eq_two.mp hexits
    rw [he]
    exact ⟨_, rfl, by simp⟩
  | releaseObject | deallocObject | existentialRelease =>
    refine ⟨_, rfl, ?_⟩
    split <;> simp
  | _ => exact ⟨_, rfl, by simp⟩

theorem refs_of_blank (h : ps.all Piece.isBlank) : refs ps = [] := by
  refine filter_eq_nil_iff.mpr fun p hp => ?_
  have hblank := all_eq_true.mp h p hp
  cases p with
  | words => simp
  | value | block => cases hblank

theorem refers_showAll {α : Type} {shown : α → Except Crash (List Piece)} {names : α → List Piece}
    {as : List α} (h : ∀ a ∈ as, Refers (shown a) (names a)) :
    Refers (showAll shown as) (as.flatMap names) := by
  induction as with
  | nil => exact ⟨[], rfl, rfl⟩
  | cons a as ih =>
    obtain ⟨ps, hps, hrefs⟩ := h a mem_cons_self
    obtain ⟨qs, hqs, hrest⟩ := ih fun b hb => h b (mem_cons_of_mem a hb)
    unfold showAll at hqs ⊢
    rw [mapM_cons, hps]
    cases hrun : as.mapM shown with
    | error c =>
      rw [hrun] at hqs
      cases hqs
    | ok pss =>
      rw [hrun] at hqs
      obtain rfl := Except.ok.inj hqs
      refine ⟨ps ++ pss.flatten, rfl, ?_⟩
      rw [refs_append, hrefs, hrest, flatMap_cons]

section

variable (h : m.view.Shape)
include h

theorem refers_showInst {b : BlockId} {i : InstId} (hi : i ∈ (m.blocks.get b).insts) :
    Refers (m.showInst i) (m.instRefs i) := by
  have herased : (m.insts.get i).erased = false := Bool.eq_false_iff.mpr fun herased => by
    have hblock := (h.formed.erased i herased).1
    rw [h.insts.placed i b hi] at hblock
    cases hblock
  have hexits := h.formed.exits i herased
  have htakes := h.formed.takes i herased
  simp only [view, viewWith, length_map] at hexits htakes
  refine (refers_showArgs hexits htakes).map fun args hargs => ?_
  dsimp only
  split <;> split <;> simp_all [instRefs, refs_of_blank]

theorem refers_showBlock (b : BlockId) : Refers (m.showBlock b) (m.blockRefs b) := by
  have hlines : Refers (showAll m.showLine (m.blocks.get b).insts)
      ((m.blocks.get b).insts.flatMap m.instRefs) :=
    refers_showAll fun i hi => (refers_showInst h hi).map fun shown hshown => by simp [hshown]
  refine hlines.map fun lines hrefs => ?_
  cases hps : (m.blocks.get b).params <;>
    simp [showBlockHeader, blockRefs, hps, hrefs, refs_commas, flatMap_map, ← map_eq_flatMap]

end

/-! ### Functions -/

theorem Naming.ofFunc_blocks (m : Module) (f : FuncId) : (Naming.ofFunc m f).blocks.Distinct ∧
    ∀ b ∈ (m.funcs.get f).blocks, (Naming.ofFunc m f).blocks.name? b = some
    ((Naming.ofFunc m f).block b) := by
  obtain ⟨hdistinct, -, hblocks⟩ := fold_all id (fun ns b => ns.give b (m.blocks.get b).name)
    (fun ns b h => ⟨h.give b _, mem_cons_self, subset_cons_self _ _⟩) (m.funcs.get f).blocks [] .nil
  refine ⟨hdistinct, fun b hb => ?_⟩
  obtain ⟨t, ht⟩ := name?_of_mem (hblocks hb)
  have ht : (Naming.ofFunc m f).blocks.name? b = some t := ht
  simp [Naming.block, ht]

/-- Dumps are unambiguous. Every search for a name ends, with the first free number; blocks have
names of their own, and so have values; and every function that is still in the module can be
printed: the text of its body is made of words and of all that is defined or used in it, in its
order, each shown by its name. -/
theorem dumps_unambiguous {s : Builder} (h : Built s) (f : FuncId)
    (hf : (s.module.funcs.get f).removed = false) :
    (∀ taken base tries n, List.length taken ≤ tries →
      IsLeast {k | n ≤ k ∧ base ++ Text.ofNat k ∉ taken} (freeNumber taken base tries n)) ∧
    (∀ b ∈ (s.module.funcs.get f).blocks,
      (Naming.ofFunc s.module f).shown s.module (.block (some b)) = "#" ++
      (Naming.ofFunc s.module f).block b ∧
      ∀ c ∈ (s.module.funcs.get f).blocks,
        (Naming.ofFunc s.module f).block c = (Naming.ofFunc s.module f).block b → c = b) ∧
    (∀ v ∈ (s.module.funcs.get f).blocks.flatMap (Naming.definitions s.module), ∃ name,
      (Naming.ofFunc s.module f).shown s.module (.value (some v)) = "%" ++ name ∧
      (Naming.ofFunc s.module f).value? v = some name ∧
      ∀ w, (Naming.ofFunc s.module f).value? w = some name → w = v) ∧
    ∃ body, refs body = (s.module.funcs.get f).blocks.flatMap s.module.blockRefs ∧
      s.module.showFunc f = .ok (s.module.showHeader f ++ if (s.module.funcs.get f).defined then
        " \x7b\n" ++ body.flatMap ((Naming.ofFunc s.module f).shown s.module) ++ "\x7d\n"
        else "\n") := by
  refine ⟨fun taken base tries n h => freeNumber_least base n h,
    fun b hb => ⟨rfl, fun c hc hbc => ?_⟩,
    fun v hv => ?_, ?_⟩
  · obtain ⟨hdistinct, hnamed⟩ := Naming.ofFunc_blocks s.module f
    exact hdistinct.eq (hnamed c hc) (hbc ▸ hnamed b hb)
  · obtain ⟨hdistinct, hnamed⟩ := Naming.ofFunc_values s.module f
    obtain ⟨name, hname⟩ := hnamed v hv
    refine ⟨name, ?_, hname, fun w hw => hdistinct.eq hw hname⟩
    obtain ⟨b, -, hv⟩ := mem_flatMap.mp hv
    simp only [Naming.definitions, mem_append, mem_map] at hv
    obtain ⟨p, -, rfl⟩ | ⟨i, -, rfl⟩ := hv <;> simp only [Naming.shown, hname]
  · obtain ⟨body, hbody, hrefs⟩ :
        Refers (showAll s.module.showBlock (s.module.funcs.get f).blocks) _ :=
      refers_showAll fun b _ => refers_showBlock h.sound.shape b
    refine ⟨body, hrefs, ?_⟩
    cases hd : (s.module.funcs.get f).defined with
    | false => simp [Module.showFunc, hd, pure, Except.pure]
    | true => simp [Module.showFunc, hd, hf, hbody, bind, Except.bind, pure, Except.pure]

section

open Build

def pairType : TypeId × TypeTable :=
  TypeTable.initial.function { params := [.bool, .bool], result := .bool, conv := default,
                               self := .none }

/-- Two blocks of one name; a literal with the name of a parameter, one with the name that the first
gets, and one without a name, while the other parameter is called like a number. -/
def clashing : Builder :=
  after (ret (some (.inst ⟨2⟩))) <|
  after (positionAtEnd ⟨1⟩) <|
  after (br (some ⟨1⟩) [some (.inst ⟨0⟩), some (.param ⟨0⟩)]) <|
  after (positionAtEnd ⟨0⟩) <|
  after (appendBlock "entry" [⟨"x", .bool⟩, ⟨"", .bool⟩]) <|
  after (boolLiteral true) <|
  after (setName (.inst ⟨1⟩) "x1") <|
  after (boolLiteral true) <|
  after (setName (.inst ⟨0⟩) "x") <|
  after (boolLiteral true) <|
  after (buildFunction "f" pairType.1 ["x", "0"]) <|
  after (modifyModule ({ · with types := pairType.2, providers := [], typeDecls := [] }))
    { module := { name := "m" } }

theorem clashing_printed : Built clashing ∧ (clashing.module.funcs.get ⟨0⟩).removed = false ∧
    (clashing.module.showFunc ⟨0⟩).toOption = some (Text.join "\n"
      ["func @f : &thin (Builtin.Bool, Builtin.Bool) -> Builtin.Bool \x7b",
        "#entry(%x: Builtin.Bool, %0: Builtin.Bool):",
        "  %x1 = bool_literal true : Builtin.Bool",
        "  %x11 = bool_literal true : Builtin.Bool",
        "  %1 = bool_literal true : Builtin.Bool",
        "  br #entry1(%x1, %x)",
        "#entry1(%x2: Builtin.Bool, %2: Builtin.Bool):",
        "  return %1",
        "\x7d\n"]) ∧
    ∀ v ∈ (clashing.module.funcs.get ⟨0⟩).blocks.flatMap (Naming.definitions clashing.module),
      ∃ name,
      (Naming.ofFunc clashing.module ⟨0⟩).shown clashing.module (.value (some v)) = "%" ++ name ∧
      (Naming.ofFunc clashing.module ⟨0⟩).value? v = some name ∧
      ∀ w, (Naming.ofFunc clashing.module ⟨0⟩).value? w = some name → w = v := by
  have hbuilt : Built clashing := by
    repeat refine built_after ?_
    exact .new _
  have hthere : (clashing.module.funcs.get ⟨0⟩).removed = false := by decide +kernel
  exact ⟨hbuilt, hthere, by decide +kernel, (dumps_unambiguous hbuilt ⟨0⟩ hthere).2.2.1⟩

end

end Midlevel.Ir
