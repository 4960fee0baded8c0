import Midlevel.Proofs.Lowering.Declarations

/-!
Boxes of concepts. An instruction that asks a box for a member names a member of the box's concept
and has the type the concept states; what is behind the box has such a member if its type declares
to conform.
-/

namespace Midlevel.Ir

variable {m : Module}

/-! ### Instructions stay proper -/

theorem Inst.proper_core (types : TypeTable) (x : Inst) : x.core.Proper types ↔ x.Proper types :=
  Iff.rfl

theorem Inst.Proper.mono {types types' : TypeTable} {x : Inst} (h : x.Proper types)
    (hext : types.Extends types') : x.Proper types' := by
  unfold Inst.Proper at h ⊢
  split
  · next hop =>
    rw [hop] at h
    exact hext.kind h (by simp)
  · next hop =>
    rw [hop] at h
    obtain ⟨index, hm⟩ := h
    exact ⟨index, hext.method? hm⟩
  · next hop =>
    rw [hop] at h
    obtain ⟨index, p, hp, he⟩ := h
    exact ⟨index, p, hext.property? hp, hext.pointee? he⟩
  · trivial

def Module.Proper (m : Module) : Prop := ∀ i, (m.insts.get i).Proper m.types

theorem Module.proper_of_no_insts (h : m.insts.entries.size = 0) : m.Proper := by
  intro i
  have : m.insts.get i = default := by
    simp [Pool.get, h]
  rw [this]
  trivial

/-- The types are extended, and instructions stay proper. -/
structure KeepsProper (m m' : Module) : Prop where
  types : m.types.Extends m'.types
  proper : m.types.Rooted → m.Proper → m'.Proper

instance : IsPreorder Module KeepsProper where
  refl _ := ⟨.rfl, fun _ h => h⟩
  trans _ _ _ h h' := ⟨h.types.trans h'.types,
    fun hr hp => h'.proper (h.types.rooted hr) (h.proper hr hp)⟩

instance : Framing KeepsProper where
  quiet m m' h := by
    refine ⟨h.types_eq ▸ .rfl, fun _ hp i => ?_⟩
    rw [h.types_eq, ← Inst.proper_core, h.core_eq i]
    exact hp i
  types m t h := ⟨h, fun _ hp i => (hp i).mono h⟩
  inst m x hx := by
    refine ⟨.rfl, fun hr hp i => ?_⟩
    show ((m.insts.push x).get i).Proper m.types
    rw [Pool.get_push]
    split
    · exact hx hr
    · exact hp i
  func m x _ := ⟨.rfl, fun _ hp => hp⟩
  refine_ m f g _ := ⟨.rfl, fun _ hp => hp⟩

end Midlevel.Ir

namespace Midlevel.Lowering

open Ir Midlevel.Tree Build

variable {tree : Tree.Module}
variable {m : Ir.Module} {R : Ir.Module → Ir.Module → Prop} {P : Ir.Module → Prop} {s : Builder}

/-! ### The members behind a box -/

/-- What the type `t` has for the members that code asks boxes of the concept `c` for. -/
structure Resolves (tree : Tree.Module) (m : Ir.Module) (t c : TypeId) : Prop where
  provides : ∃ info, Provides tree.types m.types t c info
  witness : ∀ i, (m.insts.get i).op = .existentialWitness → (m.insts.get i).payload.aggregate = c →
    HasMethod tree.types m.types t (m.insts.get i).payload.field ∧
      ∃ k, m.types.method? c (m.insts.get i).payload.field = some (k, (m.insts.get i).type)
  property : ∀ i, (m.insts.get i).op = .existentialPropertyPtr →
    (m.insts.get i).payload.aggregate = c →
    ∃ k p, m.types.field? t (m.insts.get i).payload.field = some (k, p) ∧
      m.types.pointee? (m.insts.get i).type = some p

theorem mem_of_memberNamed {ms : List Member} {name : Text} {r : Nat × TypeId}
    (h : TypeTable.memberNamed? ms name = some r) : ⟨name, r.2⟩ ∈ ms := by
  unfold TypeTable.memberNamed? at h
  split at h
  · next i hi =>
    obtain ⟨a, ha, rfl⟩ := Option.map_eq_some_iff.mp h
    have hname := (List.findIdx?_eq_some_iff_getElem.mp hi)
    obtain ⟨hlt, hp, -⟩ := hname
    rw [List.getElem?_eq_getElem hlt, Option.some.injEq] at ha
    subst ha
    have : (⟨name, ms[i].type⟩ : Member) = ms[i] := by
      rw [← of_decide_eq_true hp]
    rw [this]
    exact List.getElem_mem hlt
  · cases h

theorem resolves_of_provides {t c : TypeId} {info : ConceptInfo} (hproper : m.Proper)
    (h : Provides tree.types m.types t c info) : Resolves tree m t c where
  provides := ⟨info, h⟩
  witness i hop hc := by
    have hi := hproper i
    unfold Inst.Proper at hi
    rw [hop, hc] at hi
    obtain ⟨k, hk⟩ := hi
    refine ⟨?_, k, hk⟩
    have hmem := hk
    unfold TypeTable.method? at hmem
    rw [h.concept] at hmem
    exact h.method _ (mem_of_memberNamed hmem)
  property i hop hc := by
    have hi := hproper i
    unfold Inst.Proper at hi
    rw [hop, hc] at hi
    obtain ⟨k, p, hk, hp⟩ := hi
    unfold TypeTable.property? at hk
    rw [h.concept] at hk
    obtain ⟨j, hj⟩ := h.property _ (mem_of_memberNamed hk)
    exact ⟨j, p, hj, hp⟩

/-! ### Whole modules -/

/-- The module comes, by steps that `R` allows, from one with declared types and no code. -/
def FromTypes (tree : Tree.Module) (R : Ir.Module → Ir.Module → Prop)
    (start m : Ir.Module) : Prop :=
  ∃ m₀, Declares start m₀ ∧ (∀ d ∈ tree.types, ∃ t, m₀.types.nominal? d.name = some t ∧
    Conformances tree.types m₀.types t d.conforms) ∧ R m₀ m

theorem wp_bareModule_of_bodies [Framing R] (hP : ∀ m m', R m m' → P m → P m') {name : Text}
    {library : Bool}
    (h : ∀ (int bool : TypeId) (s' : Builder), Declares s.module s'.module →
      wp (declareAll tree int bool >>= fun bodies => bodies.forM (bareBody int bool))
      (fun _ t => P t.module) Any s') :
    wp (bareModule tree name library) (fun _ t => P t.module) Any s := by
  unfold bareModule
  rw [wp_bind, wp_onTypes]
  have hbodies := h (libraryTypes s.module.types).1.1 (libraryTypes s.module.types).1.2
    { s with module := s.module.withTypes (libraryTypes s.module.types).2 }
    (TypeFraming.types _ _ (TypeTable.extends_libraryTypes _))
  rw [wp_bind] at hbodies ⊢
  refine wp_imp hbodies fun bodies t ht => wp_bind_of_frames hP ht fun _ => ?_
  refine .ite (h := .next fun _ => .next fun _ => .next fun s => ?_) (g := .next fun _ =>
    .next fun s => ?_)
  · split <;> infer_instance
  · split <;> infer_instance

theorem wp_bareModule [Framing R] (tree : Tree.Module) (name : Text) (library : Bool) :
    wp (bareModule tree name library) (fun _ t => FromTypes tree R s.module t.module) Any s := by
  have hP (m m' : Ir.Module) (hR : R m m') : FromTypes tree R s.module m →
      FromTypes tree R s.module m' := by
    rintro ⟨m₀, hm₀, hconf, h⟩
    exact ⟨m₀, hm₀, hconf, trans_of R h hR⟩
  refine wp_bareModule_of_bodies hP fun int bool s' hs => ?_
  refine wp_bind_of_frames hP ?_ inferInstance
  refine wp_bind_keeping (R := Declares) (fun _ _ h h' => trans_of Declares h' h) hs
    fun _ b hb => ?_
  refine wp_bind_keeping (R := Declares) (fun _ _ h h' => trans_of Declares h' h) hb
    fun _ b hb => ?_
  refine wp_bind_of_frames hP ?_ inferInstance
  exact wp_mono (wp_declareTypes tree.types)
    (fun _ c ⟨hc, hconf⟩ => ⟨c.module, trans_of Declares hb hc, hconf, refl_of R _⟩) fun _ _ _ =>
      trivial

theorem holds_of_generate {options : Options} {tracer : Trace.Tracer} {parent : UInt64}
    (h : (generate tree options tracer parent).1 = .ok m)
    (hP : ∀ name, wp (bareModule tree name options.library) (fun _ t => P t.module) Any
      { module := blank name }) :
    P m := by
  rw [generate_eq] at h
  exact of_map_run (f := fun _ (t : Builder) => t.module) h (hP _)

/-! ### Boxes -/

/-- The struct that values of a type are instances of: the type itself, or what it refers to. -/
def structBehind (types : TypeTable) (t : TypeId) : TypeId :=
  match types.pointee? t with
  | some box => if types.kind box = .refBox then ((types.desc? box).map (·.elem)).getD .none else t
  | none => t

theorem boxed_members_resolve {tree : Tree.Module} {options : Options} {tracer : Trace.Tracer}
    {parent : UInt64}
    {m : Ir.Module} (h : (generate tree options tracer parent).1 = .ok m) :
    (∀ d ∈ tree.types, ∀ name ∈ d.conforms, ∃ t c, m.types.nominal? d.name = some t ∧
      m.types.nominal? name = some c ∧ Resolves tree m t c) ∧
    ∀ i, (m.insts.get i).op = .existentialBox → m.types.kind (m.insts.get i).type = .concept ∧
      ∀ d ∈ tree.types, m.types.nominal? d.name = some
      (structBehind m.types (m.insts.get i).payload.subject) →
        ∀ name ∈ d.conforms, m.types.nominal? name = some (m.insts.get i).type →
          Resolves tree m (structBehind m.types (m.insts.get i).payload.subject)
          (m.insts.get i).type := by
  have hfrom : ∃ name, FromTypes tree KeepsProper (blank name) m := by
    refine holds_of_generate (P := fun m => ∃ name, FromTypes tree KeepsProper (blank name) m) h
      fun name => ?_
    exact wp_imp (wp_bareModule (R := KeepsProper) tree name options.library) fun _ t ht =>
      ⟨name, ht⟩
  obtain ⟨name, m₀, hm₀, hconf, hkeep⟩ := hfrom
  have hempty : m₀.insts.entries.size = 0 := by
    have := congrArg (fun o => o.insts.entries.size) hm₀.outline
    simpa [Module.outline, blank] using this
  have hproper : m.Proper :=
    hkeep.proper (hm₀.rooted TypeTable.rooted_initial) (Module.proper_of_no_insts hempty)
  have hdeclared : ∀ d ∈ tree.types, ∀ name ∈ d.conforms, ∃ t c, m.types.nominal? d.name = some t ∧
      m.types.nominal? name = some c ∧ Resolves tree m t c := by
    intro d hd name hname
    obtain ⟨t, ht, hall⟩ := hconf d hd
    obtain ⟨c, info, hc, hinfo⟩ := hall name hname
    exact ⟨t, c, hkeep.types.nominal? ht, hkeep.types.nominal? hc,
      resolves_of_provides hproper (hinfo.mono hkeep.types)⟩
  refine ⟨hdeclared, fun i hop => ⟨?_, fun d hd ht name hname hc => ?_⟩⟩
  · have hi := hproper i
    unfold Inst.Proper at hi
    rw [hop] at hi
    exact hi
  · obtain ⟨t', c', ht', hc', hres⟩ := hdeclared d hd name hname
    rw [ht, Option.some.injEq] at ht'
    rw [hc, Option.some.injEq] at hc'
    rw [ht', hc']
    exact hres

/-- A concept with a property and a method, a heap struct that conforms to it, and code that boxes
an instance and asks the box for both. -/
def conforming : Tree.Module where
  name := "m"
  library := true
  types := [
    { code := 1, name := "C", methods := [{ name := "run" }],
      fields := [{ name := "size", type := .int }] },
    { name := "S", heap := true, conforms := ["C"], fields := [{ name := "size", type := .int }],
      methods := [{ name := "run", symbol := "S_run", hasBody := true }] }]
  funcs := [
    .define "f" "f" [{ name := "s", type := .named "S" }] .void [
      .letTyped "c" (.named "C") (.varRef "s" (.named "S")),
      .eval (.methodCall (.varRef "c" (.named "C")) "run" [] .void []),
      .letVar "n" (.fieldOf (.varRef "c" (.named "C")) "size" .int)]]

theorem conforming_members_resolve : ∃ m, (generate conforming {} .off 0).1 = .ok m ∧
    (∀ d ∈ conforming.types, ∀ name ∈ d.conforms, ∃ t c, m.types.nominal? d.name = some t ∧
      m.types.nominal? name = some c ∧ Resolves conforming m t c) ∧
    [Opcode.existentialBox, .existentialWitness, .existentialPropertyPtr] ⊆
      m.insts.ids.map fun i => (m.insts.get i).op := by
  have h : checked (generate conforming {} .off 0).1 (fun m => decide
      ([Opcode.existentialBox, .existentialWitness, .existentialPropertyPtr] ⊆
        m.insts.ids.map fun i => (m.insts.get i).op)) = true := by decide +kernel
  obtain ⟨m, hm, hops⟩ := exists_of_decided h
  exact ⟨m, hm, (boxed_members_resolve hm).1, hops⟩

/-! ### Signatures are not compared -/

/-- Function types with the same parameters and the same result. -/
def sameSignature (types : TypeTable) (a b : TypeId) : Bool :=
  (types.signature? a).map (fun s => (s.params, s.result)) = (types.signature? b).map fun s =>
    (s.params, s.result)

/-- A concept with a method that returns a number, and a struct whose method of that name
takes one. -/
def mismatched : Tree.Module where
  name := "m"
  library := true
  types := [
    { code := 1, name := "C", methods := [{ name := "run", result := .int }] },
    { name := "S", conforms := ["C"],
      methods := [{ name := "run", symbol := "S_run", hasBody := true,
                    params := [{ name := "x", type := .int }] }] }]
  funcs := [
    .define "f" "f" [{ name := "s", type := .named "S" }] .void
      [.letTyped "c" (.named "C") (.varRef "s" (.named "S"))]]

/-- A struct passes for a concept, and is boxed, although its method has another signature. -/
theorem mismatched_method_boxed : ∃ m, (generate mismatched {} .off 0).1 = .ok m ∧
    ∃ i ∈ m.insts.ids, ∃ f ∈ m.order, (m.insts.get i).op = .existentialBox ∧
      m.types.nominal? "S" = some (structBehind m.types (m.insts.get i).payload.subject) ∧
      m.types.nominal? "C" = some (m.insts.get i).type ∧ (m.funcs.get f).name = "S_run" ∧
      (m.types.method? (m.insts.get i).type "run").map
      (fun r => sameSignature m.types r.2 (m.funcs.get f).type) =
        some false := exists_of_decided (by decide +kernel)

/-- A concept with a property and a method, and a struct that has neither and does not declare
to conform. -/
def unrelated : Tree.Module where
  name := "m"
  library := true
  types := [
    { code := 1, name := "C", methods := [{ name := "run" }],
      fields := [{ name := "size", type := .int }] },
    { name := "S" }]
  funcs := [
    .define "f" "f" [{ name := "s", type := .named "S" }] .void
      [.letTyped "c" (.named "C") (.varRef "s" (.named "S"))]]

/-- Boxing does not ask for a conformance. -/
theorem unrelated_struct_boxed : (∀ d ∈ unrelated.types, d.conforms = []) ∧
    ∃ m, (generate unrelated {} .off 0).1 = .ok m ∧ ∃ i ∈ m.insts.ids,
      (m.insts.get i).op = .existentialBox ∧
      m.types.nominal? "S" = some (structBehind m.types (m.insts.get i).payload.subject) ∧
      m.types.nominal? "C" = some (m.insts.get i).type ∧
      (m.types.method? (m.insts.get i).type "run").isSome ∧
      (m.types.property? (m.insts.get i).type "size").isSome ∧
      (∀ d ∈ unrelated.types, d.name = "S" → d.methods = []) ∧
      m.types.field? (structBehind m.types (m.insts.get i).payload.subject) "size" = none :=
  ⟨by decide, exists_of_decided (by decide +kernel)⟩

end Midlevel.Lowering
