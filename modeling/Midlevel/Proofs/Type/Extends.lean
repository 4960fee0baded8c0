import Mathlib.Order.Defs.Unbundled
import Midlevel.Ir.Emit

/-!
A type table only grows once its nominal types are declared: whatever an id stood for it stands for
still, and every name keeps its type. `Extends` says so; everything that adds to a table extends it.
-/

namespace Midlevel.TypeTable

open Array

open Option (bind_eq_some_iff isSome_of_eq_some map_eq_some_iff)

variable {α : Type} {d : TypeDesc} {id : TypeId} {t : TypeTable}
variable {name : Text} {t' : TypeTable}
variable {a b : Array α} {x : α} {k : TypeKind} {index : Int} {s : Signature} {p : Ir.Provider}
  {proto : Ir.Prototype}
  {c : Ir.PrimitiveClass} {r : TypeId × TypeTable}

def Keeps {α : Type} (a b : Array α) : Prop := ∀ (i : Nat) (x : α), a[i]? = some x → b[i]? = some x

theorem Keeps.rfl : Keeps a a := fun _ _ h => h

theorem Keeps.trans {c : Array α} (h : Keeps a b) (h' : Keeps b c) : Keeps a c :=
  fun i x hx => h' i x (h i x hx)

theorem keeps_push (a : Array α) (x : α) : Keeps a (a.push x) := by
  intro i y hy
  obtain ⟨hi, -⟩ := Array.getElem?_eq_some_iff.mp hy
  rw [getElem?_push_lt hi, ← getElem?_eq_getElem hi]
  exact hy

theorem Keeps.slot? (h : Keeps a b) {payload : Nat} (hx : slot? a payload = some x) :
    slot? b payload = some x := by
  cases payload with
  | zero => cases hx
  | succ k => exact h k x hx

/-- A descriptor that refers to a side table has an entry there. -/
def Backed (t : TypeTable) (d : TypeDesc) : Prop :=
  match d.kind with
  | .tuple => (slot? t.tuples d.payload).isSome
  | .struct => (slot? t.structs d.payload).isSome
  | .concept => (slot? t.concepts d.payload).isSome
  | .fn => (slot? t.signatures d.payload).isSome
  | _ => True

def Complete (t : TypeTable) : Prop := ∀ (i : Nat) d, t.descs[i]? = some d → t.Backed d

structure Extends (t t' : TypeTable) : Prop where
  descs : Keeps t.descs t'.descs
  tuples : Keeps t.tuples t'.tuples
  structs : Keeps t.structs t'.structs
  concepts : Keeps t.concepts t'.concepts
  signatures : Keeps t.signatures t'.signatures
  nominals : ∃ ns, t'.nominals = t.nominals ++ ns
  complete : t.Complete → t'.Complete

instance : IsPreorder TypeTable Extends where
  refl _ := ⟨.rfl, .rfl, .rfl, .rfl, .rfl, ⟨[], (List.append_nil _).symm⟩, fun h => h⟩
  trans _ _ _ h h' := by
    obtain ⟨ns, hns⟩ := h.nominals
    obtain ⟨ns', hns'⟩ := h'.nominals
    exact ⟨h.descs.trans h'.descs, h.tuples.trans h'.tuples, h.structs.trans h'.structs,
      h.concepts.trans h'.concepts, h.signatures.trans h'.signatures,
      ⟨ns ++ ns', by rw [hns', hns, List.append_assoc]⟩, h'.complete ∘ h.complete⟩

theorem Extends.rfl : t.Extends t := refl_of Extends t

theorem Extends.trans {u v : TypeTable} (h : t.Extends u) (h' : u.Extends v) : t.Extends v :=
  trans_of Extends h h'

/-! ### What has an entry has the kind of the entry -/

theorem kind_of_desc? (h : t.desc? id = some d) : t.kind id = d.kind := by
  unfold kind
  rw [h]

theorem desc?_of_kind (h : t.kind id = k) (hk : k ≠ .invalid) : ∃ d, t.desc? id = some d ∧
    d.kind = k := by
  cases hd : t.desc? id with
  | none =>
    rw [kind, hd] at h
    exact absurd h.symm hk
  | some d => exact ⟨d, rfl, (kind_of_desc? hd).symm.trans h⟩

theorem info?_eq_some {entries : Array α} : t.info? k entries id = some x ↔
    ∃ d, t.desc? id = some d ∧ d.kind = k ∧ slot? entries d.payload = some x := by
  unfold info?
  cases t.desc? id <;> simp

theorem kind_of_info? {entries : Array α} (h : t.info? k entries id = some x) : t.kind id = k := by
  obtain ⟨d, hd, hk, -⟩ := info?_eq_some.mp h
  exact (kind_of_desc? hd).trans hk

theorem descs_of_desc? (h : t.desc? id = some d) : t.descs[id.index]? = some d := by
  unfold desc? at h
  split at h
  · cases h
  · exact h

theorem kind_of_field? {r : Nat × TypeId} (h : t.field? id name = some r) :
    t.kind id = .struct := by
  obtain ⟨s, hs, -⟩ := bind_eq_some_iff.mp h
  exact kind_of_info? hs

theorem kind_of_tupleElem? {r : TypeId} (h : t.tupleElem? id index = some r) :
    t.kind id = .tuple := by
  obtain ⟨es, hes, -⟩ := bind_eq_some_iff.mp h
  exact kind_of_info? hes

/-! ### What a larger table knows -/

section Known

variable {t t' : TypeTable} (h : t.Extends t')
variable {name : Text} {id : TypeId}
variable {r : Nat × TypeId}
include h

namespace Extends

theorem desc? (hd : t.desc? id = some d) : t'.desc? id = some d := by
  unfold TypeTable.desc? at hd ⊢
  split at hd
  · cases hd
  · next hid =>
    rw [if_neg hid]
    exact h.descs _ _ hd

theorem kind (hk : t.kind id = k) (hne : k ≠ .invalid) : t'.kind id = k := by
  obtain ⟨d, hd, hk⟩ := desc?_of_kind hk hne
  exact (kind_of_desc? (h.desc? hd)).trans hk

theorem info? (hab : Keeps a b) (hx : t.info? k a id = some x) : t'.info? k b id = some x := by
  obtain ⟨d, hd, hk, hx⟩ := info?_eq_some.mp hx
  exact info?_eq_some.mpr ⟨d, h.desc? hd, hk, hab.slot? hx⟩

theorem struct? {s : StructInfo} (hs : t.struct? id = some s) : t'.struct? id = some s :=
  h.info? h.structs hs

theorem concept? {c : ConceptInfo} (hc : t.concept? id = some c) : t'.concept? id = some c :=
  h.info? h.concepts hc

theorem signature? (hs : t.signature? id = some s) : t'.signature? id = some s :=
  h.info? h.signatures hs

theorem field? (hr : t.field? id name = some r) : t'.field? id name = some r := by
  obtain ⟨s, hs, hr⟩ := bind_eq_some_iff.mp hr
  exact bind_eq_some_iff.mpr ⟨s, h.struct? hs, hr⟩

theorem tupleElem? {r : TypeId} (hr : t.tupleElem? id index = some r) :
    t'.tupleElem? id index = some r := by
  obtain ⟨es, hes, hr⟩ := bind_eq_some_iff.mp hr
  exact bind_eq_some_iff.mpr ⟨es, h.info? h.tuples hes, hr⟩

theorem method? (hr : t.method? id name = some r) : t'.method? id name = some r := by
  obtain ⟨c, hc, hr⟩ := bind_eq_some_iff.mp hr
  exact bind_eq_some_iff.mpr ⟨c, h.concept? hc, hr⟩

theorem property? (hr : t.property? id name = some r) : t'.property? id name = some r := by
  obtain ⟨c, hc, hr⟩ := bind_eq_some_iff.mp hr
  exact bind_eq_some_iff.mpr ⟨c, h.concept? hc, hr⟩

theorem pointee? {elem : TypeId} (he : t.pointee? id = some elem) : t'.pointee? id = some elem := by
  unfold TypeTable.pointee? at he ⊢
  cases hd : t.desc? id with
  | none =>
    rw [hd] at he
    cases he
  | some d =>
    rw [hd] at he
    rw [h.desc? hd]
    exact he

theorem nominal? (hn : t.nominal? name = some id) : t'.nominal? name = some id := by
  obtain ⟨ns, hns⟩ := h.nominals
  obtain ⟨p, hp, rfl⟩ := map_eq_some_iff.mp hn
  unfold TypeTable.nominal?
  rw [hns, List.find?_append, hp]
  rfl

end Extends

end Known

/-! ### What extends a table -/

section Adding

variable (t : TypeTable)
variable {d : TypeDesc}
variable {t' : TypeTable}

theorem slot?_isSome {entries entries' : Array α} (h : entries.size ≤ entries'.size) {payload : Nat}
    (hs : (slot? entries payload).isSome) : (slot? entries' payload).isSome := by
  cases payload with
  | zero => cases hs
  | succ k =>
    have hlt : k < entries.size := by simpa [slot?] using hs
    simpa [slot?] using Nat.lt_of_lt_of_le hlt h

variable {t} in
theorem Backed.mono (h : t.Backed d) (htuples : t.tuples.size ≤ t'.tuples.size)
    (hstructs : t.structs.size ≤ t'.structs.size) (hconcepts : t.concepts.size ≤ t'.concepts.size)
    (hsignatures : t.signatures.size ≤ t'.signatures.size) : t'.Backed d := by
  unfold Backed at h ⊢
  cases hk : d.kind <;> rw [hk] at h
  case tuple => exact slot?_isSome htuples h
  case struct => exact slot?_isSome hstructs h
  case concept => exact slot?_isSome hconcepts h
  case fn => exact slot?_isSome hsignatures h
  all_goals trivial

theorem Keeps.size_le (h : Keeps a b) : a.size ≤ b.size := by
  refine Nat.le_of_not_lt fun hlt => ?_
  have hb := h b.size _ (getElem?_eq_getElem hlt)
  simp at hb

variable {t} in
theorem Extends.push (hdescs : t'.descs = t.descs.push d) (hd : t'.Backed d)
    (htuples : Keeps t.tuples t'.tuples)
    (hstructs : Keeps t.structs t'.structs) (hconcepts : Keeps t.concepts t'.concepts)
    (hsignatures : Keeps t.signatures t'.signatures) {ns : List (Text × TypeId)}
    (hnominals : t'.nominals = t.nominals ++ ns) : t.Extends t' := by
  refine ⟨hdescs ▸ keeps_push _ _, htuples, hstructs, hconcepts, hsignatures, ⟨ns, hnominals⟩,
    fun h i e he => ?_⟩
  rw [hdescs, getElem?_push] at he
  split at he
  · exact Option.some.inj he ▸ hd
  · exact (h i e he).mono htuples.size_le hstructs.size_le hconcepts.size_le hsignatures.size_le

theorem extends_intern (hd : t.Backed d) : t.Extends (t.intern d).2 := by
  unfold intern
  split
  · exact .rfl
  · split
    · exact .rfl
    · exact .push (Eq.refl _) hd .rfl .rfl .rfl .rfl (List.append_nil _).symm

theorem extends_pointer (elem : TypeId) : t.Extends (t.pointer elem).2 := t.extends_intern trivial

theorem extends_refBox (struct : TypeId) : t.Extends (t.refBox struct).2 := t.extends_intern trivial

theorem slot?_of_findIdx? [DecidableEq α] {entries : Array α} {k : Nat}
    (h : entries.findIdx? (· = x) = some k) : slot? entries (k + 1) = some x := by
  obtain ⟨hlt, hx, -⟩ := findIdx?_eq_some_iff_getElem.mp h
  exact Array.getElem?_eq_some_iff.mpr ⟨hlt, of_decide_eq_true hx⟩

theorem slot?_push_size (entries : Array α) (x : α) :
    slot? (entries.push x) (entries.push x).size = some x := by
  rw [size_push, slot?, getElem?_push_size]

theorem extends_reference (struct : TypeId) : t.Extends (t.reference struct).2 :=
  (t.extends_refBox struct).trans (extends_pointer _ _)

theorem extends_tuple (elems : List TypeId) : t.Extends (t.tuple elems).2 := by
  unfold tuple
  split
  · next k hk => exact t.extends_intern (isSome_of_eq_some (slot?_of_findIdx? hk))
  · exact .push (Eq.refl _) (isSome_of_eq_some (slot?_push_size t.tuples elems))
      (keeps_push _ _) .rfl .rfl .rfl
      (List.append_nil _).symm

theorem extends_function (s : Signature) : t.Extends (t.function s).2 := by
  unfold function
  generalize (if s.result = .none then { s with result := TypeId.void } else s) = r
  dsimp only
  split
  · next k hk => exact t.extends_intern (isSome_of_eq_some (slot?_of_findIdx? hk))
  · exact .push (Eq.refl _) (isSome_of_eq_some (slot?_push_size t.signatures r)) .rfl .rfl .rfl
      (keeps_push _ _)
      (List.append_nil _).symm

theorem extends_freeFunction (params : List TypeId) (result : TypeId) :
    t.Extends (t.freeFunction params result).2 := t.extends_function _

theorem extends_declareStruct (s : StructInfo) : t.Extends (t.declareStruct s).2 := by
  unfold declareStruct
  split
  · exact .rfl
  · exact .push (Eq.refl _) (isSome_of_eq_some (slot?_push_size t.structs s)) .rfl
      (keeps_push _ _) .rfl .rfl
      (Eq.refl _)

theorem extends_declareConcept (c : ConceptInfo) : t.Extends (t.declareConcept c).2 := by
  unfold declareConcept
  split
  · exact .rfl
  · exact .push (Eq.refl _) (isSome_of_eq_some (slot?_push_size t.concepts c)) .rfl .rfl
      (keeps_push _ _) .rfl
      (Eq.refl _)

theorem extends_selfParam (self : TypeId) : t.Extends (t.selfParam self).2 := by
  unfold selfParam
  split
  · exact .rfl
  · split
    · exact t.extends_reference self
    · exact t.extends_pointer self

theorem extends_loweredParams (fn : TypeId) : t.Extends (t.loweredParams fn).2 := by
  unfold loweredParams
  split
  · exact .rfl
  · next s _ =>
    split
    · exact t.extends_selfParam s.self
    · exact .rfl

theorem extends_libraryTypes : t.Extends (Ir.libraryTypes t).2 :=
  (t.extends_declareStruct _).trans (extends_declareStruct _ _)

theorem extends_declare (h : p.declare? t name = some (proto, t')) : t.Extends t' := by
  cases p with
  | library =>
    obtain ⟨op, -, hop⟩ := map_eq_some_iff.mp h
    have : t.Extends (Ir.Provider.declareOperator t op).2 :=
      t.extends_libraryTypes.trans (extends_freeFunction _ _ _)
    rwa [hop] at this
  | objectRuntime =>
    obtain ⟨r, -, hr⟩ := map_eq_some_iff.mp h
    have : t.Extends (Ir.Provider.declareRoutine t r).2 := by
      cases r <;> exact t.extends_freeFunction _ _
    rwa [hr] at this

theorem extends_primitiveResult {args : List TypeId}
    (h : Ir.Build.primitiveResult t c args = .ok r) : t.Extends r.2 := by
  have hbind {α : Type} {x : Except Error α} {f : α → Except Error (TypeId × TypeTable)}
      (hx : x.bind f = .ok r) : ∃ a, f a = .ok r := by
    cases x with
    | error e => cases hx
    | ok a => exact ⟨a, hx⟩
  cases c with
  | intChecked =>
    obtain ⟨a, ha⟩ := hbind h
    obtain rfl := Except.ok.inj ha
    exact t.extends_tuple _
  | intCast width =>
    obtain ⟨a, ha⟩ := hbind h
    obtain rfl := Except.ok.inj ha
    exact t.extends_intern trivial
  | unique =>
    unfold Ir.Build.primitiveResult at h
    dsimp only at h
    split at h
    · cases h
    · obtain rfl := Except.ok.inj h
      exact .rfl
  | _ =>
    obtain ⟨a, ha⟩ := hbind h
    obtain rfl := Except.ok.inj ha
    exact .rfl

theorem extends_primitiveType {valueType : Ir.Value → TypeId} {args : List (Option Ir.Value)}
    (h : Ir.Build.primitiveType t valueType c args = .ok r) : t.Extends r.2 := by
  unfold Ir.Build.primitiveType at h
  split at h
  · cases h
  · dsimp only [bind, Except.bind] at h
    split at h
    · cases h
    · exact t.extends_primitiveResult h

end Adding

/-! ### Pointers -/

/-- The first descriptor stands for no type. Every table that is made keeps it. -/
def Rooted (t : TypeTable) : Prop := t.descs[0]? = some { kind := .invalid }

theorem rooted_initial : initial.Rooted := rfl

theorem Extends.rooted (h : t.Extends t') (ht : t.Rooted) : t'.Rooted := h.descs _ _ ht

theorem descs_of_findBelow {n : Nat} (h : t.findBelow d n = some id) :
    t.descs[id.index]? = some d := by
  induction n with
  | zero => cases h
  | succ n ih =>
    unfold findBelow at h
    split at h
    · next hd =>
      obtain rfl := Option.some.inj h
      exact hd
    · exact ih h

theorem rooted_intern (ht : t.Rooted) : (t.intern d).2.Rooted := by
  unfold intern
  split
  · exact ht
  · split
    · exact ht
    · exact keeps_push _ _ _ _ ht

theorem desc?_intern (ht : t.Rooted) (hd : d.kind ≠ .invalid) :
    (t.intern d).2.desc? (t.intern d).1 = some d := by
  have hdescs : (t.intern d).2.descs[(t.intern d).1.index]? = some d := by
    unfold intern
    rw [if_neg hd]
    split
    · next id hid => exact descs_of_findBelow hid
    · exact getElem?_push_size
  unfold desc?
  rw [if_neg, hdescs]
  intro hnone
  rw [hnone] at hdescs
  have hroot : (t.intern d).2.descs[TypeId.none.index]? = some { kind := .invalid } :=
    rooted_intern ht
  exact hd (congrArg TypeDesc.kind (Option.mem_unique hroot hdescs)).symm

theorem rooted_of_intern (hd : d.kind ≠ .invalid) (h : (t.intern d).2.Rooted) : t.Rooted := by
  unfold intern at h
  rw [if_neg hd] at h
  split at h
  · exact h
  · unfold Rooted append at h
    rw [getElem?_push] at h
    split at h
    · rw [Option.some.injEq] at h
      exact absurd (congrArg TypeDesc.kind h) hd
    · exact h

theorem pointee?_pointer (ht : t.Rooted) (elem : TypeId) :
    (t.pointer elem).2.pointee? (t.pointer elem).1 = some elem := by
  unfold pointee? pointer
  rw [desc?_intern ht (by simp)]
  rfl

/-! ### Tuples and signatures -/

theorem info?_of_desc? {payload : Nat} (entries : Array α)
    (h : t.desc? id = some { kind := k, payload }) :
    t.info? k entries id = slot? entries payload := by
  unfold info?
  rw [h]
  exact if_pos rfl

theorem Rooted.size_ne_zero (ht : t.Rooted) : t.descs.size ≠ 0 := by
  intro hzero
  rw [Rooted, getElem?_eq_none (Nat.le_of_eq hzero)] at ht
  cases ht

theorem desc?_append (ht : t.Rooted) (d : TypeDesc) :
    (t.append d).2.desc? (t.append d).1 = some d := by
  refine (if_neg fun hnone => ht.size_ne_zero (congrArg TypeId.index hnone)).trans ?_
  show (t.descs.push d)[t.descs.size]? = some d
  simp

theorem part_intern (part : TypeTable → α) (h : part (t.append d).2 = part t) :
    part (t.intern d).2 = part t := by
  unfold intern
  split
  · rfl
  · split
    · rfl
    · exact h

theorem tuple?_tuple (ht : t.Rooted) (elems : List TypeId) :
    (t.tuple elems).2.tuple? (t.tuple elems).1 = some elems := by
  unfold tuple
  split
  · next k hk =>
    rw [tuple?, info?_of_desc? _ (desc?_intern ht (by simp)), part_intern tuples rfl,
      slot?_of_findIdx? hk]
  · refine (info?_of_desc? _ (desc?_append ht _)).trans ?_
    exact slot?_push_size t.tuples elems

theorem signature?_function (ht : t.Rooted) (hs : s.result ≠ .none) :
    (t.function s).2.signature? (t.function s).1 = some s := by
  unfold function
  rw [if_neg hs]
  dsimp only
  split
  · next k hk =>
    rw [signature?, info?_of_desc? _ (desc?_intern ht (by simp)), part_intern signatures rfl,
      slot?_of_findIdx? hk]
  · refine (info?_of_desc? _ (desc?_append ht _)).trans ?_
    exact slot?_push_size t.signatures s

theorem kind_function (ht : t.Rooted) (s : Signature) :
    (t.function s).2.kind (t.function s).1 = .fn := by
  unfold function
  generalize (if s.result = .none then { s with result := TypeId.void } else s) = r
  dsimp only
  split
  · exact kind_of_desc? (desc?_intern ht (by simp))
  · exact kind_of_desc? (desc?_append ht _)

theorem kind_declare (ht : t.Rooted) (h : p.declare? t name = some (proto, t')) :
    t'.kind proto.type = .fn := by
  cases p with
  | library =>
    obtain ⟨op, -, hop⟩ := map_eq_some_iff.mp h
    have := kind_function (t.extends_libraryTypes.rooted ht)
      (s := ⟨[if op.boolOperands then (Ir.libraryTypes t).1.2
      else (Ir.libraryTypes t).1.1, if op.boolOperands then (Ir.libraryTypes t).1.2
        else (Ir.libraryTypes t).1.1],
      if op.predicate then (Ir.libraryTypes t).1.2 else (Ir.libraryTypes t).1.1, .free, .none⟩)
    obtain ⟨rfl, rfl⟩ := Prod.mk.inj hop
    exact this
  | objectRuntime =>
    obtain ⟨r, -, hr⟩ := map_eq_some_iff.mp h
    obtain ⟨rfl, rfl⟩ := Prod.mk.inj hr
    cases r <;> exact kind_function ht _

theorem Complete.signature? (h : t.Complete) (hk : t.kind id = .fn) :
    ∃ s, t.signature? id = some s := by
  obtain ⟨d, hd, hk⟩ := desc?_of_kind hk (by simp)
  have hbacked := h _ d (descs_of_desc? hd)
  rw [Backed, hk] at hbacked
  obtain ⟨s, hs⟩ := Option.isSome_iff_exists.mp hbacked
  exact ⟨s, info?_eq_some.mpr ⟨d, hd, hk, hs⟩⟩

theorem Complete.of_sizes (h : t.Complete) (hdescs : t'.descs = t.descs)
    (htuples : t.tuples.size ≤ t'.tuples.size) (hstructs : t.structs.size ≤ t'.structs.size)
    (hconcepts : t.concepts.size ≤ t'.concepts.size)
    (hsignatures : t.signatures.size ≤ t'.signatures.size) :
    t'.Complete := by
  intro i d hd
  rw [hdescs] at hd
  exact (h i d hd).mono htuples hstructs hconcepts hsignatures

theorem size_modifyInfo (t : TypeTable) (k : TypeKind) (entries : Array α)
    (id : TypeId) (f : α → α) :
    (t.modifyInfo k entries id f).size = entries.size := by
  unfold modifyInfo
  split
  · split
    · exact size_modify ..
    · rfl
  · rfl

theorem Complete.setFields (h : t.Complete) (id : TypeId) (fields : List Member) :
    (t.setFields id fields).Complete :=
  h.of_sizes rfl .refl (Nat.le_of_eq (size_modifyInfo ..).symm) .refl .refl

theorem Complete.setMethods (h : t.Complete) (id : TypeId) (methods : List Member) :
    (t.setMethods id methods).Complete :=
  h.of_sizes rfl .refl .refl (Nat.le_of_eq (size_modifyInfo ..).symm) .refl

theorem Complete.setProperties (h : t.Complete) (id : TypeId) (properties : List Member) :
    (t.setProperties id properties).Complete :=
  h.of_sizes rfl .refl .refl (Nat.le_of_eq (size_modifyInfo ..).symm) .refl

theorem complete_initial : initial.Complete := by
  intro i d hd
  have hall : ∀ d ∈ initial.descs.toList, initial.Backed d := by simp [initial, Backed]
  exact hall d (mem_toList_iff.mpr (mem_of_getElem? hd))

/-! ### Names -/

theorem nominal?_append_self (ns : List (Text × TypeId))
    (h : (ns.find? (·.1 = name)).map (·.2) = none) :
    ((ns ++ [(name, id)]).find? (·.1 = name)).map (·.2) = some id := by
  rw [Option.map_eq_none_iff] at h
  simp [h]

theorem nominal?_declareStruct (t : TypeTable) (s : StructInfo) :
    (t.declareStruct s).2.nominal? s.name = some (t.declareStruct s).1 := by
  unfold declareStruct
  split
  · next h => exact h
  · next h => exact nominal?_append_self _ h

theorem nominal?_declareConcept (t : TypeTable) (c : ConceptInfo) :
    (t.declareConcept c).2.nominal? c.name = some (t.declareConcept c).1 := by
  unfold declareConcept
  split
  · next h => exact h
  · next h => exact nominal?_append_self _ h

end Midlevel.TypeTable
