import Midlevel.Proofs.Type.Extends

/-!
Type ids are canonical. In a table that came about by requests an id stands for one type at most and
a type has one id at most, a request is answered with an id for what it describes, and an id never
changes what it stands for. So requests get the same id, whenever they are made, exactly if they
describe the same type.
-/

namespace Midlevel.TypeTable

open Array Option

/-- What a type is, whatever its id. -/
inductive Meaning where
  | plain (d : TypeDesc)
  | tuple (elems : List TypeId)
  | function (s : Signature)
  | nominal (name : Text)

/-! ### Requests -/

/-- A descriptor of a type without an entry in a side table: a scalar, a pointer or a box. -/
structure PlainDesc extends TypeDesc where
  plain : kind ∉ [.invalid, .tuple, .struct, .concept, .fn]

inductive Request where
  | intern (d : PlainDesc)
  | pointer (elem : TypeId)
  | refBox (struct : TypeId)
  | tuple (elems : List TypeId)
  | function (s : Signature)
  | freeFunction (params : List TypeId) (result : TypeId)
  | declareStruct (s : StructInfo)
  | declareConcept (c : ConceptInfo)
  | setFields (id : TypeId) (fields : List Member)
  | setMethods (id : TypeId) (methods : List Member)
  | setProperties (id : TypeId) (properties : List Member)

/-- The answer to a request, if it has one, and the table it leaves. -/
def Request.run (t : TypeTable) : Request → Option TypeId × TypeTable
  | intern d => (t.intern d.toTypeDesc).map some id
  | pointer elem => (t.pointer elem).map some id
  | refBox struct => (t.refBox struct).map some id
  | tuple elems => (t.tuple elems).map some id
  | function s => (t.function s).map some id
  | freeFunction params result => (t.freeFunction params result).map some id
  | declareStruct s => (t.declareStruct s).map some id
  | declareConcept c => (t.declareConcept c).map some id
  | setFields id fields => (none, t.setFields id fields)
  | setMethods id methods => (none, t.setMethods id methods)
  | setProperties id properties => (none, t.setProperties id properties)

def resulting (s : Signature) : Signature :=
  if s.result = .none then { s with result := .void } else s

def Request.meaning? : Request → Option Meaning
  | intern d => some (.plain d.toTypeDesc)
  | pointer elem => some (.plain { kind := .pointer, elem })
  | refBox struct => some (.plain { kind := .refBox, elem := struct })
  | tuple elems => some (.tuple elems)
  | function s => some (.function (resulting s))
  | freeFunction params result =>
    some (.function (resulting { params, result, conv := .free, self := .none }))
  | declareStruct s => some (.nominal s.name)
  | declareConcept c => some (.nominal c.name)
  | setFields _ _ | setMethods _ _ | setProperties _ _ => none

def after (t : TypeTable) (rs : List Request) : TypeTable := rs.foldl (fun t r => (r.run t).2) t

/-! ### One id for each type -/

/-- What an id stands for. -/
def Denotes (t : TypeTable) (id : TypeId) : Meaning → Prop
  | .plain d => d.kind ∉ [.tuple, .struct, .concept, .fn] ∧ t.desc? id = some d
  | .tuple elems => t.tuple? id = some elems
  | .function s => t.signature? id = some s
  | .nominal name => t.nominal? name = some id

def Distinct {α : Type} (a : Array α) : Prop :=
  ∀ (i j : Nat) (x : α), a[i]? = some x → a[j]? = some x → i = j

structure Canonical (t : TypeTable) : Prop where
  rooted : t.Rooted
  complete : t.Complete
  descs : Distinct t.descs
  /-- A type with an entry in a side table is nothing else than that entry. -/
  entries : ∀ d ∈ t.descs, d.kind ∈ [.tuple, .struct, .concept, .fn] →
    d = { kind := d.kind, payload := d.payload }
  tuples : Distinct t.tuples
  signatures : Distinct t.signatures
  names : ∀ name name' id, t.nominal? name = some id → t.nominal? name' = some id → name = name'
  nominals : ∀ name id, t.nominal? name = some id → t.kind id = .struct ∨ t.kind id = .concept

/-- `t'` is canonical too, and the ids of `t` stand for what they stood for. -/
structure Persists (t t' : TypeTable) : Prop where
  canonical : t'.Canonical
  desc : ∀ id d, t.desc? id = some d → t'.desc? id = some d
  denotes : ∀ id D, t.Denotes id D → t'.Denotes id D

variable {t t' : TypeTable} {d : TypeDesc} {D D' : Meaning} {id id' : TypeId} {α : Type}

theorem Distinct.push {a : Array α} {x : α} (h : Distinct a) (hx : x ∉ a) :
    Distinct (a.push x) := by
  intro i j y hi hj
  rw [getElem?_push] at hi hj
  split at hi <;> split at hj
  · next hi' hj' => exact hi'.trans hj'.symm
  · exact absurd (mem_of_getElem? hj) (some.inj hi ▸ hx)
  · exact absurd (mem_of_getElem? hi) (some.inj hj ▸ hx)
  · exact h i j y hi hj

theorem Distinct.slot? {a : Array α} (h : Distinct a) {p q : Nat} {x : α} (hp : slot? a p = some x)
    (hq : slot? a q = some x) : p = q := by
  cases p with
  | zero => cases hp
  | succ i =>
    cases q with
    | zero => cases hq
    | succ j => exact congrArg Nat.succ (h i j x hp hq)

namespace Canonical

variable (h : t.Canonical)
include h

theorem desc?_inj (hd : t.desc? id = some d) (hd' : t.desc? id' = some d) : id = id' :=
  congrArg TypeId.mk (h.descs _ _ d (descs_of_desc? hd) (descs_of_desc? hd'))

theorem desc?_of_info? {k : TypeKind} (hk : k ∈ [.tuple, .struct, .concept, .fn])
    {entries : Array α} {x : α} (hx : t.info? k entries id = some x) :
    ∃ payload, t.desc? id = some { kind := k, payload } ∧ slot? entries payload = some x := by
  obtain ⟨d, hd, rfl, hslot⟩ := info?_eq_some.mp hx
  exact ⟨d.payload, hd.trans (congrArg some (h.entries d (mem_of_getElem? (descs_of_desc? hd)) hk)),
    hslot⟩

theorem info?_inj {k : TypeKind} (hk : k ∈ [.tuple, .struct, .concept, .fn])
    {entries : Array α} (hdistinct : Distinct entries) {x : α} (hx : t.info? k entries id = some x)
    (hx' : t.info? k entries id' = some x) : id = id' := by
  obtain ⟨p, hd, hp⟩ := h.desc?_of_info? hk hx
  obtain ⟨q, hd', hq⟩ := h.desc?_of_info? hk hx'
  rw [hdistinct.slot? hq hp] at hd'
  exact h.desc?_inj hd hd'

theorem id_unique (hD : t.Denotes id D) (hD' : t.Denotes id' D) : id = id' := by
  cases D with
  | plain d => exact h.desc?_inj hD.2 hD'.2
  | tuple elems => exact h.info?_inj (by simp) h.tuples hD hD'
  | function s => exact h.info?_inj (by simp) h.signatures hD hD'
  | nominal name => exact mem_unique hD hD'

theorem meaning_unique (hD : t.Denotes id D) (hD' : t.Denotes id D') : D = D' := by
  -- The kind of the id tells which of the four sorts it is.
  have hkind {D : Meaning} (hD : t.Denotes id D) : match D with
      | .plain _ => t.kind id ∉ [.tuple, .struct, .concept, .fn]
      | .tuple _ => t.kind id = .tuple
      | .function _ => t.kind id = .fn
      | .nominal _ => t.kind id = .struct ∨ t.kind id = .concept := by
    cases D with
    | plain d => exact kind_of_desc? hD.2 ▸ hD.1
    | tuple elems => exact kind_of_info? hD
    | function s => exact kind_of_info? hD
    | nominal name => exact h.nominals name id hD
  have hk := hkind hD
  have hk' := hkind hD'
  cases D <;> cases D'
  case plain.plain => exact congrArg Meaning.plain (mem_unique hD.2 hD'.2)
  case tuple.tuple => exact congrArg Meaning.tuple (mem_unique hD hD')
  case function.function => exact congrArg Meaning.function (mem_unique hD hD')
  case nominal.nominal => exact congrArg Meaning.nominal (h.names _ _ id hD hD')
  all_goals simp_all

end Canonical

theorem Extends.denotes (h : t.Extends t') (hD : t.Denotes id D) : t'.Denotes id D := by
  cases D with
  | plain d => exact ⟨hD.1, h.desc? hD.2⟩
  | tuple elems => exact h.info? h.tuples hD
  | function s => exact h.signature? hD
  | nominal name => exact h.nominal? hD

theorem Canonical.add (h : t.Canonical) (hext : t.Extends t') (hdescs : t'.descs = t.descs.push d)
    (hnew : d ∉ t.descs)
    (hentry : d.kind ∈ [.tuple, .struct, .concept, .fn] →
      d = { kind := d.kind, payload := d.payload })
    (htuples : Distinct t'.tuples) (hsignatures : Distinct t'.signatures) {a : Text}
    (hnominals : ∀ n id, t'.nominal? n = some id → t.nominal? n = some id ∨
      n = a ∧ id = ⟨t.descs.size⟩ ∧ (d.kind = .struct ∨ d.kind = .concept)) : t.Persists t' := by
  have hnone : (⟨t.descs.size⟩ : TypeId) ≠ .none := fun he =>
    h.rooted.size_ne_zero (congrArg TypeId.index he)
  have hkind : t'.kind ⟨t.descs.size⟩ = d.kind := by
    refine kind_of_desc? ?_
    rw [desc?, if_neg hnone, hdescs]
    exact getElem?_push_size
  have hold {n : Text} (hn : t.nominal? n = some ⟨t.descs.size⟩) : False := by
    have hinvalid : t.kind ⟨t.descs.size⟩ = .invalid := by
      rw [kind, desc?, if_neg hnone, getElem?_eq_none (Nat.le_refl _)]
    have := h.nominals n _ hn
    simp [hinvalid] at this
  refine ⟨⟨hext.rooted h.rooted, hext.complete h.complete, hdescs ▸ h.descs.push hnew, ?_,
    htuples, hsignatures,
    fun n n' id hn hn' => ?_, fun n id hn => ?_⟩, fun _ _ => hext.desc?, fun _ _ => hext.denotes⟩
  · rw [hdescs]
    intro e he
    rcases mem_push.mp he with he | rfl
    · exact h.entries e he
    · exact hentry
  · obtain hn | ⟨rfl, rfl, -⟩ := hnominals n id hn
    · obtain hn' | ⟨-, rfl, -⟩ := hnominals n' id hn'
      · exact h.names n n' id hn hn'
      · exact (hold hn).elim
    · obtain hn' | ⟨rfl, -, -⟩ := hnominals n' _ hn'
      · exact (hold hn').elim
      · rfl
  · obtain hn | ⟨-, rfl, hk⟩ := hnominals n id hn
    · exact (h.nominals n id hn).imp (hext.kind · (by simp)) (hext.kind · (by simp))
    · exact hkind ▸ hk

/-! ### Every request is answered -/

theorem find?_eq_none (h : t.find? d = none) : d ∉ t.descs := by
  have hbelow {n k : Nat} (hn : t.findBelow d n = none) (hk : k < n) : t.descs[k]? ≠ some d := by
    induction n with
    | zero => exact absurd hk (Nat.not_lt_zero _)
    | succ n ih =>
      unfold findBelow at hn
      split at hn
      · cases hn
      · next hd =>
        obtain rfl | hlt := Nat.eq_or_lt_of_le (Nat.le_of_lt_succ hk)
        · exact hd
        · exact ih hn hlt
  intro hd
  obtain ⟨k, hk, hd⟩ := mem_iff_getElem.mp hd
  exact hbelow h hk (Array.getElem?_eq_some_iff.mpr ⟨hk, hd⟩)

theorem Canonical.persists (h : t.Canonical) : t.Persists t :=
  ⟨h, fun _ _ hd => hd, fun _ _ hD => hD⟩

theorem Canonical.intern (h : t.Canonical) (hd : t.Backed d)
    (hentry : d.kind ∈ [.tuple, .struct, .concept, .fn] →
      d = { kind := d.kind, payload := d.payload }) :
    t.Persists (t.intern d).2 := by
  have hext := t.extends_intern hd
  unfold TypeTable.intern at hext ⊢
  split
  · exact h.persists
  · split
    · exact h.persists
    · next hk _ hfind =>
      rw [if_neg hk, hfind] at hext
      exact h.add (a := []) hext rfl (find?_eq_none hfind) hentry h.tuples h.signatures
        fun _ _ => .inl

theorem Complete.not_mem_descs (h : t.Complete) (hd : ¬ t.Backed d) : d ∉ t.descs := by
  intro hmem
  obtain ⟨k, hk, hget⟩ := mem_iff_getElem.mp hmem
  exact hd (h k d (Array.getElem?_eq_some_iff.mpr ⟨hk, hget⟩))

theorem slot?_size_push (entries : Array α) (x : α) :
    ¬ (slot? entries (entries.push x).size).isSome := by
  simp [slot?]

theorem Canonical.tuple (h : t.Canonical) (elems : List TypeId) : t.Persists (t.tuple elems).2 := by
  have hext := t.extends_tuple elems
  unfold TypeTable.tuple at hext ⊢
  split
  · next k hk => exact h.intern (isSome_of_eq_some (slot?_of_findIdx? hk)) fun _ => rfl
  · next hnone =>
    rw [hnone] at hext
    refine h.add (a := []) hext rfl (h.complete.not_mem_descs (slot?_size_push t.tuples elems))
      (fun _ => rfl)
      (h.tuples.push fun helems => ?_) h.signatures fun _ _ => .inl
    simpa using findIdx?_eq_none_iff.mp hnone elems helems

theorem Canonical.function (h : t.Canonical) (s : Signature) : t.Persists (t.function s).2 := by
  have hext := t.extends_function s
  unfold TypeTable.function at hext ⊢
  generalize (if s.result = .none then { s with result := TypeId.void } else s) = r at hext ⊢
  dsimp only at hext ⊢
  split
  · next k hk => exact h.intern (isSome_of_eq_some (slot?_of_findIdx? hk)) fun _ => rfl
  · next hnone =>
    rw [hnone] at hext
    refine h.add (a := []) hext rfl (h.complete.not_mem_descs (slot?_size_push t.signatures r))
      (fun _ => rfl)
      h.tuples (h.signatures.push fun hr => ?_) fun _ _ => .inl
    simpa using findIdx?_eq_none_iff.mp hnone r hr

theorem nominal?_append {ns : List (Text × TypeId)} {name n : Text} {new : TypeId}
    (h : ((ns ++ [(name, new)]).find? (·.1 = n)).map (·.2) = some id) :
    (ns.find? (·.1 = n)).map (·.2) = some id ∨ n = name ∧ id = new := by
  rw [List.find?_append] at h
  cases hn : ns.find? (·.1 = n) with
  | some p => exact .inl (by simpa [hn] using h)
  | none =>
    rw [hn] at h
    by_cases hname : name = n
    · exact .inr ⟨hname.symm, by simpa [hname, eq_comm] using h⟩
    · simp [hname] at h

theorem Canonical.declareStruct (h : t.Canonical) (s : StructInfo) :
    t.Persists (t.declareStruct s).2 := by
  have hext := t.extends_declareStruct s
  unfold TypeTable.declareStruct at hext ⊢
  split
  · exact h.persists
  · next hfree =>
    rw [hfree] at hext
    exact h.add hext rfl (h.complete.not_mem_descs (slot?_size_push t.structs s))
      (fun _ => rfl) h.tuples h.signatures
      fun n id hn => (nominal?_append hn).imp_right (.imp_right fun hid => ⟨hid, .inl rfl⟩)

theorem Canonical.declareConcept (h : t.Canonical) (c : ConceptInfo) :
    t.Persists (t.declareConcept c).2 := by
  have hext := t.extends_declareConcept c
  unfold TypeTable.declareConcept at hext ⊢
  split
  · exact h.persists
  · next hfree =>
    rw [hfree] at hext
    exact h.add hext rfl (h.complete.not_mem_descs (slot?_size_push t.concepts c))
      (fun _ => rfl) h.tuples h.signatures
      fun n id hn => (nominal?_append hn).imp_right (.imp_right fun hid => ⟨hid, .inr rfl⟩)

theorem Canonical.setMembers (h : t.Canonical) {structs : Array StructInfo}
    {concepts : Array ConceptInfo}
    (hcomplete : Complete { t with structs, concepts }) :
    t.Persists { t with structs, concepts } := by
  refine ⟨⟨h.rooted, hcomplete, h.descs, h.entries, h.tuples, h.signatures, h.names, h.nominals⟩,
    fun _ _ hd => hd, ?_⟩
  intro id D hD
  cases D <;> exact hD

theorem signature?_function_resulting (ht : t.Rooted) (s : Signature) :
    (t.function s).2.signature? (t.function s).1 = some (resulting s) := by
  have heq : t.function s = t.function (resulting s) := by
    unfold resulting
    split
    · next hs => simp [TypeTable.function, hs]
    · rfl
  rw [heq]
  refine signature?_function ht ?_
  unfold resulting
  split
  · exact (by decide : TypeId.void ≠ TypeId.none)
  · assumption

/-! ### Runs -/

/-- A request that is answered and an answer that stands for what was asked go together. -/
def Stands (t : TypeTable) : Option TypeId → Option Meaning → Prop := Option.Rel t.Denotes

theorem Canonical.run (h : t.Canonical) (r : Request) :
    t.Persists (r.run t).2 ∧ (r.run t).2.Stands (r.run t).1 r.meaning? := by
  have hplain {d : TypeDesc} (hk : d.kind ∉ [.invalid, .tuple, .struct, .concept, .fn]) :
      t.Persists (t.intern d).2 ∧ (t.intern d).2.Denotes (t.intern d).1 (.plain d) := by
    have hk' : d.kind ∉ [.tuple, .struct, .concept, .fn] := fun hmem =>
      hk (List.mem_cons_of_mem _ hmem)
    have hbacked : t.Backed d := by
      unfold Backed
      split <;> simp_all
    exact ⟨h.intern hbacked fun hmem => absurd hmem hk', hk', desc?_intern h.rooted fun he =>
      hk (he ▸ List.mem_cons_self)⟩
  cases r with
  | intern d => exact (hplain d.plain).imp_right .some
  | pointer elem => exact (hplain (d := { kind := .pointer, elem }) (by simp)).imp_right .some
  | refBox struct =>
    exact (hplain (d := { kind := .refBox, elem := struct }) (by simp)).imp_right .some
  | tuple elems => exact ⟨h.tuple elems, .some (tuple?_tuple h.rooted elems)⟩
  | function s => exact ⟨h.function s, .some (signature?_function_resulting h.rooted s)⟩
  | freeFunction params result =>
    exact ⟨h.function _, .some (signature?_function_resulting h.rooted _)⟩
  | declareStruct s => exact ⟨h.declareStruct s, .some (t.nominal?_declareStruct s)⟩
  | declareConcept c => exact ⟨h.declareConcept c, .some (t.nominal?_declareConcept c)⟩
  | setFields id fields => exact ⟨h.setMembers (h.complete.setFields id fields), .none⟩
  | setMethods id methods => exact ⟨h.setMembers (h.complete.setMethods id methods), .none⟩
  | setProperties id properties =>
    exact ⟨h.setMembers (h.complete.setProperties id properties), .none⟩

theorem Canonical.after (h : t.Canonical) (rs : List Request) : t.Persists (t.after rs) := by
  induction rs generalizing t with
  | nil => exact h.persists
  | cons r rs ih =>
    have hr := (h.run r).1
    have hrs := ih hr.canonical
    exact ⟨hrs.canonical, fun id d hd => hrs.desc id d (hr.desc id d hd),
      fun id D hD => hrs.denotes id D (hr.denotes id D hD)⟩

theorem canonical_initial : initial.Canonical := by
  have hinj : ∀ i j : Fin 10, initial.descs[i] = initial.descs[j] → i = j := by decide
  have hplain : ∀ d ∈ initial.descs.toList, d.kind ∉ [.tuple, .struct, .concept, .fn] := by decide
  refine ⟨rooted_initial, complete_initial, fun i j d hi hj => ?_, fun d hd hk => ?_,
    ?_, ?_, ?_, ?_⟩
  · obtain ⟨hi, hd⟩ := Array.getElem?_eq_some_iff.mp hi
    obtain ⟨hj, hd'⟩ := Array.getElem?_eq_some_iff.mp hj
    exact congrArg Fin.val (hinj ⟨i, hi⟩ ⟨j, hj⟩ (hd.trans hd'.symm))
  · exact absurd hk (hplain d hd.val)
  all_goals simp [Distinct, initial, nominal?]

theorem Persists.stands (h : t.Persists t') {a : Option TypeId} {M : Option Meaning}
    (ha : t.Stands a M) :
    t'.Stands a M := by
  cases ha with
  | none => exact .none
  | some hD => exact .some (h.denotes _ _ hD)

theorem Canonical.eq_iff (h : t.Canonical) {a b : Option TypeId} {M N : Option Meaning}
    (ha : t.Stands a M)
    (hb : t.Stands b N) : a = b ↔ M = N := by
  cases ha with
  | none => cases hb <;> simp
  | some hx =>
    cases hb with
    | none => simp
    | some hy =>
      rw [some.injEq, some.injEq]
      constructor
      · rintro rfl
        exact h.meaning_unique hx hy
      · rintro rfl
        exact h.id_unique hx hy

theorem Canonical.desc?_of_denotes (h : t.Canonical) (hD : t.Denotes id D) :
    ∃ d, t.desc? id = some d := by
  cases D with
  | plain d => exact ⟨d, hD.2⟩
  | tuple elems => exact (info?_eq_some.mp hD).imp fun _ => And.left
  | function s => exact (info?_eq_some.mp hD).imp fun _ => And.left
  | nominal name =>
    obtain hk | hk := h.nominals name id hD
    · exact (desc?_of_kind hk (by simp)).imp fun _ => And.left
    · exact (desc?_of_kind hk (by simp)).imp fun _ => And.left

theorem Persists.denotes_iff {C : Meaning} (h : t.Persists t') (hD : t.Denotes id D) :
    t'.Denotes id C ↔ t.Denotes id C :=
  ⟨fun hC => h.canonical.meaning_unique (h.denotes id D hD) hC ▸ hD, h.denotes id C⟩

/-- Two requests get the same id, whatever was asked before and between them, exactly if they
describe the same type. An id keeps its descriptor and the parts of the tuple or function that it
stands for, and different ids have different descriptors. -/
theorem type_ids_canonical (before between : List Request) (r r' : Request) :
    let t := initial.after before
    let u := (r.run t).2.after between
    ((r.run t).1 = (r'.run u).1 ↔ r.meaning? = r'.meaning?) ∧
      (∀ id, (r.run t).1 = some id → (∃ d, (r.run t).2.desc? id = some d ∧ u.desc? id = some d) ∧
        u.tuple? id = (r.run t).2.tuple? id ∧ u.signature? id = (r.run t).2.signature? id) ∧
      ∀ x y d, u.desc? x = some d → u.desc? y = some d → x = y := by
  obtain ⟨hrun, hanswer⟩ := (canonical_initial.after before).canonical.run r
  have hu := hrun.canonical.after between
  obtain ⟨hrun', hanswer'⟩ := hu.canonical.run r'
  refine ⟨?_, fun id hid => ?_, fun x y d hx hy => hu.canonical.desc?_inj hx hy⟩
  · exact hrun'.canonical.eq_iff (hrun'.stands (hu.stands hanswer)) hanswer'
  · rw [hid] at hanswer
    generalize r.meaning? = M at hanswer
    obtain ⟨hD⟩ := hanswer
    obtain ⟨d, hd⟩ := hrun.canonical.desc?_of_denotes hD
    exact ⟨⟨d, hd, hu.desc id d hd⟩, Option.ext fun elems => hu.denotes_iff (C := .tuple elems) hD,
      Option.ext fun s => hu.denotes_iff (C := .function s) hD⟩

end Midlevel.TypeTable
