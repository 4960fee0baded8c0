import Midlevel.Proofs.Lowering.Frames

/-!
What the declarations of a tree leave in the type table. Names are declared before members, so the
table is not merely extended while types are declared: fields, methods and properties are filled in.
When all are filled in, every conformance that a type declares is checked, against the tables that
code is then built with.
-/

namespace Midlevel

open Ir List TypeTable

variable {f : TypeTable → TypeTable} {d : TypeDecl} {c : TypeId}

/-! ### Declaring types -/

namespace Lowering

open Midlevel.Tree Build

variable {s : Builder} {decls : List TypeDecl} {methods : Methods} {t : TypeId}

/-- Only types were declared: no code was built, and every name still means what it meant. -/
structure Declares (m m' : Ir.Module) : Prop where
  outline : m'.outline = { m.outline with types := m'.types }
  rooted : m.types.Rooted → m'.types.Rooted
  complete : m.types.Complete → m'.types.Complete
  nominal : ∀ name t, m.types.nominal? name = some t → m'.types.nominal? name = some t

instance : IsPreorder Ir.Module Declares where
  refl _ := ⟨rfl, id, id, fun _ _ h => h⟩
  trans m m₁ m₂ h h' := by
    refine ⟨?_, h'.rooted ∘ h.rooted, h'.complete ∘ h.complete, fun name t hn =>
      h'.nominal name t (h.nominal name t hn)⟩
    rw [h'.outline, h.outline]

instance : OutlineFraming Declares where
  quiet m m' h := by
    refine ⟨?_, fun hr => ?_, fun hc => ?_, fun name t hn => ?_⟩
    · rw [h.types_eq]
      exact h
    · rwa [h.types_eq]
    · rwa [h.types_eq]
    · rwa [h.types_eq]
  types m t h := ⟨rfl, h.rooted, h.complete, fun _ _ hn => h.nominal? hn⟩

instance {R : Ir.Module → Ir.Module → Prop} [TypeFraming R] (place : Text) (fields : List Field) :
    Frames R (resolveMembers place fields) := .mapM

@[instance] theorem quiet_declareType {R : Ir.Module → Ir.Module → Prop} [QuietFraming R]
    (t : TypeId) : Frames R (declareType t) :=
  quiet_modifyModule fun m => by
    split <;> rfl

theorem wp_declareName (d : TypeDecl) :
    wp (declareName d) (fun t u => Declares s.module u.module ∧
      u.module.types.nominal? d.name = some t) Any s := by
  unfold declareName
  rw [wp_bind, wp_types, wp_ite]
  refine ⟨fun _ => trivial, fun _ => ?_⟩
  have hend {t : TypeId} {u : Builder} (hu : Declares s.module u.module)
      (hn : u.module.types.nominal? d.name = some t) :
      wp (do declareType t; return t)
        (fun t u => Declares s.module u.module ∧
            u.module.types.nominal? d.name = some t) Any u := by
    rw [wp_bind]
    refine wp_mono (frames_iff_wp.mp (quiet_declareType (R := Declares) t) u) (fun _ v hd => ?_)
      fun _ _ _ => trivial
    exact ⟨trans_of Declares hu hd, hd.nominal _ _ hn⟩
  rw [wp_ite]
  refine ⟨fun _ => ?_, fun _ => ?_⟩
  · exact hend (TypeFraming.types _ _ (extends_declareConcept _ _)) (nominal?_declareConcept _ _)
  · exact hend (TypeFraming.types _ _ (extends_declareStruct _ _)) (nominal?_declareStruct _ _)

theorem wp_declareNames (decls : List TypeDecl) :
    wp (decls.mapM declareName) (fun ids u => Declares s.module u.module ∧
        List.Forall₂ (fun d t => u.module.types.nominal? d.name = some t) decls ids) Any s := by
  induction decls generalizing s with
  | nil =>
    exact ⟨refl_of Declares _, .nil⟩
  | cons d decls ih =>
    rw [mapM_cons, wp_bind]
    refine wp_mono (wp_declareName d) (fun t u ⟨hu, hn⟩ => ?_) fun _ _ _ => trivial
    rw [wp_bind]
    refine wp_mono ih (fun ids v ⟨hv, hids⟩ => ?_) fun _ _ _ => trivial
    exact ⟨trans_of Declares hu hv, .cons (hv.nominal _ _ hn) hids⟩

/-! ### Members -/

theorem declares_setTypes (hd : ∀ t, (f t).descs = t.descs)
    (hc : ∀ t : TypeTable, t.Complete → (f t).Complete) (hn : ∀ t, (f t).nominals = t.nominals) :
    Frames Declares (setTypes f) := by
  refine ⟨fun s => ⟨rfl, fun hr => ?_, hc _, fun name t ht => ?_⟩⟩
  · show (f s.module.types).descs[0]? = _
    rw [hd]
    exact hr
  · show ((f s.module.types).nominals.find? _).map _ = _
    rw [hn]
    exact ht

instance (self : TypeId) (concept : Text) (d : FuncDecl) :
    Frames Declares (conceptMethod self concept d) := .next inferInstance

/-- The methods of a struct are those of one of its declarations. -/
def Methods.Declared (decls : List TypeDecl) (types : TypeTable) (methods : Methods) : Prop :=
  ∀ t names, (t, names) ∈ methods → ∃ d ∈ decls, d.isConcept = false ∧
    types.nominal? d.name = some t ∧
    names = d.methods.map (·.name)

theorem Methods.Declared.mono {m m' : Ir.Module} (h : methods.Declared decls m.types)
    (hm : Declares m m') :
    methods.Declared decls m'.types := by
  intro t names hmem
  obtain ⟨d, hd, hc, hn, hnames⟩ := h t names hmem
  exact ⟨d, hd, hc, hm.nominal _ _ hn, hnames⟩

theorem wp_declareMembers (hd : d ∈ decls) (hn : s.module.types.nominal? d.name = some t)
    (hmethods : methods.Declared decls s.module.types) : wp (declareMembers methods t d)
      (fun methods u => Declares s.module u.module ∧
      methods.Declared decls u.module.types) Any s := by
  have hframe : Frames Declares (declareMembers methods t d) := by
    unfold declareMembers
    have (ms : List Member) : Frames Declares (setTypes (·.setMethods t ms)) :=
      declares_setTypes (fun _ => rfl) (fun _ h => h.setMethods t ms) fun _ => rfl
    have (ps : List Member) : Frames Declares (setTypes (·.setProperties t ps)) :=
      declares_setTypes (fun _ => rfl) (fun _ h => h.setProperties t ps) fun _ => rfl
    have (fs : List Member) : Frames Declares (setTypes (·.setFields t fs)) :=
      declares_setTypes (fun _ => rfl) (fun _ h => h.setFields t fs) fun _ => rfl
    infer_instance
  have hanswer : wp (declareMembers methods t d)
      (fun r _ => r = methods ∨ d.isConcept = false ∧ r = (t, d.methods.map (·.name)) :: methods)
      Any s := by
    unfold declareMembers
    rw [wp_ite]
    refine ⟨fun _ => ?_, fun hc => ?_⟩
    · exact wp_bind_of_forall fun _ _ => wp_bind_of_forall fun _ _ => wp_bind_of_forall fun _ _ =>
        wp_bind_of_forall fun _ _ => .inl rfl
    · refine wp_bind_of_forall fun _ _ => wp_bind_of_forall fun _ _ => .inr ⟨?_, rfl⟩
      exact Bool.not_eq_true _ ▸ hc
  refine wp_imp (hframe.wp_and hanswer) fun r u ⟨hu, hr⟩ => ⟨hu, ?_⟩
  obtain rfl | ⟨hc, rfl⟩ := hr
  · exact hmethods.mono hu
  · intro t' names hmem
    obtain heq | hmem := mem_cons.mp hmem
    · obtain ⟨rfl, rfl⟩ := Prod.mk.inj heq
      exact ⟨d, hd, hc, hu.nominal _ _ hn, rfl⟩
    · exact hmethods.mono hu t' names hmem

theorem wp_declareAllMembers {declared : List (TypeId × TypeDecl)}
    (hd : ∀ p ∈ declared, p.2 ∈ decls ∧ s.module.types.nominal? p.2.name = some p.1)
    (hmethods : methods.Declared decls s.module.types) :
    wp (declared.foldlM (fun methods (t, d) => declareMembers methods t d) methods)
      (fun methods u => Declares s.module u.module ∧
      methods.Declared decls u.module.types) Any s := by
  induction declared generalizing methods s with
  | nil => exact ⟨refl_of Declares _, hmethods⟩
  | cons p declared ih =>
    rw [foldlM_cons, wp_bind]
    have hp := hd p mem_cons_self
    refine wp_imp (wp_declareMembers hp.1 hp.2 hmethods) fun methods u ⟨hu, hm⟩ => ?_
    refine wp_imp (ih (fun q hq => ?_) hm) fun _ v ⟨hv, hm'⟩ => ⟨trans_of Declares hu hv, hm'⟩
    have hq' := hd q (mem_cons_of_mem _ hq)
    exact ⟨hq'.1, hu.nominal _ _ hq'.2⟩

/-! ### Conformances -/

/-- A declaration of the struct `t` has a method of that name. -/
def HasMethod (decls : List TypeDecl) (types : TypeTable) (t : TypeId) (name : Text) : Prop :=
  ∃ d ∈ decls, d.isConcept = false ∧ types.nominal? d.name = some t ∧ ∃ f ∈ d.methods, f.name = name

/-- The struct `t` has a method for each method of the concept `c`, by its name, and a field for
each property, by its name and type. -/
structure Provides (decls : List TypeDecl) (types : TypeTable) (t c : TypeId)
    (info : ConceptInfo) : Prop where
  concept : types.concept? c = some info
  method : ∀ r ∈ info.methods, HasMethod decls types t r.name
  property : ∀ p ∈ info.properties, ∃ i, types.field? t p.name = some (i, p.type)

theorem Provides.mono {types types' : TypeTable} {info : ConceptInfo}
    (h : Provides decls types t c info) (hext : types.Extends types') :
    Provides decls types' t c info where
  concept := hext.concept? h.concept
  method r hr := by
    obtain ⟨d, hd, hc, hn, hf⟩ := h.method r hr
    exact ⟨d, hd, hc, hext.nominal? hn, hf⟩
  property p hp := by
    obtain ⟨i, hi⟩ := h.property p hp
    exact ⟨i, hext.field? hi⟩

theorem provides_of_conforms {types : TypeTable} (hmethods : methods.Declared decls types)
    {u : Unit} (h : (types.conforms t c fun name => ((methods.lookup t).getD []).contains name) =
      .ok u) :
    ∃ info, Provides decls types t c info := by
  unfold conforms at h
  split at h
  · cases h
  · next info hinfo =>
    split at h
    · cases h
    · next hfound =>
      split at h
      · cases h
      · next hprops =>
        refine ⟨info, hinfo, fun r hr => ?_, fun p hp => ?_⟩
        · have hcontains := List.find?_eq_none.mp hfound r hr
          rw [Bool.not_eq_true, Bool.not_eq_false', contains_iff_mem] at hcontains
          cases hlookup : methods.lookup t with
          | none =>
            rw [hlookup] at hcontains
            cases hcontains
          | some names =>
            rw [hlookup] at hcontains
            obtain ⟨before, after, rfl, -⟩ := lookup_eq_some_iff.mp hlookup
            obtain ⟨d, hd, hc, hn, rfl⟩ := hmethods t names (by simp)
            obtain ⟨f, hf, hname⟩ := mem_map.mp hcontains
            exact ⟨d, hd, hc, hn, f, hf, hname⟩
        · have hmet := List.findSome?_eq_none_iff.mp hprops p hp
          unfold missingProperty? at hmet
          split at hmet
          · cases hmet
          · next i type hfield =>
            split at hmet
            · next htype => exact ⟨i, htype ▸ hfield⟩
            · cases hmet

/-- Each conformance that the declaration `d` of the type `t` names is one. -/
def Conformances (decls : List TypeDecl) (types : TypeTable) (t : TypeId)
    (names : List Text) : Prop :=
  ∀ name ∈ names, ∃ c info, types.nominal? name = some c ∧ Provides decls types t c info

theorem wp_checkConformance (hmethods : methods.Declared decls s.module.types) (name : Text) :
    wp (checkConformance methods t d name)
      (fun _ u => u = s ∧ ∃ c info, s.module.types.nominal? name = some c ∧
      Provides decls s.module.types t c info)
      Any s := by
  unfold checkConformance
  rw [wp_bind, wp_types]
  cases hn : s.module.types.nominal? name with
  | none => trivial
  | some c =>
    rw [wp_bind, wp_types]
    split
    · next hok =>
      obtain ⟨info, hinfo⟩ := provides_of_conforms hmethods hok
      exact ⟨rfl, c, info, rfl, hinfo⟩
    · trivial

/-- The types of a tree are declared, and each conformance that one of them declares is one. -/
theorem wp_declareTypes (decls : List TypeDecl) : wp (declareTypes decls)
      (fun _ u => Declares s.module u.module ∧
      ∀ d ∈ decls, ∃ t, u.module.types.nominal? d.name = some t ∧
        Conformances decls u.module.types t d.conforms) Any s := by
  refine wp_seq (wp_declareNames decls) fun ids u ⟨hu, hids⟩ => ?_
  have hdeclared : ∀ p ∈ ids.zip decls, p.2 ∈ decls ∧ u.module.types.nominal? p.2.name =
      some p.1 := by
    intro p hp
    have hflip : List.Forall₂ (fun t (d : TypeDecl) => u.module.types.nominal? d.name =
        some t) ids decls :=
      List.Forall₂.flip hids
    exact ⟨(of_mem_zip hp).2, (List.forall₂_iff_zip.mp hflip).2 hp⟩
  refine wp_seq (wp_declareAllMembers hdeclared fun _ _ h => absurd h not_mem_nil)
    fun methods v ⟨hv, hmethods⟩ => ?_
  have hchecks : wp ((ids.zip decls).forM fun (t, d) =>
    d.conforms.forM (checkConformance methods t d))
      (fun _ w => w = v ∧ ∀ p ∈ ids.zip decls, Conformances decls v.module.types p.1 p.2.conforms)
      Any v :=
    wp_forM_of_checks fun _ _ => wp_forM_of_checks fun name _ => wp_checkConformance hmethods name
  refine wp_imp hchecks fun _ w ⟨hw, hall⟩ => ?_
  subst hw
  refine ⟨trans_of Declares hu hv, fun d hd => ?_⟩
  obtain ⟨i, hi, rfl⟩ := getElem_of_mem hd
  have hlen := hids.length_eq
  have hmem : (ids[i], decls[i]) ∈ ids.zip decls := by
    rw [mem_iff_getElem]
    exact ⟨i, by simp; omega, by simp⟩
  exact ⟨ids[i], hv.nominal _ _ (hdeclared _ hmem).2, hall _ hmem⟩

end Lowering

end Midlevel
