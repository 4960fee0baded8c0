import Midlevel.Layout.Engine
import Midlevel.Layout.Basic
import Mathlib.Data.List.Nodup
import Mathlib.Data.List.Perm.Subperm
import Mathlib.Logic.Relation

/-!
What the search for a layout finds. A type answers for itself once all its parts have layouts.
Otherwise the search goes into the first part that has none, and so on, until it comes to a type
that fails of itself or back to a type that it is in already. Which of these happens depends on the
types alone, so what the engine remembers can not change its answers.
-/

namespace Midlevel

open List TypeTable Except

namespace Layout

inductive Failure where
  | recursive
  | unsized
  | overflow
  | other (code : UInt8)
  deriving DecidableEq

end Layout

def LayoutError.failure : LayoutError → Layout.Failure
  | recursive _ _ => .recursive
  | unsized _ => .unsized
  | overflow _ _ => .overflow
  | other code _ => .other code

namespace Layout

open Relation

/-- An answer without the texts of its failure. -/
def verdict (answer : Answer) : Except Failure TypeLayout := answer.mapError (·.failure)

/-- The types whose values stand within the values of a type. -/
def contents (t : TypeTable) (id : TypeId) : List TypeId :=
  match t.desc? id with
  | none => []
  | some d =>
    match d.kind with
    | .struct => (t.structFields id).map (·.type)
    | .tuple => (t.tuple? id).getD []
    | .refBox => (t.structFields d.elem).map (·.type)
    | _ => []

def Contains (t : TypeTable) (a b : TypeId) : Prop := b ∈ contents t a

/-- Some chain of types, each within the one before, comes to a type that is within itself. -/
def Infinite (t : TypeTable) (id : TypeId) : Prop :=
  ∃ a, ReflTransGen (Contains t) id a ∧ TransGen (Contains t) a a

/-- What is placed for an aggregate: a box has a count before its contents. -/
def parts? (t : TypeTable) (id : TypeId) : Option (List TypeId) :=
  match t.kind id with
  | .struct | .tuple => some (contents t id)
  | .refBox => some (.int64 :: contents t id)
  | _ => none

/-- The answer for a type that is no aggregate. -/
def plain (t : TypeTable) (g : Target) (id : TypeId) : Answer :=
  ((compute t g (fun _ => pure (.ok .empty)) id).run []).1

/-- The answer for an aggregate whose parts have layouts. -/
def arrange (t : TypeTable) (id : TypeId) (parts : List TypeLayout) : Answer :=
  close (t.label id) (parts.foldl place .empty)

variable {t : TypeTable} {g : Target} {id a b c e : TypeId} {es pre pending : List TypeId}
  {answer answer' : Answer} {l : TypeLayout} {depth : Nat} {α β : Type}

/-! ### What one type does -/

theorem aggregate_eq (part : TypeId → Query Answer) (label : Text) (es : List TypeId) :
    aggregate part label es = placeAll part es .empty >>= fun r => pure (r.bind (close label)) := by
  cases es with
  | nil => rfl
  | cons e es => exact bind_congr fun r => by cases r <;> rfl

theorem compute_eq (part : TypeId → Query Answer) : compute t g part id =
    (parts? t id).elim (pure (plain t g id)) (aggregate part (t.label id)) := by
  unfold parts? contents kind plain compute
  cases t.desc? id with
  | none => rfl
  | some d => cases hk : d.kind with
    | tuple => cases t.tuple? id <;> simp only [hk] <;> rfl
    | _ =>
      simp only [hk]
      rfl

theorem known_of_parts? (h : parts? t id = some es) : id.index < t.descs.size := by
  by_contra hid
  have hnone : t.desc? id = none := by
    unfold desc?
    rw [Array.getElem?_eq_none (Nat.le_of_not_lt hid), ite_self]
  unfold parts? kind at h
  rw [hnone] at h
  cases h

/-- The type answers for itself: it is no aggregate, or all its parts have layouts. -/
inductive Answers (t : TypeTable) (g : Target) : TypeId → Answer → Prop
  | plain {id : TypeId} (h : parts? t id = none) : Answers t g id (plain t g id)
  | arranged {id : TypeId} {es : List TypeId} (part : TypeId → TypeLayout)
    (h : parts? t id = some es)
    (hes : ∀ e ∈ es, Answers t g e (.ok (part e))) : Answers t g id (arrange t id (es.map part))

def Sized (t : TypeTable) (g : Target) (id : TypeId) : Prop := ∃ l, Answers t g id (.ok l)

def Part (t : TypeTable) (a b : TypeId) : Prop := ∃ es, parts? t a = some es ∧ b ∈ es

/-- The search comes from `a` to `b`: the parts before have layouts. -/
def Tries (t : TypeTable) (g : Target) (a b : TypeId) : Prop :=
  ∃ pre post, parts? t a = some (pre ++ b :: post) ∧ ∀ e ∈ pre, Sized t g e

/-- The search comes from `a` to `b` and finds no layout there. -/
def Sticks (t : TypeTable) (g : Target) (a b : TypeId) : Prop :=
  Tries t g a b ∧ ¬ Sized t g b

/-- The search ends at `a`, for the reason `f`: the type fails of itself, or is come to again. -/
def Ends (t : TypeTable) (g : Target) (a : TypeId) (f : Failure) : Prop :=
  (∃ e, Answers t g a (.error e) ∧ e.failure = f) ∨ f = .recursive ∧ TransGen (Sticks t g) a a

/-- What becomes of the search from a type. -/
def Finds (t : TypeTable) (g : Target) (id : TypeId) : Except Failure TypeLayout → Prop
  | .ok l => Answers t g id (.ok l)
  | .error f => ∃ a, ReflTransGen (Sticks t g) id a ∧ Ends t g a f

theorem Tries.part (h : Tries t g a b) : Part t a b := by
  obtain ⟨pre, post, hparts, -⟩ := h
  exact ⟨_, hparts, by simp⟩

/-- What becomes of the search, without the texts of a failure. -/
def Found (t : TypeTable) (g : Target) (id : TypeId) (answer : Answer) : Prop :=
  Finds t g id (verdict answer)

theorem Answers.sized (h : Answers t g a answer) (hab : Part t a b) : Sized t g b := by
  obtain ⟨es, hes, hb⟩ := hab
  cases h with
  | plain hnone => cases hnone.symm.trans hes
  | arranged part hsome hparts => exact ⟨_, hparts b (Option.some.inj (hes.symm.trans hsome) ▸ hb)⟩

theorem Sticks.not_answers (h : Sticks t g a b) : ¬ Answers t g a answer :=
  fun hanswers => h.2 (hanswers.sized h.1.part)

theorem Answers.eq (h : Answers t g id answer) (h' : Answers t g id answer') :
    answer = answer' := by
  induction h generalizing answer' with
  | plain hnone => cases h' with
    | plain => rfl
    | arranged _ hsome => cases hnone.symm.trans hsome
  | arranged part hsome _ ih => cases h' with
    | plain hnone => cases hnone.symm.trans hsome
    | arranged part' hsome' hparts' =>
      obtain rfl := Option.some.inj (hsome.symm.trans hsome')
      rw [map_congr_left fun e he => ok.inj (ih e he (hparts' e he))]

theorem Sticks.eq (h : Sticks t g a b) (h' : Sticks t g a c) : b = c := by
  obtain ⟨⟨pre, post, hparts, hpre⟩, hb⟩ := h
  obtain ⟨⟨pre', post', hparts', hpre'⟩, hc⟩ := h'
  have heq := Option.some.inj (hparts.symm.trans hparts')
  obtain ⟨mid, rfl, hmid⟩ | ⟨mid, rfl, hmid⟩ := append_eq_append_iff.mp heq <;> cases mid
  · exact (cons.inj hmid).1
  · exact absurd (hpre' b (by simp [(cons.inj hmid).1])) hb
  · exact (cons.inj hmid).1.symm
  · exact absurd (hpre c (by simp [(cons.inj hmid).1])) hc

theorem Answers.not_cyclic (h : Answers t g a answer) : ¬ TransGen (Part t) a a := by
  induction h with
  | plain hnone =>
    intro hcycle
    obtain ⟨b, ⟨es, hes, -⟩, -⟩ := TransGen.head'_iff.mp hcycle
    cases hnone.symm.trans hes
  | arranged part hsome _ ih =>
    intro hcycle
    obtain ⟨b, hab, hba⟩ := TransGen.head'_iff.mp hcycle
    have hbb := TransGen.tail' hba hab
    obtain ⟨es, hes, hb⟩ := hab
    exact ih b (Option.some.inj (hes.symm.trans hsome) ▸ hb) hbb

theorem Sized.not_cyclic (h : Sized t g a) : ¬ TransGen (Tries t g) a a := by
  obtain ⟨l, hl⟩ := h
  exact fun hcycle => hl.not_cyclic (TransGen.mono (fun _ _ => Tries.part) _ _ hcycle)

theorem sticks_of_cycle (h : TransGen (Tries t g) a b) (hb : ReflTransGen (Tries t g) b a) :
    TransGen (Sticks t g) a b := by
  induction h with
  | single hab => exact .single ⟨hab, fun hsized => hsized.not_cyclic (TransGen.tail' hb hab)⟩
  | tail hab hbc ih =>
    refine (ih (hb.head hbc)).tail ⟨hbc, fun hsized => hsized.not_cyclic ?_⟩
    exact TransGen.trans_right hb (hab.tail hbc)

theorem cyclic_of_cycle (h : TransGen (Sticks t g) a a) (hab : ReflTransGen (Sticks t g) a b) :
    TransGen (Sticks t g) b b := by
  induction hab with
  | refl => exact h
  | tail _ hbc ih =>
    obtain ⟨d, hbd, hdb⟩ := TransGen.head'_iff.mp ih
    obtain rfl := hbd.eq hbc
    exact TransGen.tail' hdb hbc

/-! ### Where the search ends -/

variable {f f' : Failure} {r r' : Except Failure TypeLayout}

theorem Ends.not_sized (h : Ends t g a f) : ¬ Sized t g a := by
  rintro ⟨l, hl⟩
  obtain ⟨e, he, -⟩ | ⟨-, hcycle⟩ := h
  · cases hl.eq he
  · obtain ⟨b, hab, -⟩ := TransGen.head'_iff.mp hcycle
    exact hab.not_answers hl

theorem Ends.eq (h : Ends t g a f) (h' : Ends t g b f')
    (hab : ReflTransGen (Sticks t g) a b) : f = f' := by
  obtain ⟨e, he, rfl⟩ | ⟨rfl, hcycle⟩ := h
  · -- nothing is tried after a type that answers
    obtain rfl | ⟨c, hac, -⟩ := hab.cases_head
    · obtain ⟨e', he', rfl⟩ | ⟨-, hcycle⟩ := h'
      · rw [error.inj (he.eq he')]
      · obtain ⟨c, hac, -⟩ := TransGen.head'_iff.mp hcycle
        exact absurd he hac.not_answers
    · exact absurd he hac.not_answers
  · obtain ⟨e', he', -⟩ | ⟨rfl, -⟩ := h'
    · obtain ⟨c, hbc, -⟩ := TransGen.head'_iff.mp (cyclic_of_cycle hcycle hab)
      exact absurd he' hbc.not_answers
    · rfl

theorem Finds.not_sized (h : Finds t g id (.error f)) : ¬ Sized t g id := by
  obtain ⟨a, hida, hends⟩ := h
  obtain rfl | ⟨b, hidb, -⟩ := hida.cases_head
  · exact hends.not_sized
  · exact fun ⟨_, hl⟩ => hidb.not_answers hl

theorem Finds.eq (h : Finds t g id r) (h' : Finds t g id r') : r = r' := by
  cases r with
  | ok l => cases r' with
    | ok l' => rw [ok.inj (Answers.eq h h')]
    | error f => exact absurd ⟨l, h⟩ (Finds.not_sized h')
  | error f => cases r' with
    | ok l => exact absurd ⟨l, h'⟩ (Finds.not_sized h)
    | error f' =>
      obtain ⟨a, hida, ha⟩ := h
      obtain ⟨b, hidb, hb⟩ := h'
      have hunique : Relator.RightUnique (Sticks t g) := fun _ _ _ => Sticks.eq
      obtain hab | hba := hida.total_of_right_unique hunique hidb
      · rw [ha.eq hb hab]
      · rw [hb.eq ha hba]

theorem Answers.found (h : Answers t g id answer) : Found t g id answer := by
  cases answer with
  | ok l => exact h
  | error e => exact ⟨id, .refl, .inl ⟨e, h, rfl⟩⟩

theorem Finds.of_tries (h : Finds t g b (.error f)) (hab : Tries t g a b) :
    Finds t g a (.error f) := by
  have hsticks : Sticks t g a b := ⟨hab, h.not_sized⟩
  obtain ⟨c, hbc, hc⟩ := h
  exact ⟨c, hbc.head hsticks, hc⟩

/-! ### The engine -/

def Sound (t : TypeTable) (g : Target) (m : Memory) : Prop :=
  ∀ p ∈ m, Found t g p.1 p.2

/-- Whatever the engine remembers, the answer to the query is within `P`. -/
def Meets (t : TypeTable) (g : Target) (x : Query α) (P : α → Prop) : Prop :=
  ∀ m, Sound t g m → P (x.run m).1 ∧ Sound t g (x.run m).2

theorem Meets.pure {P : α → Prop} {x : α} (h : P x) : Meets t g (Pure.pure x) P :=
  fun _ hm => ⟨h, hm⟩

theorem Meets.bind {P : α → Prop} {Q : β → Prop} {x : Query α} {k : α → Query β}
    (hx : Meets t g x P)
    (hk : ∀ y, P y → Meets t g (k y) Q) : Meets t g (x >>= k) Q := by
  intro m hm
  obtain ⟨hy, hm'⟩ := hx m hm
  exact hk _ hy _ hm'

structure Open (t : TypeTable) (pending : List TypeId) : Prop where
  nodup : pending.Nodup
  known : ∀ id ∈ pending, id.index < t.descs.size

theorem Open.length_le (h : Open t pending) : pending.length ≤ t.descs.size := by
  have hnodup : (pending.map (·.index)).Nodup :=
    List.Nodup.map (fun _ _ hab => congrArg TypeId.mk hab) h.nodup
  have hsub : pending.map (·.index) ⊆ range t.descs.size := by
    intro n hn
    obtain ⟨id, hid, rfl⟩ := mem_map.mp hn
    exact mem_range.mpr (h.known id hid)
  simpa using (hnodup.subperm hsub).length_le

theorem Open.cons (h : Open t pending) (hid : id ∉ pending) (hes : parts? t id = some es) :
    Open t (id :: pending) :=
  ⟨nodup_cons.mpr ⟨hid, h.nodup⟩, forall_mem_cons.mpr ⟨known_of_parts? hes, h.known⟩⟩

noncomputable def layout (t : TypeTable) (g : Target) (id : TypeId) : TypeLayout :=
  Classical.epsilon fun l => Answers t g id (.ok l)

theorem Sized.answers (h : Sized t g id) : Answers t g id (.ok (layout t g id)) :=
  Classical.epsilon_spec h

theorem Answers.layout_eq (h : Answers t g id (.ok l)) : layout t g id = l :=
  ok.inj ((Sized.answers ⟨l, h⟩).eq h)

def Placed (t : TypeTable) (g : Target) (id : TypeId) : Answer → Prop
  | .ok acc => Answers t g id (close (t.label id) acc)
  | .error e => Finds t g id (.error e.failure)

theorem placeAll_meets {part : TypeId → Query Answer} (pre : List TypeId)
    (hparts : parts? t id = some (pre ++ es))
    (hpre : ∀ e ∈ pre, Sized t g e)
    (hpart : ∀ e, Tries t g id e → Meets t g (part e) (Found t g e)) :
    Meets t g (placeAll part es ((pre.map (layout t g)).foldl place .empty)) (Placed t g id) := by
  induction es generalizing pre with
  | nil =>
    rw [append_nil] at hparts
    exact .pure (.arranged _ hparts fun e he => (hpre e he).answers)
  | cons e es ih =>
    have htries : Tries t g id e := ⟨pre, es, hparts, hpre⟩
    refine (hpart e htries).bind fun r hr => ?_
    cases r with
    | error err => exact .pure (Finds.of_tries hr htries)
    | ok l =>
      have hpre' : ∀ a ∈ pre ++ [e], Sized t g a := by
        intro a ha
        rcases mem_append.mp ha with ha | ha
        · exact hpre a ha
        · exact mem_singleton.mp ha ▸ ⟨l, hr⟩
      simpa [Answers.layout_eq hr] using ih _ (by simpa using hparts) hpre'

theorem compute_meets {part : TypeId → Query Answer}
    (hpart : ∀ e, Tries t g id e → Meets t g (part e) (Found t g e)) :
    Meets t g (compute t g part id) (Found t g id) := by
  rw [compute_eq]
  cases hparts : parts? t id with
  | none => exact .pure (Answers.found (.plain hparts))
  | some es =>
    rw [Option.elim_some, aggregate_eq]
    refine (placeAll_meets [] hparts nofun hpart).bind fun r hr => ?_
    cases r with
    | error e => exact .pure hr
    | ok acc => exact .pure hr.found

/-- The search of the engine, within the types that it is in already. -/
theorem query_meets (hopen : Open t pending) (hdepth : t.descs.size < depth + pending.length)
    (hpending : ∀ p ∈ pending, TransGen (Tries t g) p id) :
    Meets t g (query t g depth pending id) (Found t g id) := by
  induction depth generalizing pending id with
  | zero => exact absurd hopen.length_le (by omega)
  | succ depth ih =>
    refine Meets.bind (P := fun m => Sound t g m) (fun m hm => ⟨hm, hm⟩) fun m hm => ?_
    cases hmem : remembered? m id with
    | some r =>
      obtain ⟨p, hp, rfl⟩ := Option.map_eq_some_iff.mp hmem
      have hid := find?_some hp
      refine .pure ?_
      rw [← of_decide_eq_true hid]
      exact hm p (mem_of_find?_eq_some hp)
    | none =>
      dsimp only
      split
      · next hid =>
        have hcycle := hpending id hid
        exact .pure ⟨id, .refl, .inr ⟨rfl, sticks_of_cycle hcycle .refl⟩⟩
      · next hid =>
        refine (compute_meets fun e he => ?_).bind fun r hr m hm => ⟨hr, ?_⟩
        · have hparts := he
          obtain ⟨pre, post, hparts, -⟩ := hparts
          refine ih (hopen.cons hid hparts) (by simp; omega) ?_
          rintro p hp
          rcases mem_cons.mp hp with rfl | hp
          · exact .single he
          · exact (hpending p hp).tail he
        · exact forall_mem_cons.mpr ⟨hr, hm⟩

theorem query_add (g : Target) (hopen : Open t pending)
    (hdepth : t.descs.size < depth + pending.length) (k : Nat) :
    query t g (depth + k) pending = query t g depth pending := by
  induction depth generalizing pending with
  | zero => exact absurd hopen.length_le (by omega)
  | succ depth ih =>
    funext id
    rw [Nat.add_right_comm]
    refine bind_congr fun m => ?_
    cases remembered? m id with
    | some r => rfl
    | none =>
      dsimp only
      split
      · rfl
      · next hid =>
        rw [compute_eq, compute_eq]
        cases hparts : parts? t id with
        | none => rfl
        | some es => rw [ih (hopen.cons hid hparts) (by simp; omega)]

/-! ### Histories of an engine -/

inductive Question where
  | layout (id : TypeId)
  | size (id : TypeId)
  | align (id : TypeId)
  | offset (id : TypeId) (index : Int)

def Question.ask (t : TypeTable) (g : Target) : Question → Query Unit
  | layout id => discard (layoutOf t g id)
  | size id => discard (sizeOf t g id)
  | align id => discard (alignOf t g id)
  | offset id index => discard (fieldOffset t g id index)

def remembering (t : TypeTable) (g : Target) (qs : List Question) : Memory :=
  ((qs.forM (Question.ask t g)).run []).2

/-- The answer of an engine that was asked some questions before. -/
def answerAfter (t : TypeTable) (g : Target) (qs : List Question) (id : TypeId) : Answer :=
  ((layoutOf t g id).run (remembering t g qs)).1

theorem layoutOf_meets : Meets t g (layoutOf t g id) (Found t g id) :=
  query_meets ⟨.nil, nofun⟩ (by simp) nofun

theorem Question.ask_meets (q : Question) : Meets t g (q.ask t g) fun _ => True := by
  cases q <;> exact layoutOf_meets.bind fun _ _ => .pure trivial

theorem sound_remembering (qs : List Question) : Sound t g (remembering t g qs) := by
  suffices h : Meets t g (qs.forM (Question.ask t g)) fun _ => True from (h [] nofun).2
  induction qs with
  | nil => exact .pure trivial
  | cons q qs ih => exact q.ask_meets.bind fun _ _ => ih

variable {qs : List Question}

theorem found_answerAfter (qs : List Question) : Found t g id (answerAfter t g qs id) :=
  (layoutOf_meets _ (sound_remembering qs)).1

theorem answers_of_answerAfter (h : answerAfter t g qs id = .ok l) : Answers t g id (.ok l) := by
  have hfound : Found t g id (answerAfter t g qs id) := found_answerAfter qs
  rw [h] at hfound
  exact hfound

theorem answerAfter_of_answers (h : Answers t g id (.ok l)) : answerAfter t g qs id = .ok l := by
  have heq := (found_answerAfter qs).eq h.found
  cases hanswer : answerAfter t g qs id with
  | ok l' => exact congrArg ok (ok.inj (hanswer ▸ heq))
  | error e => cases hanswer ▸ heq

/-- What an engine was asked before has no influence on its answers. -/
theorem layout_ignores_history (t : TypeTable) (g : Target) (qs : List Question) (id : TypeId) :
    verdict (answerAfter t g qs id) = verdict (answerAfter t g [] id) :=
  (found_answerAfter qs).eq (found_answerAfter [])

/-! ### Infinite types -/

theorem Sized.of_reaches (h : Sized t g a) (hab : ReflTransGen (Part t) a b) : Sized t g b := by
  induction hab with
  | refl => exact h
  | tail _ hbc ih =>
    obtain ⟨l, hl⟩ := ih
    exact hl.sized hbc

theorem Contains.part (h : Contains t a b) : Part t a b := by
  have hb : b ∈ contents t a := h
  unfold contents at hb
  unfold Part parts? kind
  cases hd : t.desc? a with
  | none => simp [hd] at hb
  | some d => cases hk : d.kind <;> simp_all [contents]

theorem Sized.not_infinite (h : Sized t g id) : ¬ Infinite t id := by
  rintro ⟨a, hida, hcycle⟩
  obtain ⟨l, hl⟩ := h.of_reaches (ReflTransGen.mono (fun _ _ => Contains.part) _ _ hida)
  exact hl.not_cyclic (TransGen.mono (fun _ _ => Contains.part) _ _ hcycle)

section

variable (hint : t.kind .int64 = .int)
include hint

theorem Part.contains (hab : Part t a b) (hbc : Part t b c) : Contains t a b := by
  obtain ⟨es, hes, hb⟩ := hab
  obtain ⟨fs, hfs, -⟩ := hbc
  have hb64 : b ≠ .int64 := by
    rintro rfl
    simp [parts?, hint] at hfs
  unfold parts? at hes
  split at hes <;> cases hes
  · exact hb
  · exact hb
  · exact (mem_cons.mp hb).resolve_left hb64

theorem contains_of_parts (hab : TransGen (Part t) a b) (hbc : Part t b c) :
    TransGen (Contains t) a b := by
  induction hab generalizing c with
  | single hab => exact .single (hab.contains hint hbc)
  | tail _ hbd ih => exact (ih hbd).tail (hbd.contains hint hbc)

theorem infinite_of_cycle (hida : ReflTransGen (Part t) id a) (hcycle : TransGen (Part t) a a) :
    Infinite t id := by
  obtain ⟨b, hab, -⟩ := TransGen.head'_iff.mp hcycle
  refine ⟨a, ?_, contains_of_parts hint hcycle hab⟩
  obtain rfl | hida := reflTransGen_iff_eq_or_transGen.mp hida
  · exact .refl
  · exact (contains_of_parts hint hida hab).to_reflTransGen

end

theorem plain_cases (g : Target) (h : parts? t id = none) : (∃ l, plain t g id = .ok l) ∨
    t.kind id ∉ [.opaquePointer, .pointer, .fn, .concept] ∧ plain t g id = .error
    (.unsized (t.label id)) := by
  unfold parts? kind at h
  unfold plain compute kind
  cases hd : t.desc? id with
  | none => exact .inr ⟨by simp, rfl⟩
  | some d => cases hk : d.kind with
    | struct | tuple | refBox => simp [hd, hk] at h
    | invalid | other => exact .inr ⟨by simp [hk], by simp only [hk]; rfl⟩
    | _ => exact .inl ⟨_, by simp only [hk]; rfl⟩

theorem Answers.failure_ne {e : LayoutError} (h : Answers t g id (.error e)) :
    e.failure ≠ .recursive := by
  generalize hr : error e = r at h
  cases h with
  | plain hnone =>
    obtain ⟨l, hplain⟩ | ⟨-, hplain⟩ := plain_cases g hnone <;> cases hr.trans hplain
    nofun
  | arranged part =>
    unfold arrange close at hr
    split at hr <;> cases hr
    nofun

/-- The search for a layout is never cut short. It succeeds only for types that are not infinite and
finds a recursion only in those that are, never behind a pointer, a reference, a function or a
concept. -/
theorem layout_search_exact (t : TypeTable) (hint : t.kind .int64 = .int) (g : Target)
    (qs : List Question) (id : TypeId) :
    (∀ depth > t.descs.size, query t g depth [] = layoutOf t g) ∧
    (∀ l, answerAfter t g qs id = .ok l → ¬ Infinite t id) ∧
    (verdict (answerAfter t g qs id) = .error .recursive → Infinite t id) ∧
    (t.kind id ∈ [.opaquePointer, .pointer, .fn, .concept] →
      ∃ l, answerAfter t g qs id = .ok l) := by
  refine ⟨fun depth hdepth => ?_, fun l hl => ?_, fun hrec => ?_, fun hkind => ?_⟩
  · have hopen : Open t [] := ⟨.nil, nofun⟩
    rw [← query_add g hopen hdepth (t.descs.size + 2), Nat.add_comm, query_add g hopen (by simp)]
    rfl
  · exact Sized.not_infinite ⟨l, answers_of_answerAfter hl⟩
  · have hfinds : Finds t g id (.error .recursive) := hrec ▸ found_answerAfter qs
    obtain ⟨a, hida, ⟨e, he, hf⟩ | ⟨-, hcycle⟩⟩ := hfinds
    · exact absurd hf he.failure_ne
    · exact infinite_of_cycle hint (ReflTransGen.mono (fun _ _ h => h.1.part) _ _ hida)
        (TransGen.mono (fun _ _ h => h.1.part) _ _ hcycle)
  · have hnone : parts? t id = none := by
      unfold parts?
      split <;> simp_all
    obtain ⟨l, hl⟩ | ⟨hkind', -⟩ := plain_cases g hnone
    · exact ⟨l, answerAfter_of_answers (hl ▸ .plain hnone)⟩
    · exact absurd hkind hkind'

/-- A struct that contains itself, and a pointer to it. -/
def looping : TypeTable :=
  let loop := initial.declareStruct { name := "Loop", fields := [⟨"next", ⟨10⟩⟩], heap := false }
  (loop.2.pointer loop.1).2

theorem looping_found : Infinite looping ⟨10⟩ ∧
    ∃ l, answerAfter looping .x86_64Linux [.size ⟨10⟩] ⟨11⟩ = .ok l := by
  have hint : looping.kind .int64 = .int := by decide +kernel
  refine ⟨(layout_search_exact looping hint .x86_64Linux [] ⟨10⟩).2.2.1 ?_,
    (layout_search_exact looping hint .x86_64Linux [.size ⟨10⟩] ⟨11⟩).2.2.2 (by decide +kernel)⟩
  decide +kernel

end Layout

end Midlevel
