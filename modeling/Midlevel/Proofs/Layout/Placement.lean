import Midlevel.Proofs.Layout.Search
import Midlevel.Proofs.Type.Extends
import Mathlib.Algebra.Order.Ring.Int
import Mathlib.Order.Bounds.Basic

/-!
Layouts are those of C: parts stand one behind the other, each at the first offset that its
alignment allows, an aggregate is aligned as its most aligned part and padded to its own alignment.
The engine calculates with words, so the sizes have to stay far enough from the limits of a word;
where alignments are powers of two, a part of a part is aligned too.
-/

namespace Midlevel.Layout

open Relation List Word TypeTable

variable {t : TypeTable} {id a e : TypeId} {es : List TypeId} {l p acc : TypeLayout}
  {ps : List TypeLayout} {fs : List Placement} {n k align last : Int} {qs : List Question}

/-- The least multiple of `align` that is not below `n`. -/
def Ceiling (n align : Int) : Int → Prop := IsLeast {k | align ∣ k ∧ n ≤ k}

/-- Parts one behind the other, from `n` to `last`, each at the first offset that its alignment
allows. -/
inductive Stacked : Int → List TypeLayout → List Placement → Int → Prop
  | nil (n : Int) : Stacked n [] [] n
  | cons {n offset last : Int} {p : TypeLayout} {ps : List TypeLayout} {fs : List Placement}
    (h : Ceiling n p.align offset) (hs : Stacked (offset + p.size) ps fs last) :
    Stacked n (p :: ps) (⟨offset, p.align⟩ :: fs) last

/-- The layout of an aggregate of parts. -/
structure Natural (ps : List TypeLayout) (l : TypeLayout) : Prop where
  placed : ∃ last, Stacked 0 ps l.fields last ∧ Ceiling last l.align l.size
  align : IsGreatest {a | a = 1 ∨ ∃ p ∈ ps, p.align = a} l.align

structure Regular (l : TypeLayout) : Prop where
  align_pos : 1 ≤ l.align
  align_le : l.align ≤ 32
  size_nonneg : 0 ≤ l.size
  size_lt : l.size < 2 ^ 32 + 32
  dvd : l.align ∣ l.size

/-! ### Placing -/

theorem ceiling_emod (n : Int) (ha : 1 ≤ align) : Ceiling n align (n + -n % align) := by
  have hnonneg := Int.emod_nonneg (-n) (show align ≠ 0 by omega)
  have hlt := Int.emod_lt_of_pos (-n) (show 0 < align by omega)
  have hd : align ∣ n + -n % align := by
    rw [show n + -n % align = -(-n - -n % align) by omega]
    exact Int.dvd_neg.mpr Int.dvd_self_sub_emod
  refine ⟨⟨hd, by omega⟩, fun k hk => ?_⟩
  -- a smaller multiple would be `align` or more below, and so below `n`
  by_contra hk'
  have hle := Int.le_of_dvd (by omega) (Int.dvd_sub hd hk.1)
  have hnk := hk.2
  omega

theorem Ceiling.lt (h : Ceiling n align k) (ha : 1 ≤ align) : k < n + align := by
  rw [h.unique (ceiling_emod n ha)]
  have hlt := Int.emod_lt_of_pos (-n) (show 0 < align by omega)
  omega

theorem roundUp_eq (h : Ceiling n align k) (hn : 0 ≤ n) (hlt : n < bound) (ha : 1 ≤ align)
    (hle : align ≤ 32) :
    roundUp n align = wrap k := by
  have hwrap : wrap n = n := wrap_of_mem (by unfold bound; omega) hlt
  rw [h.unique (ceiling_emod n ha)]
  unfold roundUp
  split
  · obtain rfl : align = 1 := by omega
    simp [hwrap]
  · simp only [Int.tmod_eq_emod_of_nonneg hn, Int.neg_emod, Int.dvd_iff_emod_eq_zero]
    split
    · simp [hwrap]
    · have hpos := Int.emod_nonneg n (show align ≠ 0 by omega)
      have hlt' := Int.emod_lt_of_pos n (show 0 < align by omega)
      rw [wrap_of_mem (x := align - _) (by unfold bound; omega) (by unfold bound; omega),
        Int.natAbs_of_nonneg (by omega)]

theorem roundUp_negative (hn : n < -64) (hlow : -bound ≤ n) (hle : align ≤ 32) :
    roundUp n align < 0 := by
  unfold roundUp
  split
  · omega
  · have hlt := Int.tmod_lt_of_pos n (show 0 < align by omega)
    have hgt := Int.lt_tmod_of_pos n (show 0 < align by omega)
    unfold bound at hlow
    dsimp only
    split
    · omega
    · rw [wrap_of_mem (x := align - _) (by unfold bound; omega) (by unfold bound; omega),
        wrap_of_mem (by unfold bound; omega) (by unfold bound; omega)]
      omega

theorem place_eq (acc : TypeLayout) (hp : Regular p) : place acc p =
    ⟨wrap (roundUp acc.size p.align + p.size), max acc.align p.align,
      acc.fields ++ [⟨roundUp acc.size p.align, p.align⟩]⟩ := by
  unfold place
  rw [if_neg (not_lt.mpr hp.align_pos)]
  dsimp only
  congr 1
  rcases lt_or_ge acc.align p.align with h | h
  · rw [if_pos h, max_eq_right h.le]
  · rw [if_neg (not_lt.mpr h), max_eq_left h]

theorem Stacked.getElem? (h : Stacked n ps fs last) {k : Nat} {f : Placement}
    (hk : fs[k]? = some f) :
    ∃ p, ps[k]? = some p ∧ p.align = f.align ∧ f.align ∣ f.offset := by
  induction h generalizing k with
  | nil => cases hk
  | cons hceil _ ih => cases k with
    | zero =>
      obtain rfl := Option.some.inj hk
      exact ⟨_, rfl, rfl, hceil.1.1⟩
    | succ k => exact ih hk

section

variable (hps : ∀ p ∈ ps, Regular p)
include hps

theorem foldl_align (acc : TypeLayout) :
    IsGreatest {a | a = acc.align ∨ ∃ p ∈ ps, p.align = a} (ps.foldl place acc).align := by
  induction ps generalizing acc with
  | nil => simp [IsGreatest, upperBounds]
  | cons p ps ih =>
    rw [forall_mem_cons] at hps
    obtain ⟨hmem, hmax⟩ := ih hps.2 (place acc p)
    rw [place_eq acc hps.1] at hmem hmax
    rw [foldl_cons, place_eq acc hps.1]
    refine ⟨?_, ?_⟩
    · rcases hmem with hmem | ⟨q, hq, hmem⟩
      · rcases max_choice acc.align p.align with h | h
        · exact .inl (hmem.trans h)
        · exact .inr ⟨p, mem_cons_self, (hmem.trans h).symm⟩
      · exact .inr ⟨q, mem_cons_of_mem _ hq, hmem⟩
    · rintro a (rfl | ⟨q, hq, rfl⟩)
      · exact (le_max_left _ _).trans (hmax (.inl rfl))
      · rcases mem_cons.mp hq with rfl | hq
        · exact (le_max_right _ _).trans (hmax (.inl rfl))
        · exact hmax (.inr ⟨q, hq, rfl⟩)

/-- The sizes left the range of a word. -/
def Wrapped (l : TypeLayout) : Prop :=
  (∃ f ∈ l.fields, f.offset < 0) ∨ -bound ≤ l.size ∧ l.size < -64

theorem Wrapped.foldl (h : Wrapped acc) : Wrapped (ps.foldl place acc) := by
  induction ps generalizing acc with
  | nil => exact h
  | cons p ps ih =>
    rw [forall_mem_cons] at hps
    refine ih hps.2 (.inl ?_)
    rw [place_eq acc hps.1]
    obtain ⟨f, hf, hneg⟩ | ⟨hlow, hneg⟩ := h
    · exact ⟨f, mem_append_left _ hf, hneg⟩
    · exact ⟨_, mem_append_right _ mem_cons_self, roundUp_negative hneg hlow hps.1.align_le⟩

theorem exists_stacked (n : Int) : ∃ fs last, Stacked n ps fs last := by
  induction ps generalizing n with
  | nil => exact ⟨[], n, .nil n⟩
  | cons p ps ih =>
    rw [forall_mem_cons] at hps
    obtain ⟨fs, last, h⟩ := ih hps.2 (n + -n % p.align + p.size)
    exact ⟨_, _, .cons (ceiling_emod n hps.1.align_pos) h⟩

theorem Stacked.bounds (h : Stacked n ps fs last) :
    n ≤ last ∧ last ≤ n + ps.length * 2 ^ 33 ∧ ∀ f ∈ fs, n ≤ f.offset ∧ f.offset ≤ last := by
  induction h with
  | nil n => exact ⟨le_refl n, by simp, nofun⟩
  | @cons n offset last p ps fs hceil _ ih =>
    rw [forall_mem_cons] at hps
    obtain ⟨hle, hlast, hoffset⟩ := ih hps.2
    have hlt := hceil.lt hps.1.align_pos
    have hge := hceil.1.2
    have halign := hps.1.align_le
    have hnonneg := hps.1.size_nonneg
    have hsize := hps.1.size_lt
    rw [length_cons]
    push_cast
    refine ⟨by omega, by omega, forall_mem_cons.mpr ⟨⟨hge, by dsimp only; omega⟩, fun f hf => ?_⟩⟩
    have hf := hoffset f hf
    exact ⟨by omega, hf.2⟩

theorem Stacked.placed (h : Stacked n ps fs last) (acc : TypeLayout)
    (hacc : acc.size = n) (hn : 0 ≤ n)
    (hlt : n < bound) :
    (last < bound → (ps.foldl place acc).fields = acc.fields ++ fs ∧
      (ps.foldl place acc).size = last) ∧
      (bound ≤ last → Wrapped (ps.foldl place acc)) := by
  induction h generalizing acc with
  | nil n => exact ⟨fun _ => ⟨by simp, hacc⟩, fun h => absurd hlt (not_lt.mpr h)⟩
  | @cons n offset last p ps fs hceil hs ih =>
    rw [forall_mem_cons] at hps
    have hge := hceil.1.2
    have hnonneg := hps.1.size_nonneg
    have hsize := hps.1.size_lt
    have hend := hceil.lt hps.1.align_pos
    have halign := hps.1.align_le
    have hlast := (hs.bounds hps.2).1
    have hround := roundUp_eq hceil hn hlt hps.1.align_pos halign
    rw [← hacc] at hround
    have hplace := place_eq acc hps.1
    rw [hround] at hplace
    rw [foldl_cons]
    rcases lt_or_ge (offset + p.size) bound with hroom | hroom
    · rw [wrap_of_mem (x := offset) (by unfold bound; omega) (by omega),
        wrap_of_mem (by unfold bound; omega) hroom] at hplace
      obtain ⟨hgood, hbad⟩ := ih hps.2 (place acc p) (by rw [hplace]) (by omega) hroom
      refine ⟨fun hlast => ?_, hbad⟩
      obtain ⟨hfields, hsize⟩ := hgood hlast
      exact ⟨by rw [hfields, hplace]; simp, hsize⟩
    · refine ⟨fun _ => by omega, fun _ => Wrapped.foldl hps.2 ?_⟩
      rw [hplace]
      rcases lt_or_ge offset bound with hoffset | hoffset
      · rw [wrap_of_mem (x := offset) (by unfold bound; omega) hoffset,
          wrap_of_ge hroom (by unfold bound at *; omega)]
        unfold bound at *
        exact .inr ⟨by dsimp only [bound]; omega, by dsimp only; omega⟩
      · refine .inl ⟨_, mem_append_right _ mem_cons_self, ?_⟩
        rw [wrap_of_ge hoffset (by unfold bound at *; omega)]
        unfold bound at *
        dsimp only
        omega

theorem Stacked.pairwise (h : Stacked n ps fs last) :
    (ps.zip fs).Pairwise fun x y => x.2.offset + x.1.size ≤ y.2.offset := by
  induction h with
  | nil => exact .nil
  | cons _ hs ih =>
    rw [forall_mem_cons] at hps
    exact .cons (fun y hy => ((hs.bounds hps.2).2.2 _ (of_mem_zip hy).2).1) (ih hps.2)

theorem arrange_spec (hs : Stacked 0 ps fs last) (h : arrange t id ps = .ok l) :
    Regular l ∧ IsGreatest {a | a = 1 ∨ ∃ p ∈ ps, p.align = a} l.align ∧
      (last < bound → last ≤ sizeLimit ∧ l.fields = fs ∧ Ceiling last l.align l.size) ∧
      (bound ≤ last → ∃ f ∈ l.fields, f.offset < 0) := by
  unfold arrange close at h
  split at h <;> cases h
  next hsize =>
  rw [not_or, not_lt, not_lt] at hsize
  have hgreatest := foldl_align hps .empty
  have hpos : 1 ≤ (ps.foldl place .empty).align := hgreatest.2 (.inl rfl)
  have hle : (ps.foldl place .empty).align ≤ 32 := by
    rcases hgreatest.1 with h | ⟨p, hp, h⟩
    · exact h ▸ by decide
    · exact h ▸ (hps p hp).align_le
  have hlimit : (ps.foldl place .empty).size ≤ 0xFFFFFFFF := hsize.2
  have hceil := ceiling_emod (ps.foldl place .empty).size hpos
  have hround := roundUp_eq hceil hsize.1 (by unfold bound; omega) hpos hle
  have hlt := hceil.lt hpos
  have hge := hceil.1.2
  rw [wrap_of_mem (by unfold bound; omega) (by unfold bound; omega)] at hround
  rw [← hround] at hceil hlt hge
  obtain ⟨hgood, hbad⟩ := hs.placed hps .empty rfl (le_refl 0) (by decide)
  refine ⟨⟨hpos, hle, by dsimp only; omega, by dsimp only; omega, hceil.1.1⟩, hgreatest,
    fun hlast => ?_,
    fun hlast => ?_⟩
  · obtain ⟨hfields, hsize'⟩ := hgood hlast
    exact ⟨hsize' ▸ hsize.2, hfields, hsize' ▸ hceil⟩
  · obtain hneg | ⟨-, hneg⟩ := hbad hlast
    · exact hneg
    · omega

theorem Stacked.lt_bound (h : Stacked 0 ps fs last) (hlen : ps.length < 2 ^ 30) : last < bound := by
  have hle := (h.bounds hps).2.1
  unfold bound
  omega

theorem arrange_natural (hlen : ps.length < 2 ^ 30) (h : arrange t id ps = .ok l) :
    Natural ps l := by
  obtain ⟨fs, last, hs⟩ := exists_stacked hps 0
  obtain ⟨-, hgreatest, hgood, -⟩ := arrange_spec hps hs h
  obtain ⟨-, rfl, hceil⟩ := hgood (hs.lt_bound hps hlen)
  exact ⟨⟨last, hs, hceil⟩, hgreatest⟩

end

/-! ### Types without parts -/

theorem plain_measures (h : parts? t id = none) (hl : plain t .x86_64Linux id = .ok l) :
    l ∈ [.empty, .scalar 1, .scalar 8, ⟨16, 8, [⟨0, 8⟩, ⟨8, 8⟩]⟩] ∨
      ∃ d, t.desc? id = some d ∧ d.kind ∈ [.int, .float] ∧ l = .scalar
      ((d.width + 7) / 8 : Nat) := by
  unfold parts? kind at h
  unfold plain compute at hl
  cases hd : t.desc? id with
  | none =>
    rw [hd] at hl
    cases hl
  | some d =>
    rw [hd] at hl
    cases hk : d.kind with
    | struct | tuple | refBox => simp [hd, hk] at h
    | int | float =>
      simp only [hk] at hl
      exact .inr ⟨d, rfl, by simp [hk], (Except.ok.inj hl).symm⟩
    | invalid | other =>
      simp only [hk] at hl
      cases hl
    | _ =>
      simp only [hk] at hl
      cases hl
      exact .inl (by decide)

/-! ### All types -/

/-- No aggregate within a type is so long that sizes could leave the range of a word. -/
def Short (t : TypeTable) (id : TypeId) : Prop :=
  ∀ a es, ReflTransGen (Part t) id a → parts? t a = some es → es.length < 2 ^ 30

/-- The machine integers and floats within a type have the usual widths. -/
def Usual (t : TypeTable) (id : TypeId) : Prop :=
  ∀ a d, ReflTransGen (Part t) id a → t.desc? a = some d → d.kind ∈ [.int, .float] →
    d.width ∈ [1, 8, 16, 32, 64]

/-- A type without parts stands at an offset within another. -/
inductive LeafAt (t : TypeTable) (answer : TypeId → Answer) : TypeId → Int → TypeId → Prop
  | here {id : TypeId} (h : parts? t id = none) : LeafAt t answer id 0 id
  | within {id e a : TypeId} {es : List TypeId} {l : TypeLayout} {k : Nat} {f : Placement}
    {offset : Int}
    (hes : parts? t id = some es) (hl : answer id = .ok l) (he : es[k]? = some e)
      (hf : l.fields[k]? = some f)
    (h : LeafAt t answer e offset a) : LeafAt t answer id (f.offset + offset) a

theorem Usual.part (h : Usual t id) (hes : parts? t id = some es) (he : e ∈ es) : Usual t e :=
  fun a d ha => h a d (ha.head ⟨es, hes, he⟩)

theorem dvd_of_powers : ∀ m ∈ ([1, 2, 4, 8] : List Int), ∀ n ∈ ([1, 2, 4, 8] : List Int), m ≤ n →
    m ∣ n := by decide

section

variable (hwidth : ∀ id d, t.desc? id = some d → d.width < 2 ^ 8)
include hwidth

theorem plain_regular (h : parts? t id = none) (hl : plain t .x86_64Linux id = .ok l) :
    Regular l ∧ (Usual t id → l.align ∈ [1, 2, 4, 8]) ∧ l.size ≤ 32 ∧
      ∀ f ∈ l.fields, f.offset ≤ 8 := by
  obtain hmem | ⟨d, hd, hk, rfl⟩ := plain_measures h hl
  · have hall : ∀ l ∈ ([.empty, .scalar 1, .scalar 8, ⟨16, 8, [⟨0, 8⟩, ⟨8, 8⟩]⟩] : List TypeLayout),
        (1 ≤ l.align ∧ l.align ≤ 32 ∧ 0 ≤ l.size ∧ l.size < 2 ^ 32 + 32 ∧ l.align ∣ l.size) ∧
          l.align ∈ [1, 2, 4, 8] ∧ l.size ≤ 32 ∧ ∀ f ∈ l.fields, f.offset ≤ 8 := by decide
    obtain ⟨⟨h1, h2, h3, h4, h5⟩, halign, hsize⟩ := hall l hmem
    exact ⟨⟨h1, h2, h3, h4, h5⟩, fun _ => halign, hsize⟩
  · have hw := hwidth id d hd
    refine ⟨?_, fun husual => ?_, ?_⟩
    · unfold TypeLayout.scalar
      split
      · exact ⟨by decide, by decide, by decide, by decide, by decide⟩
      · exact ⟨by dsimp only; omega, by dsimp only; omega, by dsimp only; omega,
          by dsimp only; omega, Int.dvd_refl _⟩
    · have hw := husual _ d .refl hd hk
      simp only [mem_cons, not_mem_nil, or_false] at hw
      obtain hw | hw | hw | hw | hw := hw <;> rw [hw] <;> decide
    · unfold TypeLayout.scalar
      split
      · exact ⟨by decide, nofun⟩
      · exact ⟨by dsimp only; omega, nofun⟩

theorem Answers.regular {answer : Answer} (h : Answers t .x86_64Linux id answer)
    (hl : answer = .ok l) :
    Regular l ∧ (Usual t id → l.align ∈ [1, 2, 4, 8]) := by
  induction h generalizing l with
  | plain hnone =>
    obtain ⟨hregular, halign, -⟩ := plain_regular hwidth hnone hl
    exact ⟨hregular, halign⟩
  | @arranged id es part hes hparts ih =>
    have hps : ∀ p ∈ es.map part, Regular p := by simpa using fun e he => (ih e he rfl).1
    obtain ⟨fs, last, hs⟩ := exists_stacked hps 0
    obtain ⟨hregular, hgreatest, -⟩ := arrange_spec hps hs hl
    refine ⟨hregular, fun husual => ?_⟩
    rcases hgreatest.1 with h | ⟨p, hp, h⟩
    · simp [h]
    · obtain ⟨e, he, rfl⟩ := mem_map.mp hp
      exact h ▸ (ih e he rfl).2 (husual.part hes he)

theorem Answers.parts (h : Answers t .x86_64Linux id (.ok l))
    (hes : parts? t id = some es) : ∃ part,
      (∀ e ∈ es, Answers t .x86_64Linux e (.ok (part e))) ∧ (∀ p ∈ es.map part, Regular p) ∧
        arrange t id (es.map part) = .ok l := by
  generalize Except.ok l = r at h ⊢
  cases h with
  | plain hnone => cases hnone.symm.trans hes
  | arranged part hsome hparts =>
    obtain rfl := Option.some.inj (hes.symm.trans hsome)
    exact ⟨part, hparts, by simpa using fun e he => ((hparts e he).regular hwidth rfl).1, rfl⟩

/-- Where alignments are powers of two, what is aligned within a part is aligned within the
whole. -/
theorem LeafAt.aligned {offset : Int} (h : LeafAt t (answerAfter t .x86_64Linux qs) id offset a)
    (hshort : Short t id)
    (husual : Usual t id) {leaf : TypeLayout} (hleaf : Answers t .x86_64Linux a (.ok leaf))
    (hl : Answers t .x86_64Linux id (.ok l)) : leaf.align ∣ offset ∧ leaf.align ∣ l.align := by
  induction h generalizing l with
  | here =>
    rw [Except.ok.inj (hleaf.eq hl)]
    exact ⟨Int.dvd_zero _, Int.dvd_refl _⟩
  | @within id e a es l' k f offset hes hl' he hf hinner ih =>
    obtain rfl := Except.ok.inj (hl.eq (answers_of_answerAfter hl'))
    obtain ⟨part, hparts, hregular, harrange⟩ := hl.parts hwidth hes
    have hnatural := arrange_natural hregular (by simpa using hshort id es .refl hes) harrange
    obtain ⟨last, hstacked, -⟩ := hnatural.placed
    obtain ⟨p, hp, halign, hoffset⟩ := hstacked.getElem? hf
    rw [List.getElem?_map, he] at hp
    obtain rfl : part e = p := Option.some.inj hp
    have hmem : e ∈ es := mem_of_getElem? he
    have hshort' : Short t e := fun a fs ha => hshort a fs (ha.head ⟨es, hes, hmem⟩)
    have husual' := husual.part hes hmem
    obtain ⟨hinner, hleaf⟩ := ih hshort' husual' hleaf (hparts e hmem)
    refine ⟨Int.dvd_add (hleaf.trans (halign ▸ hoffset)) hinner, hleaf.trans ?_⟩
    refine dvd_of_powers _ (((hparts e hmem).regular hwidth rfl).2 husual')
      _ ((hl.regular hwidth rfl).2 husual) ?_
    exact hnatural.align.2 (.inr ⟨part e, mem_map_of_mem hmem, rfl⟩)

end

/-- Layouts are those of C. -/
theorem layouts_natural (t : TypeTable) (hwidth : ∀ id d, t.desc? id = some d → d.width < 2 ^ 8)
    (qs : List Question) (id : TypeId) (hshort : Short t id) (l : TypeLayout)
    (h : answerAfter t .x86_64Linux qs id = .ok l) : 1 ≤ l.align ∧ l.align ∣ l.size ∧
    (∀ es, parts? t id = some es →
      ∃ part, (∀ e ∈ es, answerAfter t .x86_64Linux qs e = .ok (part e)) ∧
      Natural (es.map part) l ∧ ((es.map part).zip l.fields).Pairwise fun x y =>
      x.2.offset + x.1.size ≤ y.2.offset) ∧
    (Usual t id → ∀ offset a leaf, LeafAt t (answerAfter t .x86_64Linux qs) id offset a →
      answerAfter t .x86_64Linux qs a = .ok leaf → leaf.align ∣ offset) := by
  have hl := answers_of_answerAfter h
  have hregular := (hl.regular hwidth rfl).1
  refine ⟨hregular.align_pos, hregular.dvd, fun es hes => ?_,
    fun husual offset a leaf ha hleaf => ?_⟩
  · obtain ⟨part, hparts, hregular, harrange⟩ := hl.parts hwidth hes
    have hnatural := arrange_natural hregular (by simpa using hshort id es .refl hes) harrange
    obtain ⟨last, hstacked, -⟩ := hnatural.placed
    exact ⟨part, fun e he => answerAfter_of_answers (hparts e he), hnatural,
      hstacked.pairwise hregular⟩
  · exact (ha.aligned hwidth hshort husual (answers_of_answerAfter hleaf) hl).1

/-- A struct of a byte and a struct of a truth value, a word and a half word. -/
def nested : TypeTable :=
  let inner := initial.declareStruct
    { name := "Inner", fields := [⟨"flag", .bool⟩, ⟨"word", .int64⟩, ⟨"half", .int16⟩],
      heap := false }
  (inner.2.declareStruct { name := "Outer", fields := [⟨"byte", .int8⟩, ⟨"inner", inner.1⟩],
                           heap := false }).2

theorem nested_natural :
    ∃ part, (∀ e ∈ [.int8, ⟨10⟩], answerAfter nested .x86_64Linux [] e = .ok (part e)) ∧
    Natural ([.int8, ⟨10⟩].map part) ⟨32, 8, [⟨0, 1⟩, ⟨8, 8⟩]⟩ := by
  have hwidths : ∀ d ∈ nested.descs, d.width < 2 ^ 8 := by decide +kernel
  have hlengths : ∀ n < nested.descs.size, ∀ es ∈ parts? nested ⟨n⟩, es.length < 2 ^ 30 := by
    decide +kernel
  obtain ⟨-, -, hparts, -⟩ := layouts_natural nested
    (fun id d hd => hwidths d (Array.mem_of_getElem? (TypeTable.descs_of_desc? hd))) [] ⟨11⟩
    (fun a es _ hes => hlengths a.index (known_of_parts? hes) es hes) ⟨32, 8, [⟨0, 1⟩, ⟨8, 8⟩]⟩
      (by decide +kernel)
  obtain ⟨part, hpart, hnatural, -⟩ := hparts [.int8, ⟨10⟩] (by decide +kernel)
  exact ⟨part, hpart, hnatural⟩

/-! ### Limits -/

theorem arrange_overflow (hps : ∀ p ∈ ps, Regular p) (hlen : ps.length < 2 ^ 30)
    (h : Stacked 0 ps fs last) :
    verdict (arrange t id ps) = .error .overflow ↔ sizeLimit < last := by
  obtain ⟨-, hsize⟩ := (h.placed hps .empty rfl (le_refl 0) (by decide)).1 (h.lt_bound hps hlen)
  have hle := (h.bounds hps).1
  unfold arrange close
  split <;> simp [verdict, Except.mapError, LayoutError.failure] <;> omega

/-- No offset leaves 32 bits, and no size but that of a type whose padding ends exactly behind them;
parts that end later overflow. -/
theorem layouts_limited (t : TypeTable) (hwidth : ∀ id d, t.desc? id = some d → d.width < 2 ^ 8)
    (qs : List Question) (id : TypeId) (hshort : Short t id) (husual : Usual t id) :
    (∀ l, answerAfter t .x86_64Linux qs id = .ok l → l.size ≤ sizeLimit + 1 ∧
      ∀ f ∈ l.fields, f.offset ≤ sizeLimit) ∧
    ∀ es part fs last, parts? t id = some es →
    (∀ e ∈ es, answerAfter t .x86_64Linux qs e = .ok (part e)) →
      Stacked 0 (es.map part) fs last →
        (verdict (answerAfter t .x86_64Linux qs id) = .error .overflow ↔ sizeLimit < last) := by
  have hlimit : sizeLimit = 2 ^ 32 - 1 := rfl
  refine ⟨fun l hl => ?_, fun es part fs last hes hparts hstacked => ?_⟩
  · have hanswers := answers_of_answerAfter hl
    cases hparts : parts? t id with
    | none =>
      obtain ⟨-, -, hsize, hfields⟩ :=
        plain_regular hwidth hparts ((Answers.plain hparts).eq hanswers)
      exact ⟨by omega, fun f hf => by have := hfields f hf; omega⟩
    | some es =>
      obtain ⟨part, -, hregular, harrange⟩ := hanswers.parts hwidth hparts
      obtain ⟨fs, last, hs⟩ := exists_stacked hregular 0
      obtain ⟨-, -, hgood, -⟩ := arrange_spec hregular hs harrange
      obtain ⟨hle, rfl, hceil⟩ :=
        hgood (hs.lt_bound hregular (by simpa using hshort id es .refl hparts))
      refine ⟨hceil.2 ⟨?_, by omega⟩, fun f hf => ((hs.bounds hregular).2.2 f hf).2.trans hle⟩
      have hpowers : ∀ m ∈ ([1, 2, 4, 8] : List Int), m ∣ sizeLimit + 1 := by decide
      exact hpowers _ ((hanswers.regular hwidth rfl).2 husual)
  · have hanswers := fun e he => answers_of_answerAfter (hparts e he)
    rw [(found_answerAfter qs).eq (Answers.found (.arranged part hes hanswers))]
    exact arrange_overflow (by simpa using fun e he => ((hanswers e he).regular hwidth rfl).1)
      (by simpa using hshort id es .refl hes) hstacked

theorem usual_of_descs
    (h : ∀ d ∈ t.descs, d.width ∈ [0, 1, 8, 16, 32, 64] ∧ (d.kind ∈ [.int, .float] → d.width ≠ 0)) :
    (∀ id d, t.desc? id = some d → d.width < 2 ^ 8) ∧ ∀ id, Usual t id := by
  have hwidth : ∀ w ∈ [0, 1, 8, 16, 32, 64], w < 2 ^ 8 ∧
    (w ≠ 0 → w ∈ [1, 8, 16, 32, 64]) := by decide
  have hdesc {id : TypeId} {d : TypeDesc} (hd : t.desc? id = some d) :=
    h d (Array.mem_of_getElem? (descs_of_desc? hd))
  exact ⟨fun _ _ hd => (hwidth _ (hdesc hd).1).1, fun _ _ _ _ hd hk =>
    (hwidth _ (hdesc hd).1).2 ((hdesc hd).2 hk)⟩

/-- Structs of two of the one before, and one of all of them, a word and a byte. -/
def doubling : TypeTable :=
  let step := fun (t, fs) n => ((fun r => (r.2, ⟨"", r.1⟩ :: fs)) (declareStruct t
    { name := Text.ofNat n, fields := (fs.take 1).flatMap fun f => [f, f], heap := false }) :
      TypeTable × List Member)
  let parts := (List.range 28).foldl step (initial, [⟨"", .int64⟩])
  (parts.1.declareStruct { name := "Full", fields := parts.2 ++ [⟨"", .int8⟩], heap := false }).2

theorem doubling_limited : ∃ l, answerAfter doubling .x86_64Linux [] ⟨38⟩ = .ok l ∧
    l.size ≤ sizeLimit + 1 := by
  have hdescs := usual_of_descs (t := doubling) (by decide +kernel)
  have hlengths : ∀ n < doubling.descs.size, ∀ es ∈ parts? doubling ⟨n⟩, es.length < 2 ^ 30 :=
    by decide +kernel
  have hok : (answerAfter doubling .x86_64Linux [] ⟨38⟩).isOk = true := by decide +kernel
  obtain ⟨hlimit, -⟩ := layouts_limited doubling hdescs.1 [] ⟨38⟩
    (fun a es _ hes => hlengths a.index (known_of_parts? hes) es hes) (hdescs.2 _)
  rcases hl : answerAfter doubling .x86_64Linux [] ⟨38⟩ with f | l
  · rw [hl] at hok
    cases hok
  · exact ⟨l, rfl, (hlimit l hl).1⟩

theorem padding_passes_limit :
    (answerAfter doubling .x86_64Linux [] ⟨38⟩).toOption.map (·.size) = some (sizeLimit + 1) :=
  by decide +kernel

end Midlevel.Layout
