import Midlevel.Listing
import Midlevel.Proofs.Layout.Placement

/-!
A counted box is laid out from one flat list of fields, and listed as a count with the struct behind
it. The two agree: rounding up commutes with the eight bytes of the count, and the padding of the
struct is that of the box.
-/

namespace Midlevel.Layout

variable {t : TypeTable} {b : TypeId} {ps : List TypeLayout} {fs : List Placement}
  {n k j m align last : Int}

/-! ### Shifting -/

theorem Ceiling.of_dvd (h : align ∣ n) : Ceiling n align n := ⟨⟨h, le_refl n⟩, fun _ hk => hk.2⟩

theorem Ceiling.shift (h : Ceiling n align k) (hm : align ∣ m) : Ceiling (m + n) align (m + k) := by
  refine ⟨⟨Int.dvd_add hm h.1.1, Int.add_le_add_left h.1.2 m⟩, fun j hj => ?_⟩
  have hge := hj.2
  have hle : k ≤ j - m := h.2 ⟨Int.dvd_sub hj.1 hm, by omega⟩
  omega

/-- Rounding up to a divisor first changes nothing. -/
theorem Ceiling.of_divisor (h : Ceiling n align k) (hd : align ∣ m) (h' : Ceiling n m j) :
    Ceiling k m j :=
  ⟨⟨h'.1.1, h.2 ⟨hd.trans h'.1.1, h'.1.2⟩⟩, fun _ hi => h'.2 ⟨hi.1, h.1.2.trans hi.2⟩⟩

def Placement.shift (m : Int) (f : Placement) : Placement := ⟨m + f.offset, f.align⟩

theorem Stacked.shift (h : Stacked n ps fs last) (hps : ∀ p ∈ ps, p.align ∣ m) :
    Stacked (m + n) ps (fs.map (Placement.shift m)) (m + last) := by
  induction h with
  | nil n => exact .nil _
  | cons hceil _ ih =>
    rw [List.forall_mem_cons] at hps
    exact .cons (hceil.shift hps.1) (Int.add_assoc .. ▸ ih hps.2)

/-! ### Boxes -/

theorem parts?_box {d : TypeDesc} (hd : t.desc? b = some d) (hk : d.kind = .refBox)
    (hs : t.kind d.elem = .struct) :
    parts? t d.elem = some ((t.structFields d.elem).map (·.type)) ∧
      parts? t b = some (.int64 :: (t.structFields d.elem).map (·.type)) := by
  unfold parts? contents
  unfold TypeTable.kind at hs ⊢
  split at hs
  · next hd' => simp [hd, hd', hk, hs]
  · cases hs

theorem typeName_box {d : TypeDesc} (hd : t.desc? b = some d) (hk : d.kind = .refBox)
    (hs : t.kind d.elem = .struct)
    (hint : t.desc? .int64 = some { kind := .int, width := 64 }) :
    Listing.typeName t b = .ok (Listing.braced ["i64", "%" ++ t.nominalName d.elem]) := by
  obtain ⟨depth, hdepth⟩ :=
    Nat.exists_eq_succ_of_ne_zero (Nat.ne_zero_of_lt (known_of_parts? (parts?_box hd hk hs).2))
  unfold TypeTable.kind at hs
  split at hs
  · next hd' =>
    unfold Listing.typeName
    rw [hdepth]
    simp only [Listing.typeNameWithin, hd, hk, hint, hd', hs, List.mapM_cons, List.mapM_nil]
    rfl
  · cases hs

/-- A box is laid out as a count with the struct behind it. Only where the offsets of the struct
itself leave the range of words, which takes 2 ^ 30 fields, this need not be. -/
theorem boxes_nested (t : TypeTable) (hwidth : ∀ id d, t.desc? id = some d → d.width < 2 ^ 8)
    (hint : t.desc? .int64 = some { kind := .int, width := 64 }) (qs : List Question) (b : TypeId)
    (d : TypeDesc)
    (hd : t.desc? b = some d) (hk : d.kind = .refBox) (hs : t.kind d.elem = .struct)
    (husual : Usual t d.elem)
    (l box : TypeLayout) (hl : answerAfter t .x86_64Linux qs d.elem = .ok l)
    (hbox : answerAfter t .x86_64Linux qs b = .ok box) :
    2 ^ 30 ≤ (t.structFields d.elem).length ∧ (∃ f ∈ l.fields, f.offset < 0) ∨
      box.fields = ⟨0, 8⟩ :: l.fields.map (Placement.shift 8) ∧ box.align = 8 ∧
      Ceiling (8 + l.size) 8 box.size ∧
        Natural [.scalar 8, l] ⟨box.size, box.align, [⟨0, 8⟩, ⟨8, l.align⟩]⟩ ∧
        Listing.typeName t b = .ok (Listing.braced ["i64", "%" ++ t.nominalName d.elem]) := by
  obtain ⟨hes, hbes⟩ := parts?_box hd hk hs
  have hl := answers_of_answerAfter hl
  obtain ⟨part, hparts, hregular, harrange⟩ := hl.parts hwidth hes
  obtain ⟨part', hparts', hregular', harrange'⟩ := (answers_of_answerAfter hbox).parts hwidth hbes
  have hcount : part' .int64 = .scalar 8 := by
    have hnone : parts? t .int64 = none := by simp [parts?, TypeTable.kind, hint]
    refine Except.ok.inj ((hparts' _ List.mem_cons_self).eq ?_)
    have hplain : plain t .x86_64Linux .int64 = .ok (.scalar 8) := by
      simp [plain, compute, hint]; rfl
    exact hplain ▸ .plain hnone
  have hsame : ((t.structFields d.elem).map (·.type)).map part' =
      ((t.structFields d.elem).map (·.type)).map part :=
    List.map_congr_left fun e he =>
      Except.ok.inj ((hparts' e (List.mem_cons_of_mem _ he)).eq (hparts e he))
  rw [List.map_cons, hcount, hsame] at hregular' harrange'
  obtain ⟨fs, last, hstacked⟩ := exists_stacked hregular 0
  have hpowers : ∀ m ∈ ([1, 2, 4, 8] : List Int), m ∣ 8 ∧ m ≤ 8 := by decide
  have halign : ∀ p ∈ ((t.structFields d.elem).map (·.type)).map part, p.align ∣ 8 ∧
      p.align ≤ 8 := by
    intro p hp
    obtain ⟨e, he, rfl⟩ := List.mem_map.mp hp
    exact hpowers _ (((hparts e he).regular hwidth rfl).2 (husual.part hes he))
  have hshifted : Stacked 0 (.scalar 8 :: _) _ (8 + last) :=
    .cons (Ceiling.of_dvd (Int.dvd_zero 8)) (hstacked.shift fun p hp => (halign p hp).1)
  obtain ⟨hlreg, -, hgood, hbad⟩ := arrange_spec hregular hstacked harrange
  obtain ⟨-, hgreatest, hgood', -⟩ := arrange_spec hregular' hshifted harrange'
  have hlpower := hpowers _ ((hl.regular hwidth rfl).2 husual)
  have hbalign : box.align = 8 := by
    refine le_antisymm ?_ (hgreatest.2 (.inr ⟨_, List.mem_cons_self, rfl⟩))
    rcases hgreatest.1 with h | ⟨p, hp, h⟩
    · omega
    · rcases List.mem_cons.mp hp with rfl | hp
      · exact h ▸ by decide
      · exact h ▸ (halign p hp).2
  rcases lt_or_ge last Word.bound with hlast | hlast
  · obtain ⟨hle, rfl, hceil⟩ := hgood hlast
    obtain ⟨-, hfields, hceil'⟩ := hgood' (by unfold sizeLimit at hle; unfold Word.bound; omega)
    rw [hbalign] at hceil'
    have hsize := (hceil.shift hlpower.1).of_divisor hlpower.1 hceil'
    refine .inr ⟨hfields, hbalign, hsize, ⟨⟨8 + l.size, ?_, hbalign ▸ hsize⟩, ?_⟩,
      typeName_box hd hk hs hint⟩
    · exact .cons (Ceiling.of_dvd (Int.dvd_zero 8)) (.cons (Ceiling.of_dvd hlpower.1) (.nil _))
    · refine ⟨.inr ⟨_, List.mem_cons_self, hbalign.symm⟩, ?_⟩
      rintro a (rfl | ⟨p, hp, rfl⟩)
      · show 1 ≤ box.align
        omega
      · simp only [List.mem_cons, List.not_mem_nil, or_false] at hp
        obtain rfl | rfl := hp
        · exact hbalign.ge
        · exact hbalign ▸ hlpower.2
  · refine .inl ⟨?_, hbad hlast⟩
    by_contra hlen
    exact absurd (hstacked.lt_bound hregular (by simpa using hlen)) (not_lt.mpr hlast)

def counted : TypeTable := (nested.refBox ⟨11⟩).2

theorem counted_nested : ∃ l, answerAfter counted .x86_64Linux [] ⟨11⟩ = .ok l ∧
    (∃ box, answerAfter counted .x86_64Linux [] ⟨12⟩ = .ok box ∧
      box.fields = ⟨0, 8⟩ :: l.fields.map (Placement.shift 8) ∧
      Ceiling (8 + l.size) 8 box.size) ∧ l.fields = [⟨0, 1⟩, ⟨8, 8⟩] := by
  have hdescs := usual_of_descs (t := counted) (by decide +kernel)
  have hl : answerAfter counted .x86_64Linux [] ⟨11⟩ = .ok ⟨32, 8, [⟨0, 1⟩, ⟨8, 8⟩]⟩ := by
    decide +kernel
  have hbox : answerAfter counted .x86_64Linux [] ⟨12⟩ = .ok ⟨40, 8, [⟨0, 8⟩, ⟨8, 1⟩, ⟨16, 8⟩]⟩ :=
    by decide +kernel
  obtain ⟨hlong, -⟩ | ⟨hfields, -, hsize, -⟩ := boxes_nested counted hdescs.1
    (by decide +kernel) [] ⟨12⟩ { kind := .refBox, elem := ⟨11⟩ } (by decide +kernel) rfl
      (by decide +kernel)
    (hdescs.2 _) _ _ hl hbox
  · exact absurd hlong (by decide +kernel)
  · exact ⟨_, hl, ⟨_, hbox, hfields, hsize⟩, rfl⟩

end Midlevel.Layout
