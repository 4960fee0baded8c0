import Midlevel.Text.Utf8

/-!
Texts that can be read back: valid UTF-8 out of its characters, and a row of parts when the end of
each part can be seen from its start.
-/

namespace Midlevel.Text

open List

open String (utf8EncodeChar)

theorem flatMap_inj {α β : Type} {f : α → List β} {as bs : List α} (hne : ∀ a, f a ≠ [])
    (hf : ∀ a ∈ as, ∀ b ∈ bs, ∀ x y, f a ++ x = f b ++ y → a = b ∧ x = y)
    (h : as.flatMap f = bs.flatMap f) :
    as = bs := by
  induction as generalizing bs with
  | nil => cases bs with
    | nil => rfl
    | cons b bs => exact absurd (append_eq_nil_iff.mp h.symm).1 (hne b)
  | cons a as ih => cases bs with
    | nil => exact absurd (append_eq_nil_iff.mp h).1 (hne a)
    | cons b bs =>
      obtain ⟨rfl, htail⟩ := hf a mem_cons_self b mem_cons_self _ _ h
      rw [ih (fun a ha b hb => hf a (.tail _ ha) b (.tail _ hb)) htail]

/-! ### UTF-8 -/

theorem ofNat_eq {n : Nat} {b : UInt8} (h : n = b.toNat) : UInt8.ofNat n = b :=
  by rw [h, UInt8.ofNat_toNat]

theorem val_ofNat {n : Nat} (h : n.isValidChar) : (Char.ofNat n).val.toNat = n := by
  rw [Char.ofNat, dif_pos h]
  rfl

/-- A piece consists of the bytes it was read from. -/
theorem bytes_piece (b : UInt8) (r : Text) :
    (piece b r).1.bytes ++ r.drop (piece b r).2 = b :: r := by
  fun_cases piece b r <;>
    simp_all only [isContinuation, low6, Bool.and_eq_true, decide_eq_true_eq, UInt8.le_iff_toNat_le,
      UInt8.lt_iff_toNat_lt, apply_ite UInt8.toNat, ← UInt8.toNat_inj, UInt8.reduceToNat,
        Piece.bytes, drop_zero,
      singleton_append]
  -- what is left are the characters of one to four bytes; some leading bytes narrow the range of
  -- the second
  all_goals repeat' split at *
  all_goals try omega
  all_goals
    rw [utf8EncodeChar, val_ofNat (by unfold Nat.isValidChar; omega)]
    repeat (first | rw [if_pos (by omega)] | rw [if_neg (by omega)])
    simp only [cons_append, nil_append, drop_succ_cons, drop_zero, cons.injEq, and_true]
    and_intros <;> exact ofNat_eq (by omega)

theorem ofPieces_piecesAfter (k : Nat) (t : Text) : ofPieces (piecesAfter k t) = t.drop k := by
  induction t generalizing k with
  | nil => cases k <;> rfl
  | cons b r ih =>
    cases k with
    | zero => rw [piecesAfter, ofPieces, flatMap_cons, ← ofPieces, ih, bytes_piece, drop_zero]
    | succ k => rw [piecesAfter, ih, drop_succ_cons]

theorem ofChars_chars {t : Text} (h : t.isUtf8) : ofChars t.chars = t := by
  have hpieces : t.pieces.map (fun p => utf8EncodeChar p.toChar) = t.pieces.map Piece.bytes := by
    refine map_congr_left fun p hp => ?_
    have hchar := all_eq_true.mp h p hp
    cases p with
    | char c => rfl
    | stray b => cases hchar
  rw [ofChars, chars, flatMap_map, flatMap_def, hpieces, ← flatMap_def]
  exact ofPieces_piecesAfter 0 t

theorem encode_append_inj {c d : Char} {x y : Text}
    (h : utf8EncodeChar c ++ x = utf8EncodeChar d ++ y) :
    c = d ∧ x = y := by
  have hread (c : Char) (x : Text) : (utf8EncodeChar c ++ x).toByteArray.utf8DecodeChar? 0 =
      some c := by
    rw [toByteArray_append]
    exact ByteArray.utf8DecodeChar?_utf8EncodeChar_append
  obtain rfl : c = d := Option.some.inj ((hread c x).symm.trans (h ▸ hread d y))
  exact ⟨rfl, append_cancel_left h⟩

end Midlevel.Text
