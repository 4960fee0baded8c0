import Midlevel.Cache
import Midlevel.Proofs.Text.Reading

/-!
Which key bytes were made from. Every part of a key comes after its length, in eight bytes, so the
bytes say where each part ends, whatever bytes the parts have themselves.
-/

namespace Midlevel

namespace Msgpack

theorem length_bigEndian (width n : Nat) : (bigEndian width n).length = width := by
  induction width with
  | zero => rfl
  | succ width ih => simp [bigEndian, ih]

theorem foldl_bigEndian (width n acc : Nat) :
    (bigEndian width n).foldl (fun n b => 256 * n + b.toNat) acc = acc * range width +
      n % range width := by
  induction width generalizing acc with
  | zero => simp [bigEndian, range, Nat.mod_one]
  | succ width ih =>
    have hsucc : range (width + 1) = range width * 256 := Nat.pow_succ ..
    have hmod : n % range (width + 1) = n % range width + range width *
        (n / range width % 256) := by
      rw [hsucc, Nat.mod_mul]
    simp only [bigEndian, List.foldl_cons, ih, hsucc]
    simp
    grind

theorem ofBigEndian_bigEndian {width n : Nat} (h : n < range width) :
    ofBigEndian (bigEndian width n) = n := by
  simp [ofBigEndian, foldl_bigEndian, Nat.mod_eq_of_lt h]

end Msgpack

namespace Cache.Key

open Msgpack

variable {a b r s : Text}

theorem littleEndian_inj {width n m : Nat} (hn : n < range width) (hm : m < range width)
    (h : littleEndian width n = littleEndian width m) : n = m := by
  rw [← ofBigEndian_bigEndian hn, List.reverse_inj.mp h, ofBigEndian_bigEndian hm]

/-- The end of a framed part can be seen from its start. -/
theorem framed_append_inj (ha : a.length < range 8) (hb : b.length < range 8)
    (h : framed a ++ r = framed b ++ s) :
    a = b ∧ r = s := by
  simp only [framed, List.append_assoc] at h
  obtain ⟨hlength, h⟩ := List.append_inj h (by simp [littleEndian, length_bigEndian])
  exact List.append_inj h (littleEndian_inj ha hb hlength)

/-- The length of every text of the key can be written in eight bytes. -/
structure Framable (k : Key) : Prop where
  input : k.input.length < range 8
  level : k.level.length < range 8
  target : k.target.length < range 8
  disabled : ∀ name ∈ k.disabled, name.length < range 8

/-- Keys that differ are never hashed from the same bytes. -/
theorem bytes_determine_key (k k' : Key) (hk : k.Framable) (hk' : k'.Framable) :
    k.bytes = k'.bytes ↔ k = k' := by
  refine ⟨fun h => ?_, congrArg bytes⟩
  simp only [bytes, List.append_assoc, List.append_cancel_left_eq] at h
  obtain ⟨hinput, h⟩ := framed_append_inj hk.input hk'.input h
  obtain ⟨hlevel, h⟩ := framed_append_inj hk.level hk'.level h
  obtain ⟨htarget, h⟩ := framed_append_inj hk.target hk'.target h
  have hone (x : UInt8) : [x].length < range 8 := by
    show 1 < range 8
    decide
  obtain ⟨hlibrary, h⟩ := framed_append_inj (hone _) (hone _) h
  have hdisabled := Text.flatMap_inj (by simp [framed, littleEndian, bigEndian])
    (fun a ha b hb _ _ => framed_append_inj (hk.disabled a ha) (hk'.disabled b hb)) h
  obtain ⟨_, _, _, _, library⟩ := k
  obtain ⟨_, _, _, _, library'⟩ := k'
  cases library <;> cases library' <;> simp_all

/-- Bytes do not move from one disabled name to the next. -/
theorem bytes_split_names : bytes { disabled := ["ab", "c"] } ≠
    bytes { disabled := ["a", "bc"] } := by
  rw [Ne, bytes_determine_key _ _ ⟨by decide, by decide, by decide, by decide⟩ ⟨by decide,
    by decide, by decide, by decide⟩]
  decide

end Cache.Key

end Midlevel
