import Midlevel.Ir.Library
import Midlevel.Proofs.Text.Reading

/-!
Functions of different names have different symbols. An operator is spelled by a hyphen and a letter
of its own, any other character by itself. The hyphen is an operator too, so no spelling starts
another one, and the name can be read off the symbol.
-/

namespace Midlevel.Ir.Symbol

open String (utf8EncodeChar)

variable {c d : Char} {s x y : Text}

theorem mem_of_lookup (h : operators.lookup c = some s) : (c, s) ∈ operators := by
  obtain ⟨_, _, heq, -⟩ := List.lookup_eq_some_iff.mp h
  exact heq ▸ by simp

theorem operators_spelled : ∀ p ∈ operators, p.2.length = 2 ∧ p.2.head? = some 0x2D := by decide

theorem operators_inj : ∀ p ∈ operators, ∀ q ∈ operators, p.2 = q.2 → p.1 = q.1 := by decide

theorem spell_of_none (h : operators.lookup c = none) : spell c = utf8EncodeChar c := by
  rw [spell, h]
  exact List.flatMap_singleton ..

theorem spell_of_some (h : operators.lookup c = some s) : spell c = s :=
  by rw [spell, h, Option.getD_some]

/-- A character that starts with the byte of the hyphen is the hyphen. -/
theorem plain_ne_operator (hc : operators.lookup c = none) (hd : operators.lookup d = some s) :
    utf8EncodeChar c ++ x ≠ s ++ y := by
  intro h
  obtain ⟨hlength, hhead⟩ := operators_spelled _ (mem_of_lookup hd)
  obtain ⟨r, rfl⟩ := List.head?_eq_some_iff.mp hhead
  obtain ⟨rfl, -⟩ := Text.encode_append_inj (d := '-') (y := r ++ y) h
  cases hc

theorem spell_append_inj (h : spell c ++ x = spell d ++ y) : c = d ∧ x = y := by
  cases hc : operators.lookup c with
  | some s =>
    rw [spell_of_some hc] at h
    cases hd : operators.lookup d with
    | some t =>
      rw [spell_of_some hd] at h
      have hs := mem_of_lookup hc
      have ht := mem_of_lookup hd
      obtain ⟨hst, hxy⟩ :=
        List.append_inj h ((operators_spelled _ hs).1.trans (operators_spelled _ ht).1.symm)
      exact ⟨operators_inj _ hs _ ht hst, hxy⟩
    | none =>
      rw [spell_of_none hd] at h
      exact (plain_ne_operator hd hc h.symm).elim
  | none =>
    rw [spell_of_none hc] at h
    cases hd : operators.lookup d with
    | some t =>
      rw [spell_of_some hd] at h
      exact (plain_ne_operator hc hd h).elim
    | none =>
      rw [spell_of_none hd] at h
      exact Text.encode_append_inj h

theorem spell_ne_nil (c : Char) : spell c ≠ [] := by
  cases hc : operators.lookup c with
  | some s =>
    rw [spell_of_some hc]
    exact List.ne_nil_of_length_eq_add_one (operators_spelled _ (mem_of_lookup hc)).1
  | none =>
    rw [spell_of_none hc]
    exact String.utf8EncodeChar_ne_nil

/-- Names that are valid UTF-8 and differ have symbols that differ, whatever the types of the
parameters. -/
theorem symbols_differ {n₁ n₂ : Text} (h₁ : n₁.isUtf8) (h₂ : n₂.isUtf8) (hne : n₁ ≠ n₂)
    (params : List Text) :
    mangle n₁ params ≠ mangle n₂ params := by
  intro h
  rw [mangle, mangle, List.append_assoc, List.append_assoc] at h
  have hchars : n₁.chars = n₂.chars :=
    Text.flatMap_inj spell_ne_nil (fun _ _ _ _ _ _ => spell_append_inj) (List.append_cancel_right h)
  apply hne
  rw [← Text.ofChars_chars h₁, hchars, Text.ofChars_chars h₂]

/-- An operator and the text that it is spelled by. -/
theorem plus_differs_from_spelling : mangle "+" ["Int", "Int"] ≠ mangle "-P" ["Int", "Int"] :=
  symbols_differ (by decide +kernel) (by decide +kernel) (by decide) _

end Midlevel.Ir.Symbol
