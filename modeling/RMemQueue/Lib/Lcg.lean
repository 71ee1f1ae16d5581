import Mathlib.Data.Int.ModEq
import Mathlib.Logic.Function.Iterate
import Mathlib.Tactic.Ring

/-!
# Linear congruential generators

The generator `x ↦ a x + c` modulo a power of two, with `a ≡ 1` modulo 4 and an odd `c`, goes through all residues
(`exists_iterate_modEq`): `2 ^ e` steps change the bit `e` and no bit below it.
-/

namespace Lcg

/-- One step, before it is reduced. -/
def next (a c x : ℤ) : ℤ := a * x + c

/-- What `2 ^ e` steps add. -/
def increment (a c : ℤ) : ℕ → ℤ
  | 0 => c
  | e + 1 => (a ^ 2 ^ e + 1) * increment a c e

variable {a c : ℤ}

theorem next_modEq {m x y : ℤ} (h : x ≡ y [ZMOD m]) : next a c x ≡ next a c y [ZMOD m] := (h.mul_left a).add_right c

theorem iterate_modEq {m x y : ℤ} (h : x ≡ y [ZMOD m]) (k : ℕ) : (next a c)^[k] x ≡ (next a c)^[k] y [ZMOD m] := by
  induction k generalizing x y with
  | zero => exact h
  | succ k ih => exact ih (next_modEq h)

theorem iterate_eq (a c x : ℤ) (e : ℕ) : (next a c)^[2 ^ e] x = a ^ 2 ^ e * x + increment a c e := by
  induction e generalizing x with
  | zero => simp [next, increment]
  | succ e ih =>
    have htwice : (next a c)^[2 ^ (e + 1)] x = (next a c)^[2 ^ e] ((next a c)^[2 ^ e] x) := by
      rw [← Function.iterate_add_apply, ← two_mul, ← pow_succ']
    rw [htwice, ih, ih, increment, pow_succ' 2 e, pow_mul' a]
    ring

/-- The multiplier of `2 ^ e` steps. -/
theorem pow_modEq_one (ha : a ≡ 1 [ZMOD 4]) (e : ℕ) : a ^ 2 ^ e ≡ 1 [ZMOD 2 ^ (e + 2)] := by
  induction e with
  | zero => simpa using ha
  | succ e ih =>
    obtain ⟨t, ht⟩ := ih.symm.dvd
    refine (Int.modEq_iff_dvd.2 ⟨t * (2 ^ (e + 1) * t + 1), ?_⟩).symm
    rw [pow_succ 2 e, pow_mul, show a ^ 2 ^ e = 1 + 2 ^ (e + 2) * t by omega]
    ring

theorem increment_modEq (ha : a ≡ 1 [ZMOD 4]) (hc : c ≡ 1 [ZMOD 2]) (e : ℕ) :
    increment a c e ≡ 2 ^ e [ZMOD 2 ^ (e + 1)] := by
  induction e with
  | zero => simpa [increment] using hc
  | succ e ih =>
    obtain ⟨t, ht⟩ := ih.symm.dvd
    obtain ⟨s, hs⟩ := (pow_modEq_one ha e).symm.dvd
    refine (Int.modEq_iff_dvd.2 ⟨t + 2 ^ e * s * (1 + 2 * t), ?_⟩).symm
    rw [increment, show a ^ 2 ^ e = 1 + 2 ^ (e + 2) * s by omega,
      show increment a c e = 2 ^ e + 2 ^ (e + 1) * t by omega]
    ring

/-- **Full period.**  Every residue is reached within `2 ^ e` steps. -/
theorem exists_iterate_modEq (ha : a ≡ 1 [ZMOD 4]) (hc : c ≡ 1 [ZMOD 2]) (x y : ℤ) (e : ℕ) :
    ∃ k < 2 ^ e, (next a c)^[k] x ≡ y [ZMOD 2 ^ e] := by
  induction e with
  | zero => exact ⟨0, Nat.one_pos, by simpa using Int.modEq_one⟩
  | succ e ih =>
    obtain ⟨k, hk, hmod⟩ := ih
    obtain ⟨t, ht⟩ := hmod.symm.dvd
    have hlt : 2 ^ e < 2 ^ (e + 1) := Nat.pow_lt_pow_succ one_lt_two
    rcases Int.even_or_odd' t with ⟨u, hu | hu⟩
    · refine ⟨k, hk.trans hlt, (Int.modEq_iff_dvd.2 ⟨u, ?_⟩).symm⟩
      rw [ht, hu]
      ring
    -- the bit `e` is wrong
    · refine ⟨2 ^ e + k, by rw [pow_succ]; omega, ?_⟩
      rw [Function.iterate_add_apply, iterate_eq]
      have hmul : a ^ 2 ^ e * (next a c)^[k] x ≡ (next a c)^[k] x [ZMOD 2 ^ (e + 1)] := by
        have h := ((pow_modEq_one ha e).of_dvd (pow_dvd_pow 2 (Nat.le_succ _))).mul_right ((next a c)^[k] x)
        rwa [one_mul] at h
      refine (hmul.add (increment_modEq ha hc e)).trans (Int.modEq_iff_dvd.2 ⟨u + 1, ?_⟩).symm
      rw [show (next a c)^[k] x = y + 2 ^ e * t by omega, hu]
      ring

end Lcg
