import Mathlib.Data.Nat.Digits.Defs
import Mathlib.Tactic.Ring

/-!
# Words as lanes of bytes

A word is a number with a byte in each of its lanes.  Operations with the same mask in every lane
work on each lane alone, as long as no lane gets more than a byte.
-/

namespace Vire.Logic

open List

open Nat (ofDigits)

def everyLane (m n : ℕ) : ℕ := ofDigits 256 (replicate n m)

theorem everyLane_succ (m n : ℕ) : everyLane m (n + 1) = m + 256 * everyLane m n := by
  rw [everyLane, replicate_succ, Nat.ofDigits_cons, everyLane]

theorem and_eq_of_lt {j m : ℕ} (hm : m < 2 ^ j) (y z : ℕ) (h : y % 2 ^ j = z % 2 ^ j) :
    y &&& m = z &&& m := by
  have hmod : ∀ x : ℕ, x &&& m = (x % 2 ^ j) &&& m := by
    intro x
    have hlt : x &&& m < 2 ^ j := Nat.lt_of_le_of_lt Nat.and_le_right hm
    rw [← Nat.mod_eq_of_lt hlt, Nat.and_mod_two_pow, Nat.mod_eq_of_lt hm]
  rw [hmod y, hmod z, h]

theorem and_lane {m : ℕ} (hm : m < 256) (v M : ℕ) :
    v &&& (m + 256 * M) = (v % 256 &&& m) + 256 * (v / 256 &&& M) := by
  have hdiv := Nat.and_div_two_pow (a := v) (b := m + 256 * M) (n := 8)
  have hmod := Nat.and_mod_two_pow (a := v) (b := m + 256 * M) (n := 8)
  rw [show (2 : ℕ) ^ 8 = 256 from rfl] at hdiv hmod
  rw [show (m + 256 * M) / 256 = M by omega] at hdiv
  rw [show (m + 256 * M) % 256 = m by omega] at hmod
  rw [← hdiv, ← hmod, Nat.mod_add_div]

/-- Shifting by `k` brings bits of the next lane to the top of a lane, where the mask is zero. -/
theorem shiftRight_and_everyLane {k j m : ℕ} (hk : 2 ^ k * 2 ^ j = 256) (hm : m < 2 ^ j)
    (bs : List ℕ) (hbs : ∀ b ∈ bs, b < 256) :
    (ofDigits 256 bs >>> k) &&& everyLane m bs.length =
      ofDigits 256 (bs.map fun b => (b >>> k) &&& m) := by
  have hm' : m < 256 := by
    have := Nat.le_mul_of_pos_left (2 ^ j) (Nat.two_pow_pos k)
    omega
  induction bs with
  | nil => simp [everyLane]
  | cons b bs ih =>
    obtain ⟨hb, hbs⟩ := forall_mem_cons.mp hbs
    have hv : ofDigits 256 (b :: bs) >>> k = b / 2 ^ k + 2 ^ j * ofDigits 256 bs := by
      rw [Nat.ofDigits_cons, Nat.shiftRight_eq_div_pow, ← hk, Nat.mul_assoc,
        Nat.add_mul_div_left _ _ (Nat.two_pow_pos k)]
    have hhi : ofDigits 256 (b :: bs) >>> k / 256 = ofDigits 256 bs >>> k := by
      rw [Nat.shiftRight_eq_div_pow, Nat.div_div_eq_div_mul, Nat.mul_comm, ← Nat.div_div_eq_div_mul,
        Nat.ofDigits_cons, Nat.add_mul_div_left _ _ (by norm_num), Nat.div_eq_of_lt hb,
        Nat.zero_add, Nat.shiftRight_eq_div_pow]
    have hlo : ofDigits 256 (b :: bs) >>> k % 256 &&& m = (b >>> k) &&& m := by
      refine and_eq_of_lt hm _ _ ?_
      rw [Nat.mod_mod_of_dvd _ ⟨2 ^ k, by rw [Nat.mul_comm]; exact hk.symm⟩, hv,
        Nat.add_mul_mod_self_left, Nat.shiftRight_eq_div_pow]
    rw [length_cons, everyLane_succ, and_lane hm', hlo, hhi, ih hbs, map_cons, Nat.ofDigits_cons]

theorem ofDigits_add (f g : ℕ → ℕ) (bs : List ℕ) :
    ofDigits 256 (bs.map f) + ofDigits 256 (bs.map g) =
      ofDigits 256 (bs.map fun b => f b + g b) := by
  induction bs with
  | nil => rfl
  | cons b bs ih =>
    simp only [map_cons, Nat.ofDigits_cons, ← ih]
    ring

theorem ofDigits_sub {f g : ℕ → ℕ} {bs : List ℕ} (h : ∀ b ∈ bs, g b ≤ f b) :
    ofDigits 256 (bs.map g) ≤ ofDigits 256 (bs.map f) ∧
      ofDigits 256 (bs.map f) - ofDigits 256 (bs.map g) =
        ofDigits 256 (bs.map fun b => f b - g b) := by
  have hadd := ofDigits_add (fun b => f b - g b) g bs
  rw [map_congr_left (fun b hb => Nat.sub_add_cancel (h b hb))] at hadd
  omega

/-- The lanes are added to themselves four bits lower.  The sums stay in their lanes if no half of a
lane is more than seven. -/
theorem add_shiftRight_and_everyLane (bs : List ℕ) (hbs : ∀ b ∈ bs, b % 16 ≤ 7 ∧ b / 16 ≤ 7) :
    (ofDigits 256 bs + ofDigits 256 bs >>> 4) &&& everyLane 15 bs.length =
      ofDigits 256 (bs.map fun b => (b + b >>> 4) &&& 15) := by
  induction bs with
  | nil => rfl
  | cons b bs ih =>
    obtain ⟨hb, hbs⟩ := forall_mem_cons.mp hbs
    have hnext : ofDigits 256 bs % 16 ≤ 7 := by
      cases bs with
      | nil => exact Nat.zero_le _
      | cons b' bs =>
        have := (hbs b' mem_cons_self).1
        rw [Nat.ofDigits_cons]
        omega
    have hlo : ∀ x : ℕ, x % 256 &&& 15 = x % 16 := fun x => by
      rw [show (15 : ℕ) = 2 ^ 4 - 1 from rfl, Nat.and_two_pow_sub_one_eq_mod]
      omega
    have hhi : (ofDigits 256 (b :: bs) + ofDigits 256 (b :: bs) >>> 4) / 256 =
        ofDigits 256 bs + ofDigits 256 bs >>> 4 := by
      rw [Nat.ofDigits_cons, Nat.shiftRight_eq_div_pow, Nat.shiftRight_eq_div_pow]
      omega
    rw [length_cons, everyLane_succ, and_lane (by norm_num), hhi, ih hbs, hlo, map_cons,
      Nat.ofDigits_cons]
    congr 1
    rw [show (15 : ℕ) = 2 ^ 4 - 1 from rfl, Nat.and_two_pow_sub_one_eq_mod,
      Nat.shiftRight_eq_div_pow, Nat.shiftRight_eq_div_pow, Nat.cast_id]
    omega

end Vire.Logic
