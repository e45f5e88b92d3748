import Mathlib.Data.List.GetD
import Mathlib.Data.Nat.Bitwise

/-!
# Packed fields

A byte string is a sequence of bits, the least significant bit of each byte first.  A field is a
number of at most eight bits at any place of it, so that it is in one byte or in two that are
adjacent.
-/

namespace Vire.Logic

open List

/-- A bit of a byte string; all bits behind the end are zero. -/
def bitAt (s : List UInt8) (i : ℕ) : Bool := (s.getD (i / 8) 0).toNat.testBit (i % 8)

/-- The field of `w` bits at bit `n`. -/
def getField (s : List UInt8) (n w : ℕ) : ℕ :=
  (((s.getD (n / 8) 0).toNat >>> (n % 8)) |||
    ((s.getD (n / 8 + 1) 0).toNat <<< (8 - n % 8))) % 2 ^ w

def putBits (b : UInt8) (clear set : ℕ) : UInt8 := b &&& ~~~clear.toUInt8 ||| set.toUInt8

def setField (s : List UInt8) (n w v : ℕ) : List UInt8 :=
  let s := s.set (n / 8) (putBits (s.getD (n / 8) 0) ((2 ^ w - 1) <<< (n % 8)) (v <<< (n % 8)))
  s.set (n / 8 + 1)
    (putBits (s.getD (n / 8 + 1) 0) ((2 ^ w - 1) >>> (8 - n % 8)) (v >>> (8 - n % 8)))

theorem testBit_byte (b : UInt8) {j : ℕ} (h : 8 ≤ j) : b.toNat.testBit j = false :=
  Nat.testBit_lt_two_pow (b.toNat_lt.trans_le (Nat.pow_le_pow_right Nat.two_pos h))

theorem testBit_toUInt8 (n : ℕ) {j : ℕ} (hj : j < 8) : n.toUInt8.toNat.testBit j = n.testBit j := by
  rw [Nat.toUInt8_eq, UInt8.toNat_ofNat', Nat.testBit_mod_two_pow, decide_eq_true hj, Bool.true_and]

theorem testBit_putBits (b : UInt8) (clear set : ℕ) {j : ℕ} (hj : j < 8) :
    (putBits b clear set).toNat.testBit j =
      ((b.toNat.testBit j && !clear.testBit j) || set.testBit j) := by
  have hnot : (~~~clear.toUInt8).toNat = 2 ^ 8 - (clear.toUInt8.toNat + 1) := by
    have hsize : UInt8.size = 256 := rfl
    rw [UInt8.toNat_not, hsize]
    omega
  rw [putBits, UInt8.toNat_or, UInt8.toNat_and, Nat.testBit_or, Nat.testBit_and, hnot,
    Nat.testBit_two_pow_sub_succ (UInt8.toNat_lt _), decide_eq_true hj, Bool.true_and,
      testBit_toUInt8 _ hj,
    testBit_toUInt8 _ hj]

theorem testBit_getField (s : List UInt8) (n : ℕ) {w : ℕ} (hw : w ≤ 8) (k : ℕ) :
    (getField s n w).testBit k = (decide (k < w) && bitAt s (n + k)) := by
  rw [getField, Nat.testBit_mod_two_pow]
  by_cases hk : k < w
  · rw [decide_eq_true hk, Bool.true_and, Bool.true_and, Nat.testBit_or, Nat.testBit_shiftRight,
      Nat.testBit_shiftLeft, bitAt]
    by_cases hlow : n % 8 + k < 8
    · rw [show (n + k) / 8 = n / 8 by omega, show (n + k) % 8 = n % 8 + k by omega,
        decide_eq_false (by omega : ¬ k ≥ 8 - n % 8), Bool.false_and, Bool.or_false]
    · rw [show (n + k) / 8 = n / 8 + 1 by omega, show (n + k) % 8 = k - (8 - n % 8) by omega,
        testBit_byte _ (Nat.not_lt.mp hlow), decide_eq_true (by omega : k ≥ 8 - n % 8),
          Bool.true_and,
        Bool.false_or]
  · rw [decide_eq_false hk, Bool.false_and, Bool.false_and]

theorem getD_set {α : Type} (l : List α) (k : ℕ) (a : α) (j : ℕ) (d : α) :
    (l.set k a).getD j d = if k = j ∧ k < l.length then a else l.getD j d := by
  rw [getD_eq_getElem?_getD, getElem?_set]
  split_ifs with hk hlt hand hand hand
  · rfl
  · exact absurd ⟨hk, hlt⟩ hand
  · exact absurd hand.2 hlt
  · rw [← hk, getD_eq_default _ _ (Nat.not_lt.mp hlt)]
    rfl
  · exact absurd hand.1 hk
  · rfl

theorem bitAt_setField {s : List UInt8} {n w v : ℕ} (hw : 0 < w ∧ w ≤ 8) (hv : v < 2 ^ w)
    (hs : n + w ≤ 8 * s.length) (i : ℕ) :
    bitAt (setField s n w v) i = if n ≤ i ∧ i < n + w then v.testBit (i - n) else bitAt s i := by
  have hout : ∀ k, w ≤ k → v.testBit k = false := fun k hk =>
    Nat.testBit_lt_two_pow (hv.trans_le (Nat.pow_le_pow_right Nat.two_pos hk))
  have hj : i % 8 < 8 := Nat.mod_lt _ (by decide)
  simp only [bitAt, setField, getD_set, length_set]
  by_cases hfirst : n / 8 = i / 8
  · -- the byte in which the field begins
    rw [if_neg (by omega), if_pos (by omega), testBit_putBits _ _ _ hj, Nat.testBit_shiftLeft,
      Nat.testBit_shiftLeft, Nat.testBit_two_pow_sub_one, hfirst]
    rcases Nat.lt_or_ge i n with hlt | hge
    · rw [if_neg (by omega), decide_eq_false (by omega : ¬ i % 8 ≥ n % 8)]
      simp
    · rw [decide_eq_true (by omega : i % 8 ≥ n % 8), show i % 8 - n % 8 = i - n by omega]
      split_ifs with hin
      · simp [show i - n < w by omega]
      · simp [show ¬ i - n < w by omega, hout (i - n) (by omega)]
  by_cases hsecond : n / 8 + 1 = i / 8
  · by_cases hlen : n / 8 + 1 < s.length
    · rw [if_pos ⟨hsecond, hlen⟩, if_neg (by omega), testBit_putBits _ _ _ hj,
        Nat.testBit_shiftRight,
        Nat.testBit_shiftRight, Nat.testBit_two_pow_sub_one, hsecond, show 8 - n % 8 + i % 8 =
          i - n by omega]
      split_ifs with hin
      · simp [show i - n < w by omega]
      · simp [show ¬ i - n < w by omega, hout (i - n) (by omega)]
    · rw [if_neg (by omega), if_neg (by omega), if_neg (by omega)]
  · rw [if_neg (by omega), if_neg (by omega), if_neg (by omega)]

variable {s : List UInt8} {n m w v : ℕ}

theorem length_setField : (setField s n w v).length = s.length := by
  rw [setField, length_set, length_set]

theorem getField_setField_self (hw : 0 < w ∧ w ≤ 8) (hv : v < 2 ^ w) (hs : n + w ≤ 8 * s.length) :
    getField (setField s n w v) n w = v := by
  refine Nat.eq_of_testBit_eq fun k => ?_
  rw [testBit_getField _ _ hw.2, bitAt_setField hw hv hs]
  by_cases hk : k < w
  · rw [decide_eq_true hk, Bool.true_and, if_pos (by omega), Nat.add_sub_cancel_left]
  · rw [decide_eq_false hk, Bool.false_and,
      Nat.testBit_lt_two_pow (hv.trans_le (Nat.pow_le_pow_right Nat.two_pos (Nat.not_lt.mp hk)))]

theorem getField_setField_of_disjoint (hw : 0 < w ∧ w ≤ 8) (hv : v < 2 ^ w)
    (hs : n + w ≤ 8 * s.length)
    (hdisj : m + w ≤ n ∨ n + w ≤ m) : getField (setField s n w v) m w = getField s m w := by
  refine Nat.eq_of_testBit_eq fun k => ?_
  rw [testBit_getField _ _ hw.2, testBit_getField _ _ hw.2, bitAt_setField hw hv hs]
  by_cases hk : k < w
  · rw [if_neg (by omega)]
  · rw [decide_eq_false hk, Bool.false_and, Bool.false_and]

end Vire.Logic
