import Mathlib.Data.Nat.Bitwise
import Mathlib.Tactic.IntervalCases
import Mathlib.Tactic.NormNum
import Vire.Dict.Dict

/-!
# The order of the scan

The cursor of `dictScan` is a counter whose bits are reversed.  `scanPos k v` is the position of the
cursor `v` in the order of the scan of `2 ^ k` buckets: each step moves on by one, every bucket has
a position of its own, and the cursor is 0 again when all positions are used up.
-/

namespace Vire

/-- Exchange neighbouring groups of `s` bits; `mask` has the lower ones. -/
def swapBits (s mask v : UInt64) : UInt64 := ((v >>> s) &&& mask) ||| ((v <<< s) &&& ~~~mask)

theorem rev_eq (v : UInt64) :
    rev v = swapBits 1 0x5555555555555555 (swapBits 2 0x3333333333333333
      (swapBits 4 0x0f0f0f0f0f0f0f0f (swapBits 8 0x00ff00ff00ff00ff
        (swapBits 16 0x0000ffff0000ffff (swapBits 32 0x00000000ffffffff v))))) := by
  simp only [rev, List.foldl_cons, List.foldl_nil, swapBits]
  rfl

variable {k : ℕ} {i : ℕ}

theorem getLsbD_swapBits {s mask : UInt64} (hs : s.toNat = 2 ^ k) (hk : k < 6)
    (hm : ∀ i < 64, mask.toBitVec.getLsbD i = !i.testBit k) (v : UInt64) (hi : i < 64) :
    (swapBits s mask v).toBitVec.getLsbD i = v.toBitVec.getLsbD (i ^^^ 2 ^ k) := by
  have h64 : (s.toBitVec % 64).toNat = 2 ^ k := by
    have hlt : s.toBitVec.toNat < 64 := by
      rw [UInt64.toNat_toBitVec, hs]
      exact Nat.pow_lt_pow_right (by norm_num) hk
    exact (Nat.mod_eq_of_lt hlt).trans hs
  have hxor : i ^^^ 2 ^ k = if i.testBit k then i - 2 ^ k else i + 2 ^ k := by
    interval_cases k <;> revert hi <;> revert i <;> decide
  simp only [swapBits, UInt64.toBitVec_or, UInt64.toBitVec_and, UInt64.toBitVec_shiftRight,
    UInt64.toBitVec_shiftLeft, UInt64.toBitVec_not, BitVec.getLsbD_or, BitVec.getLsbD_and,
    BitVec.shiftLeft_eq', BitVec.ushiftRight_eq', h64, BitVec.getLsbD_ushiftRight,
    BitVec.getLsbD_shiftLeft, BitVec.getLsbD_not, hm i hi, hxor, hi]
  rcases hb : i.testBit k with _ | _
  · simp [Nat.add_comm]
  · have hle := Nat.ge_two_pow_of_testBit hb
    simp [hle]

theorem getLsbD_rev (v : UInt64) (hi : i < 64) :
    (rev v).toBitVec.getLsbD i = v.toBitVec.getLsbD (63 - i) := by
  have hlt : ∀ k < 6, ∀ j < 64, j ^^^ 2 ^ k < 64 := by decide
  have h0 := hlt 0 (by norm_num) i hi
  have h1 := hlt 1 (by norm_num) _ h0
  have h2 := hlt 2 (by norm_num) _ h1
  have h3 := hlt 3 (by norm_num) _ h2
  have h4 := hlt 4 (by norm_num) _ h3
  rw [rev_eq, getLsbD_swapBits (k := 0) rfl (by norm_num) (by decide) _ hi,
    getLsbD_swapBits (k := 1) rfl (by norm_num) (by decide) _ h0,
    getLsbD_swapBits (k := 2) rfl (by norm_num) (by decide) _ h1,
    getLsbD_swapBits (k := 3) rfl (by norm_num) (by decide) _ h2,
    getLsbD_swapBits (k := 4) rfl (by norm_num) (by decide) _ h3,
    getLsbD_swapBits (k := 5) rfl (by norm_num) (by decide) _ h4]
  have hflip : ∀ j < 64,
      (((((j ^^^ 2 ^ 0) ^^^ 2 ^ 1) ^^^ 2 ^ 2) ^^^ 2 ^ 3) ^^^ 2 ^ 4) ^^^ 2 ^ 5 = 63 - j := by decide
  rw [hflip i hi]

theorem testBit_rev (v : UInt64) (hi : i < 64) :
    (rev v).toNat.testBit i = v.toNat.testBit (63 - i) := getLsbD_rev v hi

theorem testBit_of_le (v : UInt64) (hi : 64 ≤ i) : v.toNat.testBit i = false :=
  Nat.testBit_lt_two_pow (v.toNat_lt.trans_le (Nat.pow_le_pow_right (by norm_num) hi))

theorem testBit_not (v : UInt64) (hi : i < 64) :
    (~~~v).toNat.testBit i = !v.toNat.testBit i := by
  have h : (~~~v.toBitVec).getLsbD i = !v.toBitVec.getLsbD i := by
    simp [hi]
  exact h

theorem eq_of_testBit {v w : UInt64} (h : ∀ i < 64, v.toNat.testBit i = w.toNat.testBit i) :
    v = w := by
  refine UInt64.toNat_inj.mp (Nat.eq_of_testBit_eq fun i => ?_)
  by_cases hi : i < 64
  · exact h i hi
  · rw [testBit_of_le v (by omega), testBit_of_le w (by omega)]

@[simp]
theorem rev_rev (v : UInt64) : rev (rev v) = v := by
  refine eq_of_testBit fun i hi => ?_
  rw [testBit_rev _ hi, testBit_rev _ (by omega)]
  congr 1
  omega

theorem rev_zero : rev 0 = 0 := by decide

theorem rev_eq_zero {v : UInt64} : rev v = 0 ↔ v = 0 := by
  constructor
  · intro h
    rw [← rev_rev v, h, rev_zero]
  · rintro rfl
    exact rev_zero

def maskOf (k : ℕ) : UInt64 := UInt64.ofNat (2 ^ k - 1)

section

variable (hk : k ≤ 64)

include hk

theorem toNat_maskOf : (maskOf k).toNat = 2 ^ k - 1 := by
  have hle : 2 ^ k ≤ 2 ^ 64 := Nat.pow_le_pow_right (by norm_num) hk
  exact Nat.mod_eq_of_lt (by omega)

theorem testBit_maskOf (i : ℕ) :
    (maskOf k).toNat.testBit i = decide (i < k) := by
  rw [toNat_maskOf hk, Nat.testBit_two_pow_sub_one]

/-- Where the cursor `v` is in the order of the scan of `2 ^ k` buckets. -/
def scanPos (k : ℕ) (v : UInt64) : ℕ := (rev v).toNat / 2 ^ (64 - k)

theorem testBit_scanPos (v : UInt64) (j : ℕ) :
    (scanPos k v).testBit j = (decide (j < k) && v.toNat.testBit (k - 1 - j)) := by
  rw [scanPos, Nat.testBit_div_two_pow]
  by_cases hj : j < k
  · rw [testBit_rev _ (by omega)]
    simp only [hj, decide_true, Bool.true_and]
    congr 1
    omega
  · rw [testBit_of_le _ (by omega)]
    simp [hj]

theorem scanPos_lt (v : UInt64) : scanPos k v < 2 ^ k := by
  have hlt := (rev v).toNat_lt
  rw [scanPos, Nat.div_lt_iff_lt_mul (Nat.two_pow_pos _), ← pow_add, Nat.add_sub_cancel' hk]
  exact hlt

theorem scanPos_inj {v w : UInt64} (h : scanPos k v = scanPos k w) :
    v.toNat % 2 ^ k = w.toNat % 2 ^ k := by
  refine Nat.eq_of_testBit_eq fun i => ?_
  rw [Nat.testBit_mod_two_pow, Nat.testBit_mod_two_pow]
  by_cases hi : i < k
  · have := congrArg (Nat.testBit · (k - 1 - i)) h
    simp only [testBit_scanPos hk, decide_eq_true (show k - 1 - i < k by omega),
      Bool.true_and] at this
    rw [show k - 1 - (k - 1 - i) = i by omega] at this
    rw [this]
  · simp [hi]

theorem testBit_or_not_maskOf (v : UInt64) {j : ℕ} (hj : j < 64) :
    (v ||| ~~~maskOf k).toNat.testBit j = (decide (k ≤ j) || v.toNat.testBit j) := by
  rw [UInt64.toNat_or, Nat.testBit_or, testBit_not _ hj, testBit_maskOf hk]
  by_cases h : k ≤ j
  · simp [h, not_lt.mpr h]
  · simp [h, not_le.mp h]

theorem rev_or_not (v : UInt64) :
    (rev (v ||| ~~~maskOf k)).toNat = 2 ^ (64 - k) * scanPos k v + (2 ^ (64 - k) - 1) := by
  refine Nat.eq_of_testBit_eq fun i => ?_
  rw [Nat.testBit_two_pow_mul_add _ (Nat.sub_lt (Nat.two_pow_pos _) Nat.one_pos),
    testBit_scanPos hk, Nat.testBit_two_pow_sub_one]
  by_cases hi : i < 64
  · rw [testBit_rev _ hi, testBit_or_not_maskOf hk v (by omega)]
    by_cases hlow : i < 64 - k
    · simp [hlow, show k ≤ 63 - i by omega]
    · rw [if_neg hlow, decide_eq_false (show ¬ k ≤ 63 - i by omega),
        decide_eq_true (show i - (64 - k) < k by omega), Bool.false_or, Bool.true_and]
      congr 1
      omega
  · rw [testBit_of_le _ (by omega), if_neg (by omega), decide_eq_false (by omega), Bool.false_and]

def scanNext (k : ℕ) (v : UInt64) : UInt64 := rev (rev (v ||| ~~~maskOf k) + 1)

theorem rev_scanNext (v : UInt64) :
    (rev (scanNext k v)).toNat = 2 ^ (64 - k) * (scanPos k v + 1) % 2 ^ 64 := by
  have hpos : 0 < 2 ^ (64 - k) := Nat.two_pow_pos _
  rw [scanNext, rev_rev, UInt64.toNat_add, rev_or_not hk, UInt64.toNat_one, Nat.mul_add]
  omega

theorem two_pow_split : 2 ^ (64 - k) * 2 ^ k = 2 ^ 64 := by
  rw [← pow_add, Nat.sub_add_cancel hk]

theorem scanNext_eq_zero_iff (v : UInt64) :
    scanNext k v = 0 ↔ scanPos k v + 1 = 2 ^ k := by
  have hlt := scanPos_lt hk v
  have hpos : 0 < 2 ^ (64 - k) := Nat.two_pow_pos _
  rw [← rev_eq_zero, ← UInt64.toNat_inj, rev_scanNext hk, UInt64.toNat_zero, ← two_pow_split hk,
    Nat.mul_mod_mul_left]
  constructor
  · intro h
    have hmod : (scanPos k v + 1) % 2 ^ k = 0 := by
      rcases Nat.mul_eq_zero.mp h with h | h
      · omega
      · exact h
    by_contra hne
    rw [Nat.mod_eq_of_lt (by omega)] at hmod
    omega
  · intro h
    rw [h, Nat.mod_self, Nat.mul_zero]

theorem scanPos_scanNext {v : UInt64} (h : scanNext k v ≠ 0) :
    scanPos k (scanNext k v) = scanPos k v + 1 := by
  have hlt := scanPos_lt hk v
  have hne : scanPos k v + 1 ≠ 2 ^ k := fun heq => h ((scanNext_eq_zero_iff hk v).mpr heq)
  rw [scanPos, rev_scanNext hk, ← two_pow_split hk, Nat.mul_mod_mul_left,
    Nat.mod_eq_of_lt (show scanPos k v + 1 < 2 ^ k by omega),
    Nat.mul_div_cancel_left _ (Nat.two_pow_pos _)]

theorem scanNext_lt (v : UInt64) : (scanNext k v).toNat < 2 ^ k := by
  refine Nat.lt_pow_two_of_testBit _ fun i hi => ?_
  by_cases h64 : i < 64
  · rw [← rev_rev (scanNext k v), testBit_rev _ h64, rev_scanNext hk, Nat.testBit_mod_two_pow,
      Nat.testBit_two_pow_mul]
    simp only [decide_eq_false (show ¬ 64 - k ≤ 63 - i by omega), Bool.false_and, Bool.and_false]
  · exact testBit_of_le _ (by omega)

end

theorem scanPos_zero (k : ℕ) : scanPos k 0 = 0 := by
  exact Nat.zero_div _

/-! ## Expansions of a cursor

In a larger table of `2 ^ k₁` buckets the bucket `b` stands for those with the same lower bits. -/

theorem toNat_and_maskOf (hk : k ≤ 64) (v : UInt64) :
    (v &&& maskOf k).toNat = v.toNat % 2 ^ k := by
  rw [UInt64.toNat_and, toNat_maskOf hk, Nat.and_two_pow_sub_one_eq_mod]

theorem and_not_maskOf (hk : k ≤ 64) {w : UInt64} (hw : w.toNat % 2 ^ k = 0) :
    w &&& ~~~maskOf k = w := by
  refine eq_of_testBit fun i hi => ?_
  rw [UInt64.toNat_and, Nat.testBit_and, testBit_not _ hi, testBit_maskOf hk]
  by_cases hik : i < k
  · have hlow := congrArg (Nat.testBit · i) hw
    simp only [Nat.testBit_mod_two_pow, hik, decide_true, Bool.true_and, Nat.zero_testBit] at hlow
    simp [hlow]
  · simp [hik]

theorem toNat_or_maskOf (hk : k ≤ 64) (v : UInt64) :
    (v ||| maskOf k).toNat = 2 ^ k * (v.toNat / 2 ^ k) + (2 ^ k - 1) := by
  have hpos : 0 < 2 ^ k := Nat.two_pow_pos k
  rw [UInt64.toNat_or, toNat_maskOf hk]
  refine Nat.eq_of_testBit_eq fun i => ?_
  rw [Nat.testBit_or, Nat.testBit_two_pow_mul_add _ (by omega), Nat.testBit_two_pow_sub_one,
    Nat.testBit_div_two_pow]
  by_cases hi : i < k
  · simp [hi]
  · simp [hi, Nat.sub_add_cancel (not_lt.mp hi)]

def expandNext (k : ℕ) (v : UInt64) : UInt64 :=
  (((v ||| maskOf k) + 1) &&& ~~~maskOf k) ||| (v &&& maskOf k)

theorem toNat_expandNext (hk : k ≤ 64) (v : UInt64) :
    (expandNext k v).toNat = 2 ^ k * ((v.toNat / 2 ^ k + 1) % 2 ^ (64 - k)) + v.toNat % 2 ^ k := by
  have hpos : 0 < 2 ^ k := Nat.two_pow_pos k
  have hadd : ((v ||| maskOf k) + 1).toNat =
      2 ^ k * ((v.toNat / 2 ^ k + 1) % 2 ^ (64 - k)) := by
    rw [UInt64.toNat_add, toNat_or_maskOf hk, UInt64.toNat_one, ← Nat.mul_mod_mul_left, ← pow_add,
      Nat.add_sub_cancel' hk, Nat.mul_add]
    omega
  rw [expandNext, and_not_maskOf hk (by rw [hadd, Nat.mul_mod_right]), UInt64.toNat_or, hadd,
    toNat_and_maskOf hk, Nat.two_pow_add_eq_or_of_lt (Nat.mod_lt _ hpos)]

/-- The number of an expansion among those in a table of `2 ^ k₁` buckets. -/
def expansion (k k₁ : ℕ) (v : UInt64) : ℕ := v.toNat / 2 ^ k % 2 ^ (k₁ - k)

theorem expandNext_mod (hk : k ≤ 64) (v : UInt64) :
    (expandNext k v).toNat % 2 ^ k = v.toNat % 2 ^ k := by
  rw [toNat_expandNext hk, Nat.mul_add_mod, Nat.mod_mod]

theorem expansion_expandNext {k k1 : ℕ} (hk : k ≤ k1) (hk1 : k1 ≤ 64) (v : UInt64) :
    expansion k k1 (expandNext k v) = (expansion k k1 v + 1) % 2 ^ (k1 - k) := by
  have hpos : 0 < 2 ^ k := Nat.two_pow_pos k
  rw [expansion, toNat_expandNext (by omega), Nat.mul_add_div hpos,
    Nat.div_eq_of_lt (Nat.mod_lt _ hpos), Nat.add_zero,
    Nat.mod_mod_of_dvd _ (pow_dvd_pow 2 (by omega)), expansion, Nat.mod_add_mod]

theorem and_xor_maskOf {k k1 : ℕ} (hk : k ≤ k1) (hk1 : k1 ≤ 64) (v : UInt64) :
    v &&& (maskOf k ^^^ maskOf k1) = 0 ↔ expansion k k1 v = 0 := by
  have hbit : ∀ i, (v &&& (maskOf k ^^^ maskOf k1)).toNat.testBit i =
      (v.toNat.testBit i && (decide (k ≤ i) && decide (i < k1))) := by
    intro i
    rw [UInt64.toNat_and, Nat.testBit_and, UInt64.toNat_xor, Nat.testBit_xor,
      testBit_maskOf (by omega), testBit_maskOf hk1]
    by_cases h1 : i < k
    · simp [h1, show i < k1 by omega, not_le.mpr h1]
    · simp [h1, not_lt.mp h1]
  have hexp : ∀ i, (expansion k k1 v).testBit i =
      (decide (i < k1 - k) && v.toNat.testBit (i + k)) := by
    intro i
    rw [expansion, Nat.testBit_mod_two_pow, Nat.testBit_div_two_pow]
  rw [← UInt64.toNat_inj, UInt64.toNat_zero]
  constructor
  · intro h
    refine Nat.eq_of_testBit_eq fun i => ?_
    have := hbit (i + k)
    rw [h, Nat.zero_testBit] at this
    rw [hexp, Nat.zero_testBit]
    by_cases hi : i < k1 - k
    · simpa [hi, show i + k < k1 by omega] using this.symm
    · simp [hi]
  · intro h
    refine Nat.eq_of_testBit_eq fun i => ?_
    rw [hbit, Nat.zero_testBit]
    by_cases hi : k ≤ i ∧ i < k1
    · have := hexp (i - k)
      rw [h, Nat.zero_testBit, Nat.sub_add_cancel hi.1,
        decide_eq_true (show i - k < k1 - k by omega), Bool.true_and] at this
      rw [← this, Bool.false_and]
    · rw [← Bool.decide_and, decide_eq_false hi, Bool.and_false]

theorem toNat_and_maskOf_expansion {k k1 : ℕ} (hk : k ≤ k1) (hk1 : k1 ≤ 64) (v : UInt64) :
    (v &&& maskOf k1).toNat = 2 ^ k * expansion k k1 v + v.toNat % 2 ^ k := by
  rw [toNat_and_maskOf hk1, expansion, show 2 ^ k1 = 2 ^ k * 2 ^ (k1 - k) by
    rw [← pow_add, Nat.add_sub_cancel' hk], Nat.mod_mul, Nat.add_comm]

end Vire
