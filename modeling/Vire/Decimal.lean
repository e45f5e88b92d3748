import Mathlib.Data.List.Induction
import Mathlib.Data.List.TakeWhile
import Mathlib.Tactic.NormNum
import Vire.Util

/-!
# Numbers in decimal

What `ll2string` prints is read back by `string2ll`, and `string2ll` reads nothing else.  The digit
counters agree with the length of what is printed.
-/

namespace Vire

open List

variable {n : ℕ}

theorem decimalLoop_of_lt {fuel : ℕ} (acc : Sds) (h : n < 10) (hf : 0 < fuel) :
    decimalLoop fuel n acc = (48 + n).toUInt8 :: acc := by
  obtain ⟨f, rfl⟩ : ∃ f, fuel = f + 1 := ⟨fuel - 1, by omega⟩
  simp [decimalLoop, h, Nat.mod_eq_of_lt h]

theorem decimalLoop_eq (n : ℕ) :
    ∀ {fuel : ℕ} (acc : Sds), n < fuel → decimalLoop fuel n acc = decimal n ++ acc := by
  induction n using Nat.strongRecOn with
  | ind n ih =>
    intro fuel acc hf
    unfold decimal
    by_cases h : n < 10
    · rw [decimalLoop_of_lt _ h (by omega), decimalLoop_of_lt _ h (by omega)]
      rfl
    · obtain ⟨f, rfl⟩ : ∃ f, fuel = f + 1 := ⟨fuel - 1, by omega⟩
      simp only [decimalLoop, h, if_false]
      rw [ih (n / 10) (by omega) _ (by omega), ih (n / 10) (by omega) _ (by omega)]
      simp

theorem decimal_of_lt (h : n < 10) : decimal n = [(48 + n).toUInt8] :=
  decimalLoop_of_lt _ h (by omega)

theorem decimal_of_ge (h : 10 ≤ n) :
    decimal n = decimal (n / 10) ++ [(48 + n % 10).toUInt8] := by
  have hn : ¬ n < 10 := by omega
  have hstep : decimal n = decimalLoop n (n / 10) [(48 + n % 10).toUInt8] := by
    simp [decimal, decimalLoop, hn]
  rw [hstep, decimalLoop_eq _ _ (by omega)]

theorem decimal_induction {P : ℕ → Prop} (small : ∀ n < 10, P n)
    (step : ∀ n, 10 ≤ n → P (n / 10) → P n) (n : ℕ) : P n := by
  induction n using Nat.strongRecOn with
  | ind n ih =>
    by_cases h : n < 10
    · exact small n h
    · exact step n (by omega) (ih _ (by omega))

theorem toNat_digit {d : ℕ} (h : d < 10) : ((48 + d).toUInt8).toNat = 48 + d := by
  rw [Nat.toUInt8_eq, UInt8.toNat_ofNat']
  omega

theorem isdigit_digit {d : ℕ} (h : d < 10) : isdigit (48 + d).toUInt8 = true := by
  have hd := toNat_digit h
  have h48 : (48 : UInt8).toNat = 48 := rfl
  have h57 : (57 : UInt8).toNat = 57 := rfl
  simp only [isdigit, Bool.and_eq_true, decide_eq_true_eq, UInt8.le_iff_toNat_le]
  omega

theorem isdigit_decimal (n : ℕ) : ∀ b ∈ decimal n, isdigit b = true := by
  induction n using decimal_induction with
  | small n h =>
    rw [decimal_of_lt h]
    intro b hb
    rw [mem_singleton.mp hb]
    exact isdigit_digit h
  | step n h ih =>
    rw [decimal_of_ge h]
    intro b hb
    simp only [mem_append, mem_singleton] at hb
    rcases hb with hb | rfl
    · exact ih b hb
    · exact isdigit_digit (by omega)

theorem digitsVal_append (s : Sds) (b : UInt8) :
    digitsVal (s ++ [b]) = 10 * digitsVal s + (b.toNat - 48) := by
  simp [digitsVal]

@[simp]
theorem digitsVal_decimal (n : ℕ) : digitsVal (decimal n) = n := by
  induction n using decimal_induction with
  | small n h =>
    rw [decimal_of_lt h, ← nil_append [_], digitsVal_append, toNat_digit h]
    simp [digitsVal]
  | step n h ih =>
    rw [decimal_of_ge h, digitsVal_append, ih, toNat_digit (by omega)]
    omega

theorem decimal_ne_nil (n : ℕ) : decimal n ≠ [] := by
  by_cases h : n < 10
  · simp [decimal_of_lt h]
  · simp [decimal_of_ge (by omega : 10 ≤ n)]

theorem head_decimal (hn : 0 < n) :
    ∃ b, (decimal n).head? = some b ∧ 49 ≤ b ∧ b ≤ 57 := by
  induction n using decimal_induction with
  | small n h =>
    refine ⟨_, by rw [decimal_of_lt h]; rfl, ?_⟩
    have h49 : (49 : UInt8).toNat = 49 := rfl
    have h57 : (57 : UInt8).toNat = 57 := rfl
    have hd := toNat_digit h
    simp only [UInt8.le_iff_toNat_le]
    omega
  | step n h ih =>
    obtain ⟨b, hb, hr⟩ := ih (by omega)
    refine ⟨b, ?_, hr⟩
    rw [decimal_of_ge h, head?_append, hb]
    rfl

theorem length_decimal_le {k : ℕ} (h : n < 10 ^ (k + 1)) : (decimal n).length ≤ k + 1 := by
  induction k generalizing n with
  | zero => simp [decimal_of_lt (by simpa using h)]
  | succ k ih =>
    by_cases hn : n < 10
    · simp [decimal_of_lt hn]
    · rw [decimal_of_ge (by omega), length_append]
      have :=
        ih (n := n / 10) (by rw [Nat.div_lt_iff_lt_mul (by norm_num)]; simpa [pow_succ] using h)
      simpa using this

variable {v : ℤ}

theorem length_ll2string_le (hmin : llongMin ≤ v) (hmax : v ≤ llongMax) :
    (ll2string v).length ≤ 20 := by
  have hlen : (decimal v.natAbs).length ≤ 18 + 1 :=
    length_decimal_le (by simp only [llongMin, llongMax] at hmin hmax; omega)
  unfold ll2string
  split_ifs
  · exact Nat.succ_le_succ hlen
  · exact hlen.trans (Nat.le_succ _)

theorem string2ll_decimal (h : (n : ℤ) ≤ llongMax) :
    string2ll (decimal n) = some (n : ℤ) := by
  rcases Nat.eq_zero_or_pos n with rfl | hn
  · rfl
  obtain ⟨b, hb, hlo, hhi⟩ := head_decimal hn
  have hne : decimal n ≠ [48] := by
    intro hd
    rw [hd] at hb
    simp only [head?_cons, Option.some.injEq] at hb
    subst hb
    exact absurd hlo (by decide)
  have hneg : (some b == some (45 : UInt8)) = false := by
    simp only [beq_eq_false_iff_ne, ne_eq, Option.some.injEq]
    rintro rfl
    exact absurd hlo (by decide)
  have hmin : llongMin ≤ (n : ℤ) := (by decide : llongMin ≤ 0).trans (Int.natCast_nonneg n)
  simpa [string2ll, hne, hb, hneg, hlo, hhi, hmin, h] using isdigit_decimal n

theorem string2ll_ll2string (hmin : llongMin ≤ v) (hmax : v ≤ llongMax) :
    string2ll (ll2string v) = some v := by
  unfold ll2string
  split_ifs with hneg
  · obtain ⟨b, hb, hlo, hhi⟩ := head_decimal (Int.natAbs_pos.mpr hneg.ne)
    have habs : -|v| = v := by rw [abs_of_neg hneg, neg_neg]
    simpa [string2ll, hb, hlo, hhi, habs, hmin, hmax] using isdigit_decimal v.natAbs
  · have habs : ((v.natAbs : ℤ)) = v := by omega
    rw [string2ll_decimal (by omega), habs]

theorem ll2string_injOn {i j : ℤ} (hi : llongMin ≤ i ∧ i ≤ llongMax)
    (hj : llongMin ≤ j ∧ j ≤ llongMax) (h : ll2string i = ll2string j) : i = j := by
  have := string2ll_ll2string hi.1 hi.2
  rw [h, string2ll_ll2string hj.1 hj.2] at this
  exact (Option.some.inj this).symm

variable {b : UInt8}

theorem digit_toNat (h : isdigit b = true) :
    b.toNat - 48 < 10 ∧ (48 + (b.toNat - 48)).toUInt8 = b := by
  have h48 : (48 : UInt8).toNat = 48 := rfl
  have h57 : (57 : UInt8).toNat = 57 := rfl
  simp only [isdigit, Bool.and_eq_true, decide_eq_true_eq, UInt8.le_iff_toNat_le] at h
  refine ⟨by omega, ?_⟩
  rw [show 48 + (b.toNat - 48) = b.toNat by omega, Nat.toUInt8_eq, UInt8.ofNat_toNat]

variable {s : Sds}

theorem decimal_digitsVal (hdig : ∀ b ∈ s, isdigit b = true) (hne : s ≠ [])
    (hhead : ∀ b, s.head? = some b → 49 ≤ b) : decimal (digitsVal s) = s := by
  induction s using reverseRecOn with
  | nil => exact absurd rfl hne
  | append_singleton s b ih =>
    obtain ⟨hlt, hb⟩ := digit_toNat (hdig b (by simp))
    rw [digitsVal_append]
    rcases eq_or_ne s [] with rfl | hs
    · rw [show 10 * digitsVal [] + (b.toNat - 48) = b.toNat - 48 from Nat.zero_add _,
        decimal_of_lt hlt, hb]
      rfl
    · have hhead' : ∀ c, s.head? = some c → 49 ≤ c := fun c hc =>
        hhead c (by rw [head?_append, hc]; rfl)
      have hval := ih (fun c hc => hdig c (mem_append_left _ hc)) hs hhead'
      have hpos : 0 < digitsVal s := by
        rw [Nat.pos_iff_ne_zero]
        intro h0
        rw [h0] at hval
        exact absurd (hhead' 48 (by rw [← hval]; rfl)) (by decide)
      rw [decimal_of_ge (by omega), show (10 * digitsVal s + (b.toNat - 48)) / 10 =
        digitsVal s by omega,
        show (10 * digitsVal s + (b.toNat - 48)) % 10 = b.toNat - 48 by omega, hval, hb]

theorem ll2string_of_string2ll (h : string2ll s = some v) :
    ll2string v = s ∧ llongMin ≤ v ∧ v ≤ llongMax := by
  unfold string2ll at h
  split_ifs at h with h0
  · cases h
    exact ⟨h0.symm ▸ rfl, by decide, by decide⟩
  dsimp only at h
  obtain ⟨ds, hds⟩ : ∃ ds, ds = if (s.head? == some 45) = true then s.tail else s := ⟨_, rfl⟩
  rw [← hds] at h
  split_ifs at h with hcond hneg hrange hrange
  all_goals
    simp only [Bool.and_eq_true, all_eq_true, Option.any_eq_true, decide_eq_true_eq] at hcond
    obtain ⟨⟨b, hb, hlo, -⟩, hdig⟩ := hcond
    have hval : decimal (digitsVal ds) = ds :=
      decimal_digitsVal hdig (by rintro rfl; cases hb) fun c hc => by
        rw [hb] at hc
        cases hc
        exact hlo
    have hpos : digitsVal ds ≠ 0 := by
      intro h0
      rw [← hval, h0] at hb
      cases hb
      exact absurd hlo (by decide)
    cases h
    refine ⟨?_, hrange⟩
  · rw [if_pos hneg] at hds
    rw [ll2string, if_pos (by omega), Int.natAbs_neg, Int.natAbs_natCast, hval, hds]
    rcases s with _ | ⟨c, s⟩
    · cases hneg
    · simp only [head?_cons, beq_iff_eq, Option.some.injEq] at hneg
      rw [hneg, tail_cons]
  · rw [if_neg hneg] at hds
    rw [ll2string, if_neg (by omega), Int.natAbs_natCast, hval, hds]

theorem isspace_of_isdigit (h : isdigit b = true) : isspace b = false := by
  have h48 : (48 : UInt8).toNat = 48 := rfl
  have h13 : (13 : UInt8).toNat = 13 := rfl
  have h32 : (32 : UInt8).toNat = 32 := rfl
  simp only [isdigit, Bool.and_eq_true, decide_eq_true_eq, UInt8.le_iff_toNat_le] at h
  simp only [isspace, Bool.or_eq_false_iff, Bool.and_eq_false_iff, beq_eq_false_iff_ne, ne_eq,
    decide_eq_false_iff_not, UInt8.le_iff_toNat_le, ← UInt8.toNat_inj]
  omega

def numeral (s : Sds) : Option ℤ :=
  let neg := s.head? == some 45
  let ds := if s.head? == some 45 || s.head? == some 43 then s.tail else s
  if ds ≠ [] ∧ ds.all isdigit
    then some (if neg then -(digitsVal ds : ℤ) else digitsVal ds) else none

def InRange (n : ℤ) : Prop := llongMin ≤ n ∧ n ≤ llongMax

/-- A text that is seen as a whole. -/
def Whole (s : Sds) : Prop := s ≠ [] ∧ (0 : UInt8) ∉ s

theorem cstr_eq_self (h : (0 : UInt8) ∉ s) : cstr s = s := by
  rw [cstr, takeWhile_eq_self_iff]
  intro b hb
  simpa using fun h0 : b = 0 => h (h0 ▸ hb)

theorem strtoll_eq_iff (t : Sds) (n : ℤ) :
    strtoll t = (n, []) ↔ numeral t = some n ∨ t = [] ∧ n = 0 := by
  unfold strtoll numeral
  generalize hneg : (t.head? == some 45) = neg
  generalize hu : (if neg || t.head? == some 43 then t.tail else t) = u
  have hnil : t = [] → u = [] := by
    rintro rfl
    rw [← hu]
    split_ifs <;> rfl
  by_cases hds : u.takeWhile isdigit = []
  · have hnone : ¬(u ≠ [] ∧ u.all isdigit = true) := fun ⟨hne, hall⟩ => by
      rw [takeWhile_eq_self_iff.mpr (all_eq_true.mp hall)] at hds
      exact hne hds
    rw [if_pos hds, if_neg hnone]
    simp [eq_comm, and_comm]
  · have hne : u ≠ [] := fun h => hds (by rw [h]; rfl)
    have ht : t ≠ [] := fun h => hne (hnil h)
    rw [if_neg hds, Prod.mk.injEq, dropWhile_eq_nil_iff]
    simp only [ht, false_and, or_false]
    by_cases hall : u ≠ [] ∧ u.all isdigit = true
    · have hdigits := all_eq_true.mp hall.2
      rw [takeWhile_eq_self_iff.mpr hdigits, if_pos hall, Option.some.injEq]
      exact and_iff_left hdigits
    · rw [if_neg hall]
      simp only [reduceCtorEq, iff_false]
      exact fun h => hall ⟨hne, all_eq_true.mpr h.2⟩

theorem mem_numeral {n : ℤ} (h : numeral s = some n) (hb : b ∈ s) :
    b = 45 ∨ b = 43 ∨ isdigit b = true := by
  unfold numeral at h
  have hdigits : ∀ b ∈ (if s.head? == some 45 || s.head? == some 43 then s.tail else s),
      isdigit b = true := by
    by_contra hnot
    rw [if_neg (fun hall => hnot (all_eq_true.mp hall.2))] at h
    cases h
  split_ifs at hdigits with hsign
  · cases s with
    | nil => cases hb
    | cons a s =>
      rcases mem_cons.mp hb with rfl | hb
      · exact (Bool.or_eq_true_iff.mp hsign).imp (by simp) fun h => .inl (by simpa using h)
      · exact .inr (.inr (hdigits b hb))
  · exact .inr (.inr (hdigits b hb))

theorem ne_nil_of_numeral {n : ℤ} (h : numeral s = some n) : s ≠ [] := by
  rintro rfl
  cases h

theorem whole_of_numeral {n : ℤ} (h : numeral s = some n) : Whole s := by
  refine ⟨ne_nil_of_numeral h, fun h0 => ?_⟩
  rcases mem_numeral h h0 with h0 | h0 | h0 <;> exact absurd h0 (by decide)

theorem isspace_of_mem_numeral (h : b = 45 ∨ b = 43 ∨ isdigit b = true) :
    isspace b = false := by
  rcases h with rfl | rfl | h
  · rfl
  · rfl
  · exact isspace_of_isdigit h

theorem getLongLong_eq_some_iff (s : Sds) (n : ℤ) :
    getLongLong s = some n ↔ InRange n ∧ (numeral (cstr s) = some n ∨ cstr s = [] ∧ n = 0) := by
  rw [← strtoll_eq_iff, getLongLong]
  by_cases hspace : (s.head?.map isspace).getD false = true
  · rw [if_pos hspace]
    simp only [reduceCtorEq, false_iff]
    rintro ⟨-, hread⟩
    cases s with
    | nil => cases hspace
    | cons b s =>
      -- a space is not zero, so it is seen, and no numeral begins with it
      have hb : b ≠ 0 := by
        rintro rfl
        exact absurd (show isspace 0 = true from hspace) (by decide)
      have hcstr : cstr (b :: s) = b :: cstr s := takeWhile_cons_of_pos (by simpa using hb)
      rw [strtoll_eq_iff, hcstr] at hread
      rcases hread with hnum | ⟨hnil, -⟩
      · exact Bool.false_ne_true
          ((isspace_of_mem_numeral (mem_numeral hnum mem_cons_self)).symm.trans hspace)
      · cases hnil
  · obtain ⟨v, eptr⟩ := strtoll (cstr s)
    dsimp only [InRange]
    split_ifs with hbad
    · simp only [Prod.mk.injEq, false_iff]
      rintro ⟨hrange, rfl, rfl⟩
      rcases hbad with hbad | hbad | hbad
      · exact hbad rfl
      · omega
      · omega
    · obtain ⟨heptr, hlo, hhi⟩ : eptr = [] ∧ ¬v < llongMin ∧ ¬llongMax < v := by
        simpa using hbad
      subst heptr
      rw [Option.some.injEq, Prod.mk.injEq]
      constructor
      · rintro rfl
        exact ⟨⟨by omega, by omega⟩, rfl, rfl⟩
      · exact fun h => h.2.1

theorem getLongLong_mem {n : ℤ} (h : getLongLong s = some n) : InRange n :=
  ((getLongLong_eq_some_iff s n).mp h).1

theorem getLongLong_of_numeral {n : ℤ} (h : numeral s = some n) (hn : InRange n) :
    getLongLong s = some n := by
  refine (getLongLong_eq_some_iff s n).mpr ⟨hn, .inl ?_⟩
  rwa [cstr_eq_self (whole_of_numeral h).2]

theorem numeral_ll2string (v : ℤ) : numeral (ll2string v) = some v := by
  have hall : (decimal v.natAbs).all isdigit = true := all_eq_true.mpr (isdigit_decimal _)
  have hne := decimal_ne_nil v.natAbs
  rw [ll2string]
  split_ifs with hneg
  · have hv : -|v| = v := by rw [abs_of_neg hneg, neg_neg]
    simp [numeral, hall, hne, hv]
  · have hhead : ∀ b : UInt8, isdigit b = false → ((decimal v.natAbs).head? == some b) = false := by
      intro b hb
      rw [beq_eq_false_iff_ne]
      intro h
      rw [isdigit_decimal _ b (mem_of_mem_head? h)] at hb
      cases hb
    have hv : |v| = v := abs_of_nonneg (not_lt.mp hneg)
    simp [numeral, hall, hne, hhead 45 rfl, hhead 43 rfl, hv]

theorem getLongLong_ll2string (hv : InRange v) : getLongLong (ll2string v) = some v :=
  getLongLong_of_numeral (numeral_ll2string v) hv

theorem length_decimal_succ (h : 10 ≤ n) :
    (decimal n).length = (decimal (n / 10)).length + 1 := by
  rw [decimal_of_ge h, length_append, length_singleton]

theorem ten_le_of_pow {k : ℕ} (h : 10 ^ (k + 1) ≤ n) : 10 ≤ n ∧ 10 ^ k ≤ n / 10 := by
  have hk : 0 < 10 ^ k := Nat.pow_pos (by norm_num)
  rw [pow_succ] at h
  exact ⟨by omega, (Nat.le_div_iff_mul_le (by norm_num)).mpr h⟩

theorem length_decimal {k : ℕ} :
    ∀ {n : ℕ}, 10 ^ k ≤ n → n < 10 ^ (k + 1) → (decimal n).length = k + 1 := by
  induction k with
  | zero =>
    intro n _ h
    simp [decimal_of_lt (by simpa using h)]
  | succ k ih =>
    intro n hlo hhi
    obtain ⟨hten, hdiv⟩ := ten_le_of_pow hlo
    rw [length_decimal_succ hten, ih hdiv]
    rwa [Nat.div_lt_iff_lt_mul (by norm_num), ← pow_succ]

theorem length_decimal_add (k : ℕ) :
    ∀ {n : ℕ}, 10 ^ k ≤ n → (decimal n).length = k + (decimal (n / 10 ^ k)).length := by
  induction k with
  | zero => simp
  | succ k ih =>
    intro n h
    obtain ⟨hten, hdiv⟩ := ten_le_of_pow h
    rw [length_decimal_succ hten, ih hdiv, Nat.div_div_eq_div_mul, ← pow_succ']
    omega

theorem digits10Loop_eq {fuel : ℕ} :
    ∀ {v : ℕ}, v < fuel → digits10Loop fuel v = (decimal v).length := by
  induction fuel with
  | zero => exact fun h => absurd h (Nat.not_lt_zero _)
  | succ fuel ih =>
    intro v hv
    have hdig : ∀ k, 10 ^ k ≤ v → v < 10 ^ (k + 1) → k + 1 = (decimal v).length :=
      fun k hlo hhi => (length_decimal hlo hhi).symm
    unfold digits10Loop
    split_ifs
    · simp [decimal_of_lt (show v < 10 by assumption)]
    · exact hdig 1 (by omega) (by omega)
    · exact hdig 2 (by omega) (by omega)
    · exact hdig 3 (by omega) (by omega)
    · exact hdig 5 (by omega) (by omega)
    · exact hdig 4 (by omega) (by omega)
    · exact hdig 7 (by omega) (by omega)
    · exact hdig 6 (by omega) (by omega)
    · exact hdig 9 (by omega) (by omega)
    · exact hdig 8 (by omega) (by omega)
    · exact hdig 11 (by omega) (by omega)
    · exact hdig 10 (by omega) (by omega)
    · rw [length_decimal_add 12 (show 10 ^ 12 ≤ v by omega), ih (by omega)]
      norm_num

theorem digits10_eq (v : ℕ) : digits10 v = (decimal v).length := digits10Loop_eq v.lt_succ_self

theorem sdigits10_eq (v : ℤ) : sdigits10 v = (ll2string v).length := by
  unfold sdigits10 ll2string
  split_ifs <;> simp [digits10_eq]

theorem wrap_range (v : ℤ) : llongMin ≤ wrap v ∧ wrap v ≤ llongMax := by
  have hlo := Int.le_bmod (x := v) (m := 2 ^ 64) (by norm_num)
  have hhi := Int.bmod_lt (x := v) (m := 2 ^ 64) (by norm_num)
  unfold wrap llongMin llongMax
  norm_num at hlo hhi ⊢
  omega

theorem wrap_eq_self_iff : wrap v = v ↔ llongMin ≤ v ∧ v ≤ llongMax := by
  constructor
  · intro h
    rw [← h]
    exact wrap_range v
  · rintro ⟨hlo, hhi⟩
    unfold llongMin at hlo
    unfold llongMax at hhi
    exact Int.bmod_eq_of_le (by norm_num; omega) (by norm_num; omega)

end Vire
