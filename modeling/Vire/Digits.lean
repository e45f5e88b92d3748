import Vire.Decimal

/-!
# Integers and their texts

`ll2string` and `string2ll` as they are written: one puts two digits at a time into a buffer, from
the end on, the other adds up digits under guards against an overflow.  Each is the inverse of the
other (`canonical_integers`), so `Vire.ll2string` and `Vire.string2ll` are what they compute.
-/

namespace Vire.Digits

open List

def digits : Sds :=
  ascii ("0001020304050607080910111213141516171819" ++
    "2021222324252627282930313233343536373839" ++
    "4041424344454647484950515253545556575859" ++
    "6061626364656667686970717273747576777879" ++
    "8081828384858687888990919293949596979899").toList

/-- Two digits, of which the second one goes to `next`. -/
def putPair (dst : Sds) (next v : ℕ) : Sds :=
  (dst.set next (digits.getD (v * 2 + 1) 0)).set (next - 1) (digits.getD (v * 2) 0)

def putDigits : ℕ → Sds → ℕ → ℕ → Sds
  | 0, dst, _, _ => dst
  | fuel + 1, dst, next, value =>
    if 100 ≤ value then putDigits fuel (putPair dst next (value % 100)) (next - 2) (value / 100)
    else if value < 10 then dst.set next (48 + value).toUInt8
    else putPair dst next value

/-- `ll2string` on a buffer of `dstlen` bytes: the length that is returned, and the buffer. -/
def ll2string (dst : Sds) (svalue : ℤ) : ℕ × Sds :=
  let value := svalue.natAbs
  let length := digits10 value + if svalue < 0 then 1 else 0
  if dst.length ≤ length then (0, dst)
  else
    let dst := putDigits length (dst.set length 0) (length - 1) value
    (length, if svalue < 0 then dst.set 0 45 else dst)

def ullongMax : ℕ := 2 ^ 64 - 1

/-- The loop of `string2ll`: the number and the bytes that were not used, or an overflow. -/
def string2llLoop : Sds → ℕ → Option (ℕ × Sds)
  | [], v => some (v, [])
  | b :: p, v =>
    if 48 ≤ b ∧ b ≤ 57 then
      if ullongMax / 10 < v then none
      else if ullongMax - (b.toNat - 48) < v * 10 then none
      else string2llLoop p (v * 10 + (b.toNat - 48))
    else some (v, b :: p)

def string2llFrom (negative : Bool) : Sds → Option ℤ
  | [] => none
  | b :: p =>
    if 49 ≤ b ∧ b ≤ 57 then
      match string2llLoop p (b.toNat - 48) with
      | none => none
      | some (v, rest) =>
        if rest ≠ [] then none
        else if negative then if 2 ^ 63 < v then none else some (-(v : ℤ))
        else if 2 ^ 63 - 1 < v then none else some (v : ℤ)
    else none

/-- `string2ll`.  A single zero has been taken before the second test for one. -/
def string2ll (s : Sds) : Option ℤ :=
  if s = [48] then some 0
  else if s.head? = some 45 then string2llFrom true s.tail else string2llFrom false s

theorem getD_digits {v : ℕ} (h : v < 100) :
    digits.getD (v * 2) 0 = (48 + v / 10).toUInt8 ∧
      digits.getD (v * 2 + 1) 0 = (48 + v % 10).toUInt8 := by
  revert v
  decide +kernel

theorem putPair_eq {l r : Sds} {a b : UInt8} {v : ℕ} (h : v < 100) :
    putPair (l ++ a :: b :: r) (l.length + 1) v =
      l ++ (48 + v / 10).toUInt8 :: (48 + v % 10).toUInt8 :: r := by
  obtain ⟨hlo, hhi⟩ := getD_digits h
  rw [putPair, hlo, hhi]
  simp

theorem decimal_pair {v : ℕ} (h : 10 ≤ v) :
    decimal v = (if v < 100 then [] else decimal (v / 100)) ++
      [(48 + v % 100 / 10).toUInt8, (48 + v % 100 % 10).toUInt8] := by
  have hlast : v % 100 % 10 = v % 10 := by omega
  have hmid : v / 10 % 10 = v % 100 / 10 := by omega
  rw [decimal_of_ge h, hlast]
  split_ifs with hv
  · rw [decimal_of_lt (by omega), ← hmid, Nat.mod_eq_of_lt (show v / 10 < 10 by omega)]
    rfl
  · rw [decimal_of_ge (by omega), Nat.div_div_eq_div_mul, hmid, append_assoc]
    rfl

theorem putDigits_eq (pre : Sds) {fuel : ℕ} : ∀ (post : Sds) {mid : Sds} {v : ℕ},
    mid.length = (decimal v).length → mid.length ≤ fuel →
      putDigits fuel (pre ++ mid ++ post) (pre.length + mid.length - 1) v =
        pre ++ decimal v ++ post := by
  induction fuel with
  | zero =>
    intro post mid v hlen hf
    exact absurd (length_eq_zero_iff.mp (hlen ▸ Nat.le_zero.mp hf)) (decimal_ne_nil v)
  | succ fuel ih =>
    intro post mid v hlen hf
    by_cases hv : v < 10
    · rw [decimal_of_lt hv] at hlen ⊢
      obtain ⟨a, rfl⟩ := length_eq_one_iff.mp hlen
      simp [putDigits, hv, show ¬ 100 ≤ v by omega]
    rw [decimal_pair (by omega), length_append] at hlen
    rw [decimal_pair (by omega)]
    -- the last two of the bytes are written first
    obtain ⟨mid, a, b, rfl⟩ : ∃ l a b, mid = l ++ [a, b] := by
      have hlen' : (mid.drop (mid.length - 2)).length = 2 := by
        rw [length_drop, hlen]
        exact Nat.add_sub_cancel_left ..
      obtain ⟨a, b, hab⟩ := length_eq_two.mp hlen'
      exact ⟨mid.take (mid.length - 2), a, b, by rw [← hab, take_append_drop]⟩
    have hnext : pre.length + (mid ++ [a, b]).length - 1 = (pre ++ mid).length + 1 := by simp; omega
    have hsplit : pre ++ (mid ++ [a, b]) ++ post = pre ++ mid ++ a :: b :: post := by simp
    rw [length_append] at hlen hf
    rw [hnext, hsplit, putDigits]
    by_cases hlt : v < 100
    · rw [if_pos hlt] at hlen ⊢
      rw [if_neg (by omega), if_neg hv, putPair_eq hlt, Nat.mod_eq_of_lt hlt,
        length_eq_zero_iff.mp (Nat.add_right_cancel hlen)]
      simp
    · rw [if_neg hlt] at hlen ⊢
      have hback : (pre ++ mid).length + 1 - 2 = pre.length + mid.length - 1 := by simp
      rw [if_pos (by omega), putPair_eq (Nat.mod_lt _ (by norm_num)), hback,
        ih _ (Nat.add_right_cancel hlen) (Nat.le_of_succ_le (Nat.le_of_succ_le_succ hf))]
      simp

theorem ll2string_eq (dst : Sds) (v : ℤ) : ll2string dst v =
    if (Vire.ll2string v).length < dst.length then
      ((Vire.ll2string v).length,
        Vire.ll2string v ++ 0 :: dst.drop ((Vire.ll2string v).length + 1))
    else (0, dst) := by
  have hlen : digits10 v.natAbs + (if v < 0 then 1 else 0) = (Vire.ll2string v).length := by
    rw [← sdigits10_eq, sdigits10]
    split_ifs <;> rfl
  rw [ll2string]
  simp only [hlen]
  by_cases hroom : dst.length ≤ (Vire.ll2string v).length
  · rw [if_pos hroom, if_neg (not_lt.mpr hroom)]
  rw [if_neg hroom, if_pos (not_le.mp hroom)]
  obtain ⟨mid, z, rest, hmid, rfl⟩ :
      ∃ mid z rest, mid.length = (Vire.ll2string v).length ∧ dst = mid ++ z :: rest := by
    have hcons := drop_eq_getElem_cons (not_le.mp hroom)
    exact ⟨_, _, _, length_take_of_le (not_le.mp hroom).le,
      (take_append_drop _ dst).symm.trans (congrArg _ hcons)⟩
  have hzero : (mid ++ z :: rest).set mid.length 0 = mid ++ 0 :: rest := by simp
  have hrest : (mid ++ z :: rest).drop (mid.length + 1) = rest := by simp
  rw [← hmid, hzero, hrest]
  congr 1
  unfold Vire.ll2string at hmid ⊢
  split_ifs at hmid ⊢ with hneg
  · -- the sign takes the place of the first byte
    obtain ⟨a, mid, rfl⟩ := exists_cons_of_length_eq_add_one hmid
    have hput := putDigits_eq [a] (0 :: rest) (Nat.succ_inj.mp hmid)
      (Nat.le_succ mid.length)
    rw [singleton_append, length_singleton, Nat.add_comm 1] at hput
    rw [length_cons, hput]
    rfl
  · have hput := putDigits_eq [] (0 :: rest) hmid le_rfl
    rw [nil_append, length_nil, Nat.zero_add] at hput
    rw [hput, nil_append]

theorem le_foldl (p : Sds) : ∀ v, v ≤ p.foldl (fun v b => 10 * v + (b.toNat - 48)) v := by
  induction p with
  | nil => exact fun v => le_rfl
  | cons b p ih =>
    intro v
    have := ih (10 * v + (b.toNat - 48))
    rw [foldl_cons]
    omega

theorem string2llLoop_iff {p : Sds} {w : ℕ} : ∀ {v}, v ≤ ullongMax →
    (string2llLoop p v = some (w, []) ↔ (p.all isdigit = true ∧
      p.foldl (fun v b => 10 * v + (b.toNat - 48)) v = w ∧ w ≤ ullongMax)) := by
  induction p with
  | nil =>
    intro v hv
    simp only [string2llLoop, all_nil, foldl_nil]
    grind
  | cons b p ih =>
    intro v hv
    rw [string2llLoop, all_cons, foldl_cons, Bool.and_eq_true]
    by_cases hb : 48 ≤ b ∧ b ≤ 57
    · have hdig : isdigit b = true := by simpa [isdigit] using hb
      have hle := le_foldl p (10 * v + (b.toNat - 48))
      have hmax : ullongMax = 18446744073709551615 := rfl
      have h57 : b.toNat ≤ 57 := UInt8.le_iff_toNat_le.mp hb.2
      rw [if_pos hb]
      split_ifs with hten hsum
      · grind
      · grind
      · rw [Nat.mul_comm, ih (by omega)]
        simp [hdig]
    · have hdig : isdigit b = false := by simpa [isdigit] using hb
      simp [hb, hdig]

theorem string2llFrom_eq (negative : Bool) (s : Sds) : string2llFrom negative s =
    if s.head?.any (fun b => 49 ≤ b && b ≤ 57) && s.all isdigit then
      let v : ℤ := if negative then -(digitsVal s : ℤ) else digitsVal s
      if llongMin ≤ v ∧ v ≤ llongMax then some v else none
    else none := by
  rcases s with _ | ⟨b, p⟩
  · rfl
  rw [string2llFrom]
  by_cases hb : 49 ≤ b ∧ b ≤ 57
  · have h57 : b.toNat ≤ 57 := UInt8.le_iff_toNat_le.mp hb.2
    have hdig : isdigit b = true := by
      have h49 : 49 ≤ b.toNat := UInt8.le_iff_toNat_le.mp hb.1
      simp only [isdigit, Bool.and_eq_true, decide_eq_true_eq, UInt8.le_iff_toNat_le]
      exact ⟨Nat.le_of_succ_le h49, h57⟩
    have hval : p.foldl (fun v b => 10 * v + (b.toNat - 48)) (b.toNat - 48) =
        digitsVal (b :: p) := by
      simp [digitsVal]
    have hloop := fun w => string2llLoop_iff (p := p) (w := w) (v := b.toNat - 48)
      (by unfold ullongMax; omega)
    have hmax : ullongMax = 18446744073709551615 := rfl
    rw [hval] at hloop
    simp only [head?_cons, Option.any_some, all_cons, hdig, hb.1, hb.2, decide_true,
      Bool.true_and, if_true, and_self, llongMin, llongMax]
    by_cases hall : p.all isdigit = true ∧ digitsVal (b :: p) ≤ ullongMax
    · rw [(hloop _).mpr ⟨hall.1, rfl, hall.2⟩, if_pos hall.1]
      cases negative
      · grind
      · grind
    · have hnone : ∀ w, string2llLoop p (b.toNat - 48) ≠ some (w, []) := by
        intro w hw
        obtain ⟨hp, rfl, hle⟩ := (hloop w).mp hw
        exact hall ⟨hp, hle⟩
      grind
  · rw [if_neg hb, if_neg]
    simp only [head?_cons, Option.any_some, Bool.and_eq_true, decide_eq_true_eq]
    exact fun h => hb h.1

theorem string2ll_eq (s : Sds) : string2ll s = Vire.string2ll s := by
  rw [string2ll, Vire.string2ll]
  split_ifs with h0 hneg
  · rfl
  · simp only [string2llFrom_eq, hneg, beq_self_eq_true, if_true]
  · have hfalse : (s.head? == some 45) = false := by simpa using hneg
    simp only [string2llFrom_eq, hfalse, Bool.false_eq_true, if_false]

/-- For every integer of 64 bits: `string2ll` reads it from its text and from no other bytes,
`ll2string` puts this text and a zero byte into every buffer that has room for both, and returns its
length, which is what `sdigits10` counts. -/
theorem canonical_integers {v : ℤ} (hmin : llongMin ≤ v) (hmax : v ≤ llongMax) :
    (∀ s, string2ll s = some v ↔ s = Vire.ll2string v) ∧
    (∀ dst, ll2string dst v =
      if (Vire.ll2string v).length < dst.length then
        ((Vire.ll2string v).length,
          Vire.ll2string v ++ 0 :: dst.drop ((Vire.ll2string v).length + 1))
      else (0, dst)) ∧
    sdigits10 v = (Vire.ll2string v).length := by
  refine ⟨fun s => ?_, fun dst => ll2string_eq dst v, sdigits10_eq v⟩
  rw [string2ll_eq]
  constructor
  · exact fun h => (ll2string_of_string2ll h).1.symm
  · rintro rfl
    exact string2ll_ll2string hmin hmax

theorem canonical_integers_min :
    (∀ s, string2ll s = some llongMin ↔ s = ascii "-9223372036854775808".toList) ∧
      ll2string (replicate 21 1) llongMin =
        (20, ascii "-9223372036854775808".toList ++ [0]) := by
  obtain ⟨hread, hprint, -⟩ := canonical_integers (v := llongMin) le_rfl (by decide)
  have htext : Vire.ll2string llongMin = ascii "-9223372036854775808".toList := by decide +kernel
  refine ⟨fun s => htext ▸ hread s, ?_⟩
  rw [hprint, htext]
  decide

end Vire.Digits
