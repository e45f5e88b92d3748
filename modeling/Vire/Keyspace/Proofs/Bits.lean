import Mathlib.Algebra.Order.BigOperators.Group.List
import Mathlib.Data.List.GetD
import Mathlib.Data.Nat.Bitwise
import Mathlib.Data.Nat.Count
import Mathlib.Data.Set.Card
import Vire.Keyspace.Type.Bits
import Vire.Logic.Lanes

/-!
# A byte string is an array of bits

Bit 0 is the most significant bit of byte 0, and behind the last byte all bits are zero.  Both loops
that look at several bytes at once give what one finds bit by bit.
-/

namespace Vire

open Nat (ofDigits)
open List Logic

def bitAt (s : Sds) (i : ℕ) : Bool := (s.getD (i / 8) 0).toNat.testBit (7 - i % 8)

noncomputable def ones (s : Sds) : ℕ := {i | bitAt s i = true}.ncard

variable {i : ℕ} {s : Sds}

theorem bitAt_of_ge (h : 8 * s.length ≤ i) : bitAt s i = false := by
  rw [bitAt, getD_eq_default _ _ (by omega)]
  exact Nat.zero_testBit _

theorem bitAt_cons_of_lt (b : UInt8) (s : Sds) (hi : i < 8) :
    bitAt (b :: s) i = b.toNat.testBit (7 - i) := by
  rw [bitAt, Nat.div_eq_of_lt hi, Nat.mod_eq_of_lt hi]
  rfl

theorem bitAt_cons_add (b : UInt8) (s : Sds) (i : ℕ) : bitAt (b :: s) (8 + i) = bitAt s i := by
  rw [bitAt, bitAt, Nat.add_div_left i (by norm_num), Nat.add_mod_left]
  rfl

theorem ones_eq_count (s : Sds) :
    ones s = Nat.count (fun i => bitAt s i = true) (8 * s.length) := by
  rw [ones, Nat.count_eq_card_filter_range, ← Set.ncard_coe_finset]
  congr 1
  ext i
  simp only [Set.mem_ofPred_eq, Finset.coe_filter, Finset.mem_range]
  refine ⟨fun h => ⟨?_, h⟩, And.right⟩
  by_contra hi
  rw [bitAt_of_ge (by omega)] at h
  exact Bool.noConfusion h

theorem count_eq_of_iff {p q : ℕ → Prop} [DecidablePred p] [DecidablePred q] {n : ℕ}
    (h : ∀ i < n, p i ↔ q i) : Nat.count p n = Nat.count q n :=
  Nat.le_antisymm (Nat.count_mono_left fun i hi => (h i hi).mp)
    (Nat.count_mono_left fun i hi => (h i hi).mpr)

theorem bitsInByte_eq (b : UInt8) :
    bitsInByte b = Nat.count (fun i => b.toNat.testBit (7 - i) = true) 8 := by
  have h : ∀ n < 256, bitsinbyte.getD n 0 = Nat.count (fun i => n.testBit (7 - i) = true) 8 := by
    decide +kernel
  exact h _ b.toNat_lt

theorem ones_eq_sum (s : Sds) : ones s = (s.map bitsInByte).sum := by
  rw [ones_eq_count]
  induction s with
  | nil => rfl
  | cons b s ih =>
    have hbyte : Nat.count (fun i => bitAt (b :: s) i = true) 8 = bitsInByte b := by
      rw [bitsInByte_eq]
      exact count_eq_of_iff fun i hi => by rw [bitAt_cons_of_lt b s hi]
    rw [length_cons, Nat.mul_succ, Nat.add_comm, Nat.count_add, map_cons, sum_cons, hbyte,
      ← ih]
    simp only [bitAt_cons_add]

theorem ones_nil : ones [] = 0 := by rw [ones_eq_sum]; rfl

theorem popcountUnaligned_sum (p : ℕ) (s : Sds) :
    (popcountUnaligned p s).1 + ((popcountUnaligned p s).2.map bitsInByte).sum =
      (s.map bitsInByte).sum := by
  induction s generalizing p with
  | nil => rfl
  | cons b s ih =>
    rw [popcountUnaligned]
    split_ifs
    · exact Nat.zero_add _
    · rw [map_cons, sum_cons, ← ih (p + 1), Nat.add_assoc]

/-- What the three steps of `popcountWord` make of one byte. -/
def byteHalves (b : ℕ) : ℕ := b - ((b >>> 1) &&& 0x55)

def byteQuarters (b : ℕ) : ℕ := (byteHalves b &&& 0x33) + ((byteHalves b >>> 2) &&& 0x33)

def byteOnes (b : ℕ) : ℕ := (byteQuarters b + byteQuarters b >>> 4) &&& 0xf

theorem byte_steps : ∀ b < 256, (b >>> 1) &&& 0x55 ≤ b ∧ byteHalves b < 256 ∧ byteQuarters b < 256 ∧
    (byteQuarters b % 16 ≤ 7 ∧ byteQuarters b / 16 ≤ 7) ∧ byteOnes b = bitsinbyte.getD b 0 ∧
      byteOnes b ≤ 8 := by
  decide +kernel

section

variable {bs : List ℕ} {x y : UInt32} {f g : ℕ → ℕ} (hlen : bs.length = 4) (hbs : ∀ b ∈ bs, b < 256)

include hlen hbs

theorem ofDigits_four_lt (hf : ∀ b < 256, f b < 256) : ofDigits 256 (bs.map f) < 2 ^ 32 := by
  have h := Nat.ofDigits_lt_base_pow_length (b := 256) (l := bs.map f) (by norm_num)
    (forall_mem_map.mpr fun b hb => hf b (hbs b hb))
  rw [length_map, hlen] at h
  exact h

theorem toNat_shiftRight_and {k mask : UInt32} {j m : ℕ} (hf : ∀ b < 256, f b < 256)
    (hx : x.toNat = ofDigits 256 (bs.map f)) (hk : 2 ^ (k.toNat % 32) * 2 ^ j = 256)
    (hm : m < 2 ^ j) (hmask : mask.toNat = everyLane m 4) :
    ((x >>> k) &&& mask).toNat = ofDigits 256 (bs.map fun b => (f b >>> (k.toNat % 32)) &&& m) := by
  have h :=
    shiftRight_and_everyLane hk hm (bs.map f) (forall_mem_map.mpr fun b hb => hf b (hbs b hb))
  rw [length_map, hlen, map_map] at h
  rw [UInt32.toNat_and, UInt32.toNat_shiftRight, hx, hmask]
  exact h

theorem toNat_add_lanes (hsum : ∀ b < 256, f b + g b < 256) (hx : x.toNat = ofDigits 256 (bs.map f))
    (hy : y.toNat = ofDigits 256 (bs.map g)) :
    (x + y).toNat = ofDigits 256 (bs.map fun b => f b + g b) := by
  rw [UInt32.toNat_add, hx, hy, ofDigits_add, Nat.mod_eq_of_lt (ofDigits_four_lt hlen hbs hsum)]

theorem toNat_popcountWord (hx : x.toNat = ofDigits 256 bs) :
    (popcountWord x).toNat = ofDigits 256 (bs.map byteOnes) := by
  have hx' : x.toNat = ofDigits 256 (bs.map fun b => b) := by rw [hx, map_id']
  have hodd := toNat_shiftRight_and (k := 1) (j := 7) (m := 0x55) hlen hbs (fun _ h => h) hx' rfl
    (by norm_num) (show (0x55555555 : UInt32).toNat = _ from rfl)
  have hsub := ofDigits_sub (f := fun b => b) fun b hb => (byte_steps b (hbs b hb)).1
  have hhalves : (x - ((x >>> 1) &&& (0x55555555 : UInt32))).toNat =
      ofDigits 256 (bs.map byteHalves) := by
    rw [UInt32.toNat_sub_of_le, hodd, hx']
    · exact hsub.2
    · rw [UInt32.le_iff_toNat_le, hodd, hx']
      exact hsub.1
  have hlow : (x - ((x >>> 1) &&& (0x55555555 : UInt32)) &&& (0x33333333 : UInt32)).toNat =
      ofDigits 256 (bs.map fun b => byteHalves b &&& 0x33) := by
    have :=
      toNat_shiftRight_and (k := 0) (j := 8) (m := 0x33) hlen hbs
        (fun b hb => (byte_steps b hb).2.1)
      hhalves rfl (by norm_num) (show (0x33333333 : UInt32).toNat = _ from rfl)
    simpa using this
  have hhigh := toNat_shiftRight_and (k := 2) (j := 6) (m := 0x33) hlen hbs
    (fun b hb => (byte_steps b hb).2.1) hhalves rfl (by norm_num)
    (show (0x33333333 : UInt32).toNat = _ from rfl)
  have hquarters := toNat_add_lanes hlen hbs (fun b hb => (byte_steps b hb).2.2.1) hlow hhigh
  have hfold := add_shiftRight_and_everyLane (bs.map byteQuarters)
    (forall_mem_map.mpr fun b hb => (byte_steps b (hbs b hb)).2.2.2.1)
  have hle : ofDigits 256 (bs.map byteQuarters) ≤ 0x77777777 := by
    have hlanes : ∀ b ∈ bs, byteQuarters b ≤ 0x77 := fun b hb => by
      have := (byte_steps b (hbs b hb)).2.2.2.1
      omega
    have h := (ofDigits_sub hlanes).1
    rwa [map_const', hlen] at h
  have hshift : ofDigits 256 (bs.map byteQuarters) >>> 4 ≤ 0x7777777 := by
    omega
  rw [length_map, hlen, map_map] at hfold
  rw [popcountWord, UInt32.toNat_and, UInt32.toNat_add, UInt32.toNat_shiftRight, hquarters]
  change (ofDigits 256 (bs.map byteQuarters) + ofDigits 256 (bs.map byteQuarters) >>> 4) % 2 ^
    32 &&& everyLane 15 4 = _
  rw [Nat.mod_eq_of_lt (by omega), hfold]
  rfl

end

/-- Four lanes with numbers up to `k`, `n` in all. -/
def FourLanes (x : UInt32) (n k : ℕ) : Prop :=
  ∃ a b c d, x.toNat = a + 256 * b + 256 ^ 2 * c + 256 ^ 3 * d ∧ (a ≤ k ∧ b ≤ k ∧ c ≤ k ∧ d ≤ k) ∧
    a + b + c + d = n

theorem FourLanes.add {x y : UInt32} {n m k l : ℕ} (hx : FourLanes x n k) (hy : FourLanes y m l)
    (h : k + l < 256) : FourLanes (x + y) (n + m) (k + l) := by
  obtain ⟨a, b, c, d, hx, hle, hn⟩ := hx
  obtain ⟨a', b', c', d', hy, hle', hm⟩ := hy
  refine ⟨a + a', b + b', c + c', d + d', ?_, by omega, by omega⟩
  rw [UInt32.toNat_add, hx, hy]
  omega

theorem FourLanes.mul_shiftRight {x : UInt32} {n k : ℕ} (hx : FourLanes x n k) (h : 4 * k < 256) :
    ((x * 0x01010101) >>> 24).toNat = n := by
  obtain ⟨a, b, c, d, hx, hle, hn⟩ := hx
  have h24 : (24 : UInt32).toNat % 32 = 24 := rfl
  have hmul : (0x01010101 : UInt32).toNat = 0x01010101 := rfl
  have hprod : (a + 256 * b + 256 ^ 2 * c + 256 ^ 3 * d) * 0x01010101 =
      (0x010101 * a + 0x010100 * b + 0x010000 * c + 2 ^ 24 * n) +
        2 ^ 32 * (b + 257 * c + 65793 * d) := by omega
  rw [UInt32.toNat_shiftRight, UInt32.toNat_mul, h24, hmul, hx, Nat.shiftRight_eq_div_pow, hprod,
    Nat.add_mul_mod_self_left, Nat.mod_eq_of_lt (by omega), Nat.add_mul_div_left _ _ (by norm_num),
    Nat.div_eq_of_lt (by omega), Nat.zero_add]

theorem loadWord_eq (s : Sds) : loadWord s = ofDigits 256 (s.map UInt8.toNat) := by
  induction s with
  | nil => rfl
  | cons b s ih => rw [loadWord, ih, map_cons, Nat.ofDigits_cons]

theorem auxWord_lanes (h : 4 * i + 4 ≤ s.length) :
    FourLanes (auxWord s i) (((s.drop (4 * i)).take 4).map bitsInByte).sum 8 := by
  obtain ⟨b0, b1, b2, b3, hs⟩ : ∃ b0 b1 b2 b3, (s.drop (4 * i)).take 4 = [b0, b1, b2, b3] := by
    have hlen : ((s.drop (4 * i)).take 4).length = 4 := by
      rw [length_take, length_drop]
      omega
    exact length_eq_four.mp hlen
  have hbs : ∀ b ∈ [b0, b1, b2, b3].map UInt8.toNat, b < 256 :=
    forall_mem_map.mpr fun b _ => b.toNat_lt
  have hword : (loadWord [b0, b1, b2, b3]).toUInt32.toNat =
      ofDigits 256 ([b0, b1, b2, b3].map UInt8.toNat) := by
    have hlt := Nat.ofDigits_lt_base_pow_length (b := 256) (by norm_num) hbs
    have hpow : 256 ^ ([b0, b1, b2, b3].map UInt8.toNat).length = 2 ^ 32 := by norm_num
    rw [Nat.toUInt32_eq, UInt32.toNat_ofNat', loadWord_eq, Nat.mod_eq_of_lt (hpow ▸ hlt)]
  have hlanes := toNat_popcountWord rfl hbs hword
  have hone : ∀ b : UInt8, byteOnes b.toNat = bitsInByte b ∧ byteOnes b.toNat ≤ 8 := fun b =>
    (byte_steps b.toNat b.toNat_lt).2.2.2.2
  refine ⟨byteOnes b0.toNat, byteOnes b1.toNat, byteOnes b2.toNat, byteOnes b3.toNat, ?_,
    ⟨(hone _).2, (hone _).2, (hone _).2, (hone _).2⟩, ?_⟩
  · rw [auxWord, hs, hlanes]
    simp only [map_cons, map_nil, Nat.ofDigits_cons, Nat.ofDigits_nil]
    ring
  · rw [hs, (hone _).1, (hone _).1, (hone _).1, (hone _).1]
    simp only [map_cons, map_nil, sum_cons, sum_nil]
    ring

theorem sum_take_add (f : UInt8 → ℕ) (s : Sds) (m n : ℕ) :
    ((s.take (m + n)).map f).sum = ((s.take m).map f).sum + (((s.drop m).take n).map f).sum := by
  rw [take_add, map_append, sum_append]

theorem popcount28_eq (h : 28 ≤ s.length) : popcount28 s = ((s.take 28).map bitsInByte).sum := by
  have hword : ∀ i < 7, FourLanes (auxWord s i) (((s.drop (4 * i)).take 4).map bitsInByte).sum 8 :=
    fun i hi => auxWord_lanes (by omega)
  have hsum := ((((((hword 0 (by norm_num)).add (hword 1 (by norm_num)) (by norm_num)).add
    (hword 2 (by norm_num)) (by norm_num)).add (hword 3 (by norm_num)) (by norm_num)).add
    (hword 4 (by norm_num)) (by norm_num)).add (hword 5 (by norm_num)) (by norm_num)).add
    (hword 6 (by norm_num)) (by norm_num)
  rw [popcount28, hsum.mul_shiftRight (by norm_num), sum_take_add _ s 24 4, sum_take_add _ s 20 4,
    sum_take_add _ s 16 4, sum_take_add _ s 12 4, sum_take_add _ s 8 4, sum_take_add _ s 4 4]
  rfl

theorem popcountBlocks_sum (fuel : ℕ) (s : Sds) :
    (popcountBlocks fuel s).1 + ((popcountBlocks fuel s).2.map bitsInByte).sum =
      (s.map bitsInByte).sum := by
  induction fuel generalizing s with
  | zero => exact Nat.zero_add _
  | succ fuel ih =>
    rw [popcountBlocks]
    split_ifs with h
    · have hsplit : (s.map bitsInByte).sum =
          ((s.take 28).map bitsInByte).sum + ((s.drop 28).map bitsInByte).sum := by
        rw [← sum_append, ← map_append, take_append_drop]
      rw [hsplit, ← popcount28_eq h, ← ih (s.drop 28), Nat.add_assoc]
    · exact Nat.zero_add _

theorem redisPopcount_eq (p : ℕ) (s : Sds) : redisPopcount p s = ones s := by
  rw [ones_eq_sum, ← popcountUnaligned_sum p s, redisPopcount,
    ← popcountBlocks_sum _ (popcountUnaligned p s).2, Nat.add_assoc]

theorem bitAt_append_add (s t : Sds) (i : ℕ) : bitAt (s ++ t) (8 * s.length + i) = bitAt t i := by
  have hdiv : (8 * s.length + i) / 8 = s.length + i / 8 := by omega
  have hmod : (8 * s.length + i) % 8 = i % 8 := by omega
  rw [bitAt, bitAt, hdiv, hmod, getD_append_right _ _ _ _ (Nat.le_add_right _ _),
    Nat.add_sub_cancel_left]

theorem bitAt_append_of_lt (s t : Sds) (hi : i < 8 * s.length) : bitAt (s ++ t) i = bitAt s i := by
  rw [bitAt, bitAt, getD_append _ _ _ _ (by omega)]

theorem testBit_skipByte (bit : Bool) (hi : i < 8) : (skipByte bit).toNat.testBit i = !bit := by
  cases bit <;> revert i <;> decide

theorem bitAt_skip (bit : Bool) {n i : ℕ} (t : Sds) (hi : i < 8 * n) :
    bitAt (replicate n (skipByte bit) ++ t) i = !bit := by
  rw [bitAt_append_of_lt _ _ (by rwa [length_replicate]), bitAt, getD_replicate _ (by omega)]
  exact testBit_skipByte bit (by omega)

theorem bitposUnaligned_eq (skipval : UInt8) (c : ℕ) (s : Sds) :
    ∃ n, s = replicate n skipval ++ (bitposUnaligned skipval c s).2 ∧
      (bitposUnaligned skipval c s).1 = 8 * n := by
  induction s generalizing c with
  | nil => exact ⟨0, rfl, rfl⟩
  | cons b s ih =>
    rw [bitposUnaligned]
    split_ifs with h
    · exact ⟨0, rfl, rfl⟩
    · obtain ⟨n, hs, hpos⟩ := ih (c + 1)
      obtain rfl : b = skipval := not_not.mp (not_or.mp h).2
      refine ⟨n + 1, ?_, by dsimp only; omega⟩
      rw [replicate_succ, cons_append, ← hs]

theorem loadWord_lt (s : Sds) : loadWord s < 256 ^ s.length := by
  rw [loadWord_eq, ← length_map UInt8.toNat]
  exact Nat.ofDigits_lt_base_pow_length (by norm_num)
    (forall_mem_map.mpr fun b _ => b.toNat_lt)

theorem loadWord_inj {s t : Sds} (hlen : s.length = t.length) (h : loadWord s = loadWord t) :
    s = t := by
  induction s generalizing t with
  | nil => exact (length_eq_zero_iff.mp hlen.symm).symm
  | cons b s ih =>
    cases t with
    | nil => cases hlen
    | cons b' t =>
      have hb := b.toNat_lt
      have hb' := b'.toNat_lt
      rw [loadWord, loadWord] at h
      rw [UInt8.toNat_inj.mp (by omega : b.toNat = b'.toNat), ih (Nat.succ.inj hlen) (by omega)]

theorem toUInt64_loadWord_eq (hlen : s.length = 8) (bit : Bool) :
    (loadWord s).toUInt64 = skipWord bit ↔
      s = replicate 8 (skipByte bit) := by
  have hskip : skipWord bit =
      (loadWord (replicate 8 (skipByte bit))).toUInt64 := by cases bit <;> rfl
  have hlt := loadWord_lt s
  have hlt' := loadWord_lt (replicate 8 (skipByte bit))
  rw [hlen, show 256 ^ 8 = 2 ^ 64 by norm_num] at hlt
  rw [length_replicate, show 256 ^ 8 = 2 ^ 64 by norm_num] at hlt'
  constructor
  · intro h
    refine loadWord_inj (by rw [hlen, length_replicate]) ?_
    have hnat := congrArg UInt64.toNat (h.trans hskip)
    rwa [Nat.toUInt64_eq, Nat.toUInt64_eq, UInt64.toNat_ofNat', UInt64.toNat_ofNat',
      Nat.mod_eq_of_lt hlt, Nat.mod_eq_of_lt hlt'] at hnat
  · rintro rfl
    exact hskip.symm

theorem bitposWords_eq (bit : Bool) {fuel : ℕ} (hfuel : s.length ≤ fuel) :
    ∃ n t, s = replicate n (skipByte bit) ++ t ∧
      bitposWords (skipWord bit) fuel s = (8 * n, t) ∧
      (8 ≤ t.length → t.take 8 ≠ replicate 8 (skipByte bit)) := by
  induction fuel generalizing s with
  | zero =>
    rw [Nat.le_zero, length_eq_zero_iff] at hfuel
    subst hfuel
    exact ⟨0, [], rfl, rfl, fun h => absurd h (by norm_num)⟩
  | succ fuel ih =>
    rw [bitposWords]
    split_ifs with h
    · have hlen : (s.take 8).length = 8 := by rw [length_take, Nat.min_eq_left h.1]
      obtain ⟨n, t, hs, hloop, hstop⟩ := ih (s := s.drop 8) (by rw [length_drop]; omega)
      refine ⟨8 + n, t, ?_, ?_, hstop⟩
      · rw [← replicate_append_replicate, append_assoc, ← hs,
          ← (toUInt64_loadWord_eq hlen bit).mp h.2, take_append_drop]
      · rw [hloop]
        exact Prod.ext (by dsimp only; omega) rfl
    · refine ⟨0, s, rfl, rfl, fun h8 => ?_⟩
      have hlen : (s.take 8).length = 8 := by rw [length_take, Nat.min_eq_left h8]
      rw [Ne, ← toUInt64_loadWord_eq hlen bit]
      exact fun hw => h ⟨h8, hw⟩

/-- The first `n` bytes as a number, the first one as the most significant. -/
def bigEndian : ℕ → Sds → ℕ
  | 0, _ => 0
  | n + 1, s => 2 ^ (8 * n) * (s.headD 0).toNat + bigEndian n s.tail

theorem bigEndian_lt (n : ℕ) (s : Sds) : bigEndian n s < 2 ^ (8 * n) := by
  induction n generalizing s with
  | zero => exact Nat.one_pos
  | succ n ih =>
    have hb := (s.headD 0).toNat_lt
    have ht := ih s.tail
    calc bigEndian (n + 1) s < 2 ^ (8 * n) * (s.headD 0).toNat + 2 ^ (8 * n) :=
      Nat.add_lt_add_left ht _
      _ = 2 ^ (8 * n) * ((s.headD 0).toNat + 1) := by ring
      _ ≤ 2 ^ (8 * n) * 2 ^ 8 := Nat.mul_le_mul_left _ hb
      _ = 2 ^ (8 * (n + 1)) := by rw [← Nat.pow_add, Nat.mul_succ]

theorem bitAt_headD (s : Sds) (hi : i < 8) : (s.headD 0).toNat.testBit (7 - i) = bitAt s i := by
  cases s with
  | nil => rw [bitAt_of_ge (Nat.zero_le i)]; exact Nat.zero_testBit _
  | cons b s => exact (bitAt_cons_of_lt b s hi).symm

theorem bitAt_tail (s : Sds) (i : ℕ) : bitAt s.tail i = bitAt s (8 + i) := by
  cases s with
  | nil => rw [bitAt_of_ge (Nat.zero_le i), bitAt_of_ge (Nat.zero_le _)]
  | cons b s => exact (bitAt_cons_add b s i).symm

theorem testBit_bigEndian {n i : ℕ} (s : Sds) (hi : i < 8 * n) :
    (bigEndian n s).testBit (8 * n - 1 - i) = bitAt s i := by
  induction n generalizing s i with
  | zero => exact absurd hi (Nat.not_lt_zero i)
  | succ n ih =>
    rw [bigEndian, Nat.testBit_two_pow_mul_add _ (bigEndian_lt n s.tail)]
    by_cases hi8 : i < 8
    · rw [if_neg (by omega), show 8 * (n + 1) - 1 - i - 8 * n = 7 - i by omega, bitAt_headD s hi8]
    · rw [if_pos (by omega), show 8 * (n + 1) - 1 - i = 8 * n - 1 - (i - 8) by omega,
        ih s.tail (by omega), bitAt_tail, Nat.add_sub_cancel' (by omega)]

theorem toNat_bitposLoad {n k : ℕ} (s : Sds) (word : UInt64) (hn : n + k = 8)
    (hword : word.toNat < 2 ^ (8 * k)) :
    (bitposLoad n s word).toNat = 2 ^ (8 * n) * word.toNat + bigEndian n s := by
  induction n generalizing s word k with
  | zero => simp [bitposLoad, bigEndian]
  | succ n ih =>
    have hstep : bitposLoad (n + 1) s word =
        bitposLoad n s.tail ((word <<< 8) ||| (s.headD 0).toUInt64) := by
      cases s with
      | nil => simp [bitposLoad]
      | cons b s => rfl
    have hb := (s.headD 0).toNat_lt
    have hlt : word.toNat * 2 ^ 8 < 2 ^ (8 * (k + 1)) := by
      rw [Nat.mul_succ, Nat.pow_add]
      exact Nat.mul_lt_mul_of_pos_right hword (by norm_num)
    have hle : 2 ^ (8 * (k + 1)) ≤ 2 ^ 64 := Nat.pow_le_pow_right (by norm_num) (by omega)
    have hshift : ((word <<< 8) ||| (s.headD 0).toUInt64).toNat =
        word.toNat * 2 ^ 8 + (s.headD 0).toNat := by
      rw [UInt64.toNat_or, UInt64.toNat_shiftLeft, show (8 : UInt64).toNat % 64 = 8 from rfl,
        Nat.shiftLeft_eq, Nat.mod_eq_of_lt (hlt.trans_le hle), ← Nat.shiftLeft_eq,
          UInt8.toNat_toUInt64,
        ← Nat.shiftLeft_add_eq_or_of_lt hb]
    have hnext : ((word <<< 8) ||| (s.headD 0).toUInt64).toNat < 2 ^ (8 * (k + 1)) := by
      have hk : word.toNat + 1 ≤ 2 ^ (8 * k) := hword
      rw [hshift]
      calc word.toNat * 2 ^ 8 + (s.headD 0).toNat < word.toNat * 2 ^ 8 + 2 ^ 8 :=
        Nat.add_lt_add_left hb _
        _ = (word.toNat + 1) * 2 ^ 8 := (Nat.succ_mul _ _).symm
        _ ≤ 2 ^ (8 * k) * 2 ^ 8 := Nat.mul_le_mul_right _ hk
        _ = 2 ^ (8 * (k + 1)) := by rw [← Nat.pow_add, Nat.mul_succ]
    have hpow : 2 ^ (8 * (n + 1)) = 2 ^ (8 * n) * 2 ^ 8 := by rw [← Nat.pow_add, Nat.mul_succ]
    rw [hstep, ih s.tail _ (by omega) hnext, hshift, bigEndian, hpow]
    ring

variable {bit : Bool}

theorem bitposScan_eq {word : UInt64} {n j : ℕ} {one : UInt64} (pos : ℕ)
    (hone : one.toNat = 2 ^ n / 2) (hj : j < n) (hbit : word.toNat.testBit (n - 1 - j) = bit)
    (hbefore : ∀ i < j, word.toNat.testBit (n - 1 - i) ≠ bit) :
    bitposScan word bit n one pos = some (pos + j) := by
  induction n generalizing j one pos with
  | zero => exact absurd hj (Nat.not_lt_zero j)
  | succ n ih =>
    rw [Nat.pow_succ, Nat.mul_div_cancel _ (by norm_num)] at hone
    have htest : decide (one &&& word ≠ 0) = word.toNat.testBit n := by
      rw [Bool.eq_iff_iff, decide_eq_true_eq, Ne, ← UInt64.toNat_inj, UInt64.toNat_and, hone,
        Nat.two_pow_and]
      cases word.toNat.testBit n <;> simp
    rw [bitposScan, htest]
    cases j with
    | zero => exact if_pos hbit
    | succ j =>
      have h0 : word.toNat.testBit n ≠ bit := hbefore 0 (Nat.succ_pos j)
      rw [if_neg h0, ih (j := j) (pos + 1) ?_ (by omega) ?_ ?_, Nat.add_right_comm, Nat.add_assoc]
      · rw [UInt64.toNat_shiftRight, hone]
        rfl
      · rwa [show n + 1 - 1 - (j + 1) = n - 1 - j by omega] at hbit
      · intro i hi
        have := hbefore (i + 1) (by omega)
        rwa [show n + 1 - 1 - (i + 1) = n - 1 - i by omega] at this

theorem eq_skipByte {b : UInt8} (h : ∀ i < 8, b.toNat.testBit i = !bit) : b = skipByte bit := by
  refine UInt8.toNat_inj.mp (Nat.eq_of_testBit_eq fun i => ?_)
  by_cases hi : i < 8
  · rw [h i hi, testBit_skipByte bit hi]
  · have hle : 2 ^ 8 ≤ 2 ^ i := Nat.pow_le_pow_right (by norm_num) (by omega)
    rw [Nat.testBit_lt_two_pow (b.toNat_lt.trans_le hle),
      Nat.testBit_lt_two_pow ((skipByte bit).toNat_lt.trans_le hle)]

theorem take_eq_skip {t : Sds} (hlen : 8 ≤ t.length) (h : ∀ i < 64, bitAt t i = !bit) :
    t.take 8 = replicate 8 (skipByte bit) := by
  rw [eq_replicate_iff, length_take]
  refine ⟨Nat.min_eq_left hlen, fun b hb => ?_⟩
  obtain ⟨k, hk, rfl⟩ := getElem_of_mem hb
  rw [length_take] at hk
  refine eq_skipByte fun i hi => ?_
  have hbit := h (8 * k + (7 - i)) (by omega)
  have hdiv : (8 * k + (7 - i)) / 8 = k := by omega
  have hmod : 7 - (8 * k + (7 - i)) % 8 = i := by omega
  rw [bitAt, hdiv, hmod, getD_eq_getElem _ _ (by omega)] at hbit
  rwa [getElem_take]

theorem testBit_bitposLoad (t : Sds) (hi : i < 64) :
    (bitposLoad 8 t 0).toNat.testBit (63 - i) = bitAt t i := by
  have hword : (bitposLoad 8 t 0).toNat = bigEndian 8 t := by
    rw [toNat_bitposLoad (k := 0) t 0 rfl Nat.one_pos]
    exact Nat.zero_add _
  rw [hword]
  exact testBit_bigEndian (n := 8) t hi

theorem bitposLoad_eq_zero {t : Sds} (h : ∀ i < 64, bitAt t i = false) : bitposLoad 8 t 0 = 0 := by
  refine UInt64.toNat_inj.mp (Nat.eq_of_testBit_eq fun i => ?_)
  rw [UInt64.toNat_zero, Nat.zero_testBit]
  by_cases hi : i < 64
  · have := testBit_bitposLoad t (i := 63 - i) (by omega)
    rwa [h _ (by omega), show 63 - (63 - i) = i by omega] at this
  · exact Nat.testBit_lt_two_pow ((bitposLoad 8 t 0).toNat_lt.trans_le
      (Nat.pow_le_pow_right (by norm_num) (by omega)))

theorem redisBitpos_skip (c : ℕ) (s : Sds) (bit : Bool) :
    ∃ n t, s = replicate n (skipByte bit) ++ t ∧
      (8 ≤ t.length → t.take 8 ≠ replicate 8 (skipByte bit)) ∧
      redisBitpos c s bit =
        if bit = true ∧ bitposLoad 8 t 0 = 0 then some (-1)
        else (bitposScan (bitposLoad 8 t 0) bit 64 0x8000000000000000 (8 * n)).map Int.ofNat := by
  obtain ⟨n1, hs, hpos⟩ := bitposUnaligned_eq (skipByte bit) c s
  obtain ⟨n2, t, ht, hwords, hstop⟩ :=
    bitposWords_eq bit (le_refl (bitposUnaligned (skipByte bit) c s).2.length)
  refine ⟨n1 + n2, t, ?_, hstop, by simp only [redisBitpos, hwords, hpos, Nat.mul_add]⟩
  rw [← replicate_append_replicate, append_assoc, ← ht, ← hs]

/-- The search finds the first bit with the value, and -1 if there is none.  There is always a
zero. -/
theorem redisBitpos_eq (c : ℕ) (s : Sds) (bit : Bool) :
    (∃ n, IsLeast {i | bitAt s i = bit} n ∧ redisBitpos c s bit = some (n : ℤ)) ∨
      bit = true ∧ (∀ i, bitAt s i = false) ∧ redisBitpos c s bit = some (-1) := by
  obtain ⟨n, t, hs, hstop, heq⟩ := redisBitpos_skip c s bit
  have hlow : ∀ i < 8 * n, bitAt s i = !bit := fun i hi => by
    rw [hs]
    exact bitAt_skip bit t hi
  have hhigh : ∀ i, bitAt s (8 * n + i) = bitAt t i := fun i => by
    have := bitAt_append_add (replicate n (skipByte bit)) t i
    rwa [length_replicate, ← hs] at this
  by_cases hex : ∃ i, i < 64 ∧ bitAt t i = bit
  · left
    obtain ⟨hj, hjbit⟩ := Nat.find_spec hex
    have hmin : ∀ i < Nat.find hex, bitAt t i ≠ bit :=
      fun i hi hb => Nat.find_min hex hi ⟨hi.trans hj, hb⟩
    refine ⟨8 * n + Nat.find hex, ⟨(hhigh _).trans hjbit, fun i hi => ?_⟩, ?_⟩
    · rw [Set.mem_ofPred_eq] at hi
      by_contra hlt
      by_cases hi8 : i < 8 * n
      · rw [hlow i hi8] at hi
        exact Bool.not_ne_self bit hi
      · obtain ⟨k, rfl⟩ := Nat.exists_eq_add_of_le (Nat.le_of_not_lt hi8)
        rw [hhigh] at hi
        exact hmin k (by omega) hi
    · rw [heq, if_neg, bitposScan_eq (j := Nat.find hex) _ rfl hj]
      · rfl
      · exact (testBit_bitposLoad t hj).trans hjbit
      · exact fun i hi => by
          rw [testBit_bitposLoad t (hi.trans hj)]
          exact hmin i hi
      · rintro ⟨rfl, h0⟩
        have := testBit_bitposLoad t hj
        rw [h0, hjbit] at this
        exact absurd this (by simp)
  · right
    have hnone : ∀ i < 64, bitAt t i = !bit :=
      fun i hi => Bool.eq_not_of_ne fun hb => hex ⟨i, hi, hb⟩
    have hlen : t.length < 8 := by
      by_contra h8
      exact hstop (by omega) (take_eq_skip (by omega) hnone)
    obtain rfl : bit = true := by
      have := hnone 63 (by norm_num)
      rw [bitAt_of_ge (by omega)] at this
      simpa using this.symm
    refine ⟨rfl, fun i => ?_, by rw [heq, if_pos ⟨rfl, bitposLoad_eq_zero hnone⟩]⟩
    by_cases hi8 : i < 8 * n
    · exact hlow i hi8
    · obtain ⟨k, rfl⟩ := Nat.exists_eq_add_of_le (Nat.le_of_not_lt hi8)
      rw [hhigh]
      by_cases hk : k < 64
      · exact hnone k hk
      · exact bitAt_of_ge (by omega)

theorem toNat_bitMask (i : ℕ) : (bitMask i).toNat = 2 ^ (7 - i % 8) := by
  have h : ∀ k < 8, ((1 : UInt8) <<< (7 - k).toUInt8).toNat = 2 ^ (7 - k) := by decide
  exact h _ (Nat.mod_lt i (by norm_num))

theorem getbit_eq (s : Sds) (i : ℕ) : getbit s i = bitAt s i := by
  rw [getbit, bitAt, Bool.eq_iff_iff, decide_eq_true_eq, Ne, ← UInt8.toNat_inj, UInt8.toNat_and,
    toNat_bitMask, Nat.and_two_pow]
  cases (s.getD (i / 8) 0).toNat.testBit (7 - i % 8) <;> simp

theorem testBit_updateByte (b : UInt8) (i : ℕ) (on : Bool) {k : ℕ} (hk : k < 8) :
    (updateByte i on b).toNat.testBit k = if k = 7 - i % 8 then on else b.toNat.testBit k := by
  have hmask : (bitMask i).toBitVec.getLsbD k = decide (7 - i % 8 = k) := by
    change (bitMask i).toNat.testBit k = _
    rw [toNat_bitMask, Nat.testBit_two_pow]
  have hon : (UInt8.toBitVec (if on then bitMask i else 0)).getLsbD k =
      (on && decide (7 - i % 8 = k)) := by
    cases on
    · exact BitVec.getLsbD_zero
    · exact hmask.trans (Bool.true_and _).symm
  change (UInt8.toBitVec (updateByte i on b)).getLsbD k = if k =
    7 - i % 8 then on else b.toBitVec.getLsbD k
  rw [updateByte, UInt8.toBitVec_or, UInt8.toBitVec_and, UInt8.toBitVec_not, BitVec.getLsbD_or,
    BitVec.getLsbD_and, BitVec.getLsbD_not, hmask, hon]
  by_cases h : k = 7 - i % 8
  · simp [← h]
  · simp [h, hk, Ne.symm h]

theorem length_setbit (s : Sds) (i : ℕ) (on : Bool) : (setbit s i on).length = s.length :=
  length_modify _ _ _

theorem bitAt_setbit (hi : i / 8 < s.length) (on : Bool) (j : ℕ) :
    bitAt (setbit s i on) j = if j = i then on else bitAt s j := by
  rw [bitAt, bitAt, setbit, getD_eq_getElem?_getD, getElem?_modify, getD_eq_getElem?_getD]
  by_cases hbyte : i / 8 = j / 8
  · have hmod : 7 - j % 8 = 7 - i % 8 ↔ j = i := by omega
    rw [← hbyte, getElem?_eq_getElem hi]
    simp only [if_true, Option.map_eq_map, Option.map_some, Option.getD_some,
      testBit_updateByte _ _ _ (show 7 - j % 8 < 8 by omega), hmod]
  · have hne : j ≠ i := by
      rintro rfl
      exact hbyte rfl
    simp [hbyte, hne]

end Vire
