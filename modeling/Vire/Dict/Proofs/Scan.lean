import Vire.Dict.Proofs.Cursor
import Vire.Dict.Proofs.Map

/-!
# What a scan passes on

Each call of `dictScan` passes on one bucket of the smaller table and, while the dictionary is being
rehashed, all buckets of the larger one that it stands for.  So following the cursor from 0 to 0
passes on every entry.
-/

namespace Vire

open List

variable {K V : Type}

variable {e : K × V}

namespace Dict

def small (d : Dict K V) : Dictht K V :=
  if d.isRehashing then (if d.ht1.size < d.ht0.size then d.ht1 else d.ht0) else d.ht0

def large (d : Dict K V) : Dictht K V :=
  if d.ht1.size < d.ht0.size then d.ht0 else d.ht1

/-- The sizes of the tables that are allocated are powers of two, and a `long` can hold them. -/
structure Sized (d : Dict K V) : Prop where
  ht0 : d.ht0.table ≠ [] → ∃ k ≤ 63, d.ht0.size = 2 ^ k
  ht1 : d.ht1.table ≠ [] → ∃ k ≤ 63, d.ht1.size = 2 ^ k

def scanBits (d : Dict K V) : ℕ := Nat.log2 d.small.size

theorem sized_create : (create : Dict K V).Sized :=
  ⟨fun h => absurd rfl h, fun h => absurd rfl h⟩

variable [Text K] [HashFn] {d : Dict K V}

theorem WF.table_ne (hw : d.WF) (h : d.size ≠ 0) : d.ht0.table ≠ [] := by
  rcases hr : d.isRehashing with _ | _
  · intro h0
    apply h
    rw [hw.size_eq, hw.entries_eq, hw.idle (isRehashing_eq_false.1 hr)]
    simp [Dictht.entries, h0, Dictht.reset]
  · exact (hw.tables hr).1

omit [Text K] [HashFn] in
theorem Sized.scanBits_le (hs : d.Sized) : d.scanBits ≤ 63 := by
  have hlog : ∀ h : Dictht K V, (h.table ≠ [] → ∃ k ≤ 63, h.size = 2 ^ k) →
      Nat.log2 h.size ≤ 63 := by
    intro h hk
    by_cases h0 : h.table = []
    · simp [Dictht.size, h0]
    · obtain ⟨k, hk, he⟩ := hk h0
      rw [he, Nat.log2_two_pow]
      exact hk
  unfold scanBits Dict.small
  split_ifs
  · exact hlog _ hs.ht1
  · exact hlog _ hs.ht0
  · exact hlog _ hs.ht0

theorem Sized.small (hs : d.Sized) (hw : d.WF) (h : d.size ≠ 0) :
    d.small.size = 2 ^ d.scanBits := by
  obtain ⟨k, -, he⟩ : ∃ k ≤ 63, d.small.size = 2 ^ k := by
    unfold Dict.small
    split_ifs with hr hlt
    · exact hs.ht1 (hw.tables hr).2
    · exact hs.ht0 (hw.tables hr).1
    · exact hs.ht0 (hw.table_ne h)
  rw [scanBits, he, Nat.log2_two_pow]

theorem Sized.large (hs : d.Sized) (hw : d.WF) (hr : d.isRehashing = true) :
    ∃ k, d.scanBits ≤ k ∧ k ≤ 63 ∧ d.large.size = 2 ^ k := by
  obtain ⟨k0, hk0, he0⟩ := hs.ht0 (hw.tables hr).1
  obtain ⟨k1, hk1, he1⟩ := hs.ht1 (hw.tables hr).2
  simp only [scanBits, Dict.small, Dict.large, hr, if_true]
  split_ifs with hlt
  · refine ⟨k0, ?_, hk0, he0⟩
    rw [he1, Nat.log2_two_pow]
    rw [he0, he1] at hlt
    exact ((Nat.pow_lt_pow_iff_right (by norm_num)).mp hlt).le
  · refine ⟨k1, ?_, hk1, he1⟩
    rw [he0, Nat.log2_two_pow]
    rw [he0, he1, not_lt] at hlt
    exact (Nat.pow_le_pow_iff_right (by norm_num)).mp hlt

theorem WF.mem_small_or_large (hw : d.WF) (he : e ∈ d.entries) :
    e ∈ d.small.entries ∨ d.isRehashing = true ∧ e ∈ d.large.entries := by
  rw [hw.entries_eq, mem_append] at he
  rcases hr : d.isRehashing with _ | _
  · have hnil : d.ht1.entries = [] := by
      rw [hw.idle (isRehashing_eq_false.1 hr)]
      rfl
    rw [hnil] at he
    simp only [not_mem_nil, or_false] at he
    simp only [Dict.small, hr]
    exact .inl he
  · simp only [Dict.small, Dict.large, hr, if_true, true_and]
    split_ifs
    · exact he.symm
    · exact he

theorem WF.small (hw : d.WF) : d.small.WF := by
  unfold Dict.small
  split_ifs
  · exact hw.ht1
  · exact hw.ht0
  · exact hw.ht0

theorem WF.large (hw : d.WF) : d.large.WF := by
  unfold Dict.large
  split_ifs
  · exact hw.ht0
  · exact hw.ht1

end Dict

variable {k : ℕ}

theorem idx_eq_mod [HashFn] {h : Dictht K V} (hk : h.size = 2 ^ k) (x : Sds) :
    h.idx x = HashFn.hash x % 2 ^ k := by
  rw [Dictht.idx, Dictht.sizemask, hk, Nat.and_two_pow_sub_one_eq_mod]

theorem sizemask_eq {h : Dictht K V} (hk : h.size = 2 ^ k) :
    UInt64.ofNat h.sizemask = maskOf k := by
  rw [maskOf, Dictht.sizemask, hk]

variable {t : Dictht K V}

section

variable {k₁ : ℕ} (hk : k ≤ k₁) (hk₁ : k₁ ≤ 63)

include hk hk₁

theorem scanLarger_succ (t : Dictht K V) (n : ℕ) (v : UInt64) :
    expansion k k₁ v + 1 = 2 ^ (k₁ - k) ∧ scanLarger t (maskOf k) (maskOf k₁) (n + 1) v =
        (t.chain (2 ^ k * expansion k k₁ v + v.toNat % 2 ^ k), expandNext k v) ∨
      expansion k k₁ (expandNext k v) = expansion k k₁ v + 1 ∧
        scanLarger t (maskOf k) (maskOf k₁) (n + 1) v =
          (t.chain (2 ^ k * expansion k k₁ v + v.toNat % 2 ^ k) ++
            (scanLarger t (maskOf k) (maskOf k₁) n (expandNext k v)).1,
            (scanLarger t (maskOf k) (maskOf k₁) n (expandNext k v)).2) := by
  have hlt : expansion k k₁ v < 2 ^ (k₁ - k) := Nat.mod_lt _ (Nat.two_pow_pos _)
  have hbucket := toNat_and_maskOf_expansion hk (show k₁ ≤ 64 by omega) v
  have hexp := expansion_expandNext hk (show k₁ ≤ 64 by omega) v
  have hstop := and_xor_maskOf hk (show k₁ ≤ 64 by omega) (expandNext k v)
  have heq : scanLarger t (maskOf k) (maskOf k₁) (n + 1) v =
      if expandNext k v &&& (maskOf k ^^^ maskOf k₁) = 0 then
        (t.chain (v &&& maskOf k₁).toNat, expandNext k v)
      else
        (t.chain (v &&& maskOf k₁).toNat ++
          (scanLarger t (maskOf k) (maskOf k₁) n (expandNext k v)).1,
          (scanLarger t (maskOf k) (maskOf k₁) n (expandNext k v)).2) := rfl
  rw [heq, hbucket]
  by_cases hlast : expansion k k₁ v + 1 = 2 ^ (k₁ - k)
  · rw [hlast, Nat.mod_self] at hexp
    exact .inl ⟨hlast, if_pos (hstop.mpr hexp)⟩
  · rw [Nat.mod_eq_of_lt (show expansion k k₁ v + 1 < 2 ^ (k₁ - k) by omega)] at hexp
    exact .inr ⟨hexp, if_neg fun h0 => by have := hstop.mp h0; omega⟩

theorem scanLarger_spec (n : ℕ) : ∀ v : UInt64, 2 ^ (k₁ - k) ≤ expansion k k₁ v + n →
    (scanLarger t (maskOf k) (maskOf k₁) n v).2.toNat % 2 ^ k = v.toNat % 2 ^ k ∧
      ∀ i, expansion k k₁ v ≤ i → i < 2 ^ (k₁ - k) →
        ∀ e ∈ t.chain (2 ^ k * i + v.toNat % 2 ^ k),
          e ∈ (scanLarger t (maskOf k) (maskOf k₁) n v).1 := by
  induction n with
  | zero =>
    intro v hn
    have hlt : expansion k k₁ v < 2 ^ (k₁ - k) := Nat.mod_lt _ (Nat.two_pow_pos _)
    omega
  | succ n ih =>
    intro v hn
    have hmod := expandNext_mod (show k ≤ 64 by omega) v
    rcases scanLarger_succ hk hk₁ t n v with ⟨hlast, heq⟩ | ⟨hnext, heq⟩ <;> rw [heq]
    · refine ⟨hmod, fun i hi hi' e he => ?_⟩
      obtain rfl : i = expansion k k₁ v := by omega
      exact he
    · obtain ⟨hv, hmem⟩ := ih (expandNext k v) (by omega)
      refine ⟨hv.trans hmod, fun i hi hi' e he => ?_⟩
      rw [mem_append]
      rcases hi.eq_or_lt with rfl | hgt
      · exact .inl he
      · rw [← hmod] at he
        exact .inr (hmem i (by omega) hi' e he)

end

variable {k₁ : ℕ}

theorem mod_div_eq_expansion (hk : k ≤ k₁) (hk₁ : k₁ ≤ 63) (v : UInt64) :
    v.toNat % 2 ^ k₁ / 2 ^ k = expansion k k₁ v := by
  rw [← toNat_and_maskOf (by omega), toNat_and_maskOf_expansion hk (by omega),
    Nat.mul_add_div (Nat.two_pow_pos _),
      Nat.div_eq_of_lt (Nat.mod_lt _ (Nat.two_pow_pos _)), Nat.add_zero]

variable {v : UInt64}

theorem scanPos_congr (hk : k ≤ 64) {w : UInt64} (h : v.toNat % 2 ^ k = w.toNat % 2 ^ k) :
    scanPos k v = scanPos k w := by
  refine Nat.eq_of_testBit_eq fun j => ?_
  rw [testBit_scanPos hk, testBit_scanPos hk]
  by_cases hj : j < k
  · have := congrArg (Nat.testBit · (k - 1 - j)) h
    simp only [Nat.testBit_mod_two_pow, decide_eq_true (show k - 1 - j < k by omega),
      Bool.true_and] at this
    rw [this]
  · simp [hj]

theorem scanNext_congr (hk : k ≤ 64) {w : UInt64} (h : v.toNat % 2 ^ k = w.toNat % 2 ^ k) :
    scanNext k v = scanNext k w := by
  rw [← rev_rev (scanNext k v), ← rev_rev (scanNext k w)]
  congr 1
  rw [← UInt64.toNat_inj, rev_scanNext hk, rev_scanNext hk, scanPos_congr hk h]

theorem scanLarger_fuel {k : ℕ} (ht : t.size = 2 ^ k₁)
    (v : UInt64) : 2 ^ (k₁ - k) ≤ expansion k k₁ v + t.size := by
  have hle : 2 ^ (k₁ - k) ≤ 2 ^ k₁ := Nat.pow_le_pow_right (by norm_num) (Nat.sub_le _ _)
  omega

variable [Text K] [HashFn] {d : Dict K V}

theorem dictScan_next (hw : d.WF) (hs : d.Sized) (h : d.size ≠ 0) (v : UInt64) :
    (dictScan d v).2 = scanNext d.scanBits v := by
  have hsmall := hs.small hw h
  have hmask := sizemask_eq hsmall
  rcases hr : d.isRehashing with _ | _
  · simp only [Dict.small, hr, Bool.false_eq_true, if_false] at hmask
    simp only [dictScan, h, hr, Bool.false_eq_true, if_false, hmask, scanNext]
  · obtain ⟨k₁, hle, hk₁, hlarge⟩ := hs.large hw hr
    have hmask1 := sizemask_eq hlarge
    have hloop := (scanLarger_spec (t := d.large) hle hk₁ d.large.size v
      (scanLarger_fuel hlarge v)).1
    simp only [Dict.small, hr, if_true] at hmask
    simp only [Dict.large] at hmask1 hloop
    simp only [dictScan, h, hr, if_true, if_false, hmask, hmask1]
    exact scanNext_congr (by omega) hloop

theorem dictScan_rehashing (hw : d.WF) (hs : d.Sized) (h : d.size ≠ 0) (hr : d.isRehashing = true)
    (hlarge : d.large.size = 2 ^ k₁) (v : UInt64) :
    (dictScan d v).1 = d.small.chain (v &&& maskOf d.scanBits).toNat ++
      (scanLarger d.large (maskOf d.scanBits) (maskOf k₁) d.large.size v).1 := by
  have hmask := sizemask_eq (hs.small hw h)
  have hmask1 := sizemask_eq hlarge
  simp only [Dict.small, Dict.large, hr, if_true] at hmask hmask1 ⊢
  simp only [dictScan, h, hr, if_true, if_false, hmask, hmask1]

/-- Where an entry comes in the order of the scan. -/
def Dict.scanPosOf (d : Dict K V) (e : K × V) : ℕ :=
  scanPos d.scanBits (UInt64.ofNat (HashFn.hash (text e.1)))

omit [HashFn] in
theorem toNat_ofNat_mod (hk : k ≤ 64) (n : ℕ) :
    (UInt64.ofNat n).toNat % 2 ^ k = n % 2 ^ k := by
  rw [UInt64.toNat_ofNat']
  exact Nat.mod_mod_of_dvd _ (pow_dvd_pow 2 hk)

/-- The loop over the buckets of the larger table goes up from the bits of the cursor above those of
the smaller table, and does not come to this entry. -/
def Dict.Skips (d : Dict K V) (v : UInt64) (e : K × V) : Prop :=
  d.isRehashing = true ∧ e ∈ d.large.entries ∧
    d.large.idx (text e.1) / d.small.size < v.toNat % d.large.size / d.small.size

theorem Dict.not_skips_of_lt {e : K × V} (h : v.toNat < d.small.size) :
    ¬ d.Skips v e := by
  rintro ⟨-, -, hlt⟩
  rw [Nat.div_eq_of_lt ((Nat.mod_le _ _).trans_lt h)] at hlt
  exact Nat.not_lt_zero _ hlt

theorem mem_dictScan (hw : d.WF) (hs : d.Sized) {e : K × V} (he : e ∈ d.entries)
    (hskip : ¬ d.Skips v e) (hv : d.scanPosOf e = scanPos d.scanBits v) : e ∈ (dictScan d v).1 := by
  have h : d.size ≠ 0 := by
    rw [hw.size_eq]
    exact (length_pos_of_mem he).ne'
  have hk := hs.scanBits_le
  have hsmall := hs.small hw h
  have hlow : HashFn.hash (text e.1) % 2 ^ d.scanBits = v.toNat % 2 ^ d.scanBits := by
    rw [← toNat_ofNat_mod (by omega), scanPos_inj (by omega) hv]
  have hmask := sizemask_eq hsmall
  have hbucket : e ∈ d.small.entries → e ∈ d.small.chain (v &&& maskOf d.scanBits).toNat := by
    intro hmem
    rw [toNat_and_maskOf (by omega), ← hlow, ← idx_eq_mod hsmall]
    exact hw.small.mem_chain.mpr hmem
  rcases hr : d.isRehashing with _ | _
  · have hmem := (hw.mem_small_or_large he).resolve_right (by simp [hr])
    have hin := hbucket hmem
    simp only [Dict.small, hr, Bool.false_eq_true, if_false] at hmask hin
    simp only [dictScan, h, hr, Bool.false_eq_true, if_false, hmask]
    exact hin
  · obtain ⟨k₁, hle, hk₁, hlarge⟩ := hs.large hw hr
    obtain ⟨-, hcover⟩ := scanLarger_spec (t := d.large) hle hk₁ d.large.size v
      (scanLarger_fuel hlarge v)
    have hpass : e ∈ d.large.entries →
        e ∈ (scanLarger d.large (maskOf d.scanBits) (maskOf k₁) d.large.size v).1 := by
      intro hmem
      have hchain := hw.large.mem_chain.mpr hmem
      rw [idx_eq_mod hlarge] at hchain
      refine hcover (HashFn.hash (text e.1) % 2 ^ k₁ / 2 ^ d.scanBits) ?_ ?_ e ?_
      · by_contra hlt
        refine hskip ⟨hr, hmem, ?_⟩
        rw [hlarge, hsmall, mod_div_eq_expansion hle hk₁, idx_eq_mod hlarge]
        omega
      · rw [Nat.div_lt_iff_lt_mul (Nat.two_pow_pos _), ← pow_add, Nat.sub_add_cancel hle]
        exact Nat.mod_lt _ (Nat.two_pow_pos _)
      · rw [← hlow, ← Nat.mod_mod_of_dvd _ (pow_dvd_pow 2 hle), Nat.div_add_mod]
        exact hchain
    rw [dictScan_rehashing hw hs h hr hlarge, mem_append]
    exact (hw.mem_small_or_large he).imp hbucket fun h => hpass h.2

omit [Text K] [HashFn] in
theorem Dictht.chain_sublist (h : Dictht K V) (i : ℕ) : (h.chain i).Sublist h.entries := by
  rw [Dictht.chain, Dictht.entries]
  by_cases hi : i < h.table.length
  · rw [getD_eq_getElem _ _ hi]
    exact sublist_flatten_of_mem (getElem_mem hi)
  · rw [getD_eq_default _ _ (Nat.le_of_not_lt hi)]
    exact nil_sublist _

omit [Text K] [HashFn] in
theorem mem_of_scanLarger {m0 m1 : UInt64} (n : ℕ) :
    ∀ v, e ∈ (scanLarger t m0 m1 n v).1 → e ∈ t.entries := by
  induction n with
  | zero => exact fun v he => absurd he not_mem_nil
  | succ n ih =>
    intro v he
    simp only [scanLarger] at he
    split_ifs at he with hend
    · exact (t.chain_sublist _).subset he
    · rcases mem_append.mp he with he | he
      · exact (t.chain_sublist _).subset he
      · exact ih _ he

theorem mem_of_dictScan (hw : d.WF) (he : e ∈ (dictScan d v).1) :
    e ∈ d.entries := by
  have htables : e ∈ d.ht0.entries ∨ e ∈ d.ht1.entries := by
    unfold dictScan at he
    split_ifs at he with h0 hr hlt
    · exact absurd he not_mem_nil
    · rcases mem_append.mp he with he | he
      · exact .inr ((d.ht1.chain_sublist _).subset he)
      · exact .inl (mem_of_scanLarger _ _ he)
    · rcases mem_append.mp he with he | he
      · exact .inl ((d.ht0.chain_sublist _).subset he)
      · exact .inr (mem_of_scanLarger _ _ he)
    · exact .inl ((d.ht0.chain_sublist _).subset he)
  rw [hw.entries_eq]
  exact mem_append.mpr htables

theorem scanLarger_once (ht : t.WF) (hn : t.entries.Nodup) {k : ℕ} (hk : k ≤ k₁)
    (hk₁ : k₁ ≤ 63) (n : ℕ) :
    ∀ v : UInt64, (scanLarger t (maskOf k) (maskOf k₁) n v).1.Nodup ∧
      ∀ e ∈ (scanLarger t (maskOf k) (maskOf k₁) n v).1,
        ∃ i, expansion k k₁ v ≤ i ∧ t.idx (text e.1) = 2 ^ k * i + v.toNat % 2 ^ k := by
  induction n with
  | zero => exact fun v => ⟨nodup_nil, fun e he => absurd he not_mem_nil⟩
  | succ n ih =>
    intro v
    have hmod := expandNext_mod (show k ≤ 64 by omega) v
    have hchain := ht.home (2 ^ k * expansion k k₁ v + v.toNat % 2 ^ k)
    have hfirst := hn.sublist (t.chain_sublist (2 ^ k * expansion k k₁ v + v.toNat % 2 ^ k))
    rcases scanLarger_succ hk hk₁ t n v with ⟨-, heq⟩ | ⟨hnext, heq⟩ <;> rw [heq]
    · exact ⟨hfirst, fun e he => ⟨_, le_rfl, hchain e he⟩⟩
    · obtain ⟨hrest, hidx⟩ := ih (expandNext k v)
      rw [hnext, hmod] at hidx
      refine ⟨nodup_append.mpr ⟨hfirst, hrest, ?_⟩, fun e he => ?_⟩
      · rintro e he e' he' rfl
        obtain ⟨i, hi, hi'⟩ := hidx e he'
        have hsame := hi'.symm.trans (hchain e he)
        have := Nat.eq_of_mul_eq_mul_left (Nat.two_pow_pos k) (Nat.add_right_cancel hsame)
        omega
      · rcases mem_append.mp he with he | he
        · exact ⟨_, le_rfl, hchain e he⟩
        · obtain ⟨i, hi, hi'⟩ := hidx e he
          exact ⟨i, by omega, hi'⟩

theorem Dict.WF.nodup_entries (hw : d.WF) : (d.ht0.entries ++ d.ht1.entries).Nodup :=
  hw.entries_eq ▸ hw.nodup.of_map

theorem Dict.WF.nodup_small_large (hw : d.WF) (hr : d.isRehashing = true) :
    (d.small.entries ++ d.large.entries).Nodup := by
  simp only [Dict.small, Dict.large, hr, if_true]
  split_ifs
  · exact nodup_append_comm.mp hw.nodup_entries
  · exact hw.nodup_entries

theorem dictScan_once (hw : d.WF) (hs : d.Sized) (v : UInt64) :
    (dictScan d v).1.Nodup ∧
      ∀ e ∈ (dictScan d v).1, d.scanPosOf e = scanPos d.scanBits v := by
  by_cases h : d.size = 0
  · simp [dictScan, h]
  have hk := hs.scanBits_le
  have hsmall := hs.small hw h
  have hmask := sizemask_eq hsmall
  have hpos : ∀ e : K × V, HashFn.hash (text e.1) % 2 ^ d.scanBits = v.toNat % 2 ^ d.scanBits →
      d.scanPosOf e = scanPos d.scanBits v := by
    intro e he
    refine scanPos_congr (by omega) ?_
    rw [toNat_ofNat_mod (by omega), he]
  have hbucket : ∀ e ∈ d.small.chain (v &&& maskOf d.scanBits).toNat,
      d.scanPosOf e = scanPos d.scanBits v := by
    intro e he
    have hhome := hw.small.home _ e he
    rw [idx_eq_mod hsmall, toNat_and_maskOf (by omega)] at hhome
    exact hpos e hhome
  rcases hr : d.isRehashing with _ | _
  · simp only [Dict.small, hr, Bool.false_eq_true, if_false] at hmask hbucket
    simp only [dictScan, h, hr, Bool.false_eq_true, if_false, hmask]
    exact ⟨(nodup_append.mp hw.nodup_entries).1.sublist (d.ht0.chain_sublist _), hbucket⟩
  · obtain ⟨k₁, hle, hk₁, hlarge⟩ := hs.large hw hr
    obtain ⟨hns, hnl, hdisj⟩ := nodup_append.mp (hw.nodup_small_large hr)
    obtain ⟨hlist, hidx⟩ := scanLarger_once hw.large hnl hle hk₁ d.large.size v
    rw [dictScan_rehashing hw hs h hr hlarge]
    refine ⟨nodup_append.mpr ⟨hns.sublist (d.small.chain_sublist _), hlist, ?_⟩, fun e he => ?_⟩
    · intro e he e' he'
      exact hdisj e ((d.small.chain_sublist _).subset he) e' (mem_of_scanLarger _ _ he')
    · rcases mem_append.mp he with he | he
      · exact hbucket e he
      · obtain ⟨i, -, hi⟩ := hidx e he
        refine hpos e ?_
        rw [idx_eq_mod hlarge] at hi
        rw [← Nat.mod_mod_of_dvd _ (pow_dvd_pow 2 hle), hi, Nat.mul_add_mod, Nat.mod_mod]

end Vire
