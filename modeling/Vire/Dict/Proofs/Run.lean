import Mathlib.Data.Set.Card
import Vire.Dict.Proofs.Get
import Vire.Dict.Run

/-!
# A dictionary refines a finite map

Every call does to the entries what it does to a finite map, as long as new keys go to buckets below
`2 ^ 31` and the tables have memory.  A new key beyond is refused or written out of bounds.
-/

namespace Vire

open List Option

variable {K V : Type}

/-- The sizes of both tables are of this kind. -/
structure Dict.Sizes (P : ℕ → Prop) (d : Dict K V) : Prop where
  ht0 : P d.ht0.size
  ht1 : P d.ht1.size

/-- A table has no buckets, or as many as a power of two. -/
def ZeroOrPow (n : ℕ) : Prop := n = 0 ∨ ∃ k, n = 2 ^ k

/-- The sizes of both tables are powers of two, or 0. -/
abbrev Dict.PowTwo (d : Dict K V) : Prop := d.Sizes ZeroOrPow

theorem Dict.powTwo_create : (.create : Dict K V).PowTwo := ⟨.inl rfl, .inl rfl⟩

theorem dictNextPowerLoop_powTwo (n k size : ℕ) :
    ∃ j, dictNextPowerLoop n (2 ^ k) size = 2 ^ j := by
  induction n generalizing k with
  | zero => exact ⟨k, rfl⟩
  | succ n ih =>
    rw [dictNextPowerLoop]
    split_ifs
    · exact ⟨k, rfl⟩
    · exact ih (k + 1)

theorem zeroOrPow_dictNextPower (n : ℕ) : ZeroOrPow (dictNextPower n) :=
  .inr (dictNextPowerLoop_powTwo n 2 n)

/-- The next power is not beyond a power of two that is large enough. -/
theorem dictNextPower_le {n k : ℕ} (h : n ≤ 2 ^ k) (hk : 2 ≤ k) : dictNextPower n ≤ 2 ^ k := by
  have hloop : ∀ m i, i ≤ k → dictNextPowerLoop m (2 ^ i) n ≤ 2 ^ k := by
    intro m
    induction m with
    | zero => exact fun i hi => Nat.pow_le_pow_right two_pos hi
    | succ m ih =>
      intro i hi
      rw [dictNextPowerLoop]
      split_ifs with hn
      · exact Nat.pow_le_pow_right two_pos hi
      · exact ih (i + 1) ((Nat.pow_lt_pow_iff_right (by norm_num)).mp ((not_le.mp hn).trans_le h))
  exact hloop n 2 hk

variable [HashFn] [Text K] {d d' : Dict K V}

theorem Dictht.size_foldl_push (c : List (K × V)) (h : Dictht K V) :
    (c.foldl Dictht.push h).size = h.size := by
  induction c generalizing h with
  | nil => rfl
  | cons e c ih => rw [foldl_cons, ih, Dictht.size_push]

theorem moveBucket_size (d : Dict K V) (i : ℕ) :
    (moveBucket d i).ht0.size = d.ht0.size ∧ (moveBucket d i).ht1.size = d.ht1.size :=
  ⟨length_set, Dictht.size_foldl_push _ _⟩

namespace Dict.Sizes

variable {P : ℕ → Prop}

omit [HashFn] [Text K] in
theorem of_size (h : d.Sizes P) (h0 : d'.ht0.size = d.ht0.size) (h1 : d'.ht1.size = d.ht1.size) :
    d'.Sizes P := ⟨h0 ▸ h.ht0, h1 ▸ h.ht1⟩

omit [HashFn] [Text K] in
theorem dictExpand (h : d.Sizes P) {n : ℕ} (hn : P (dictNextPower n))
    (hd : dictExpand d n = some d') : d'.Sizes P := by
  have halloc : P (Dictht.alloc (dictNextPower n) : Dictht K V).size := by
    rwa [Dictht.size, Dictht.alloc, length_replicate]
  unfold Vire.dictExpand at hd
  dsimp only at hd
  split_ifs at hd <;> cases hd
  · exact ⟨halloc, h.ht1⟩
  · exact ⟨h.ht0, halloc⟩

omit [HashFn] [Text K] in
theorem expandIfNeeded (h : d.Sizes P) (hn : ∀ n ≤ max 4 (d.size * 2), P (dictNextPower n))
    (hd : dictExpandIfNeeded d = some d') : d'.Sizes P := by
  unfold dictExpandIfNeeded at hd
  split_ifs at hd
  · cases hd
    exact h
  · exact h.dictExpand (hn _ (le_max_left _ _)) hd
  · refine h.dictExpand (hn _ ?_) hd
    unfold Dict.size
    omega
  · cases hd
    exact h

theorem rehashLoop (h : d.Sizes P) (n visits : ℕ) : (dictRehashLoop n visits d).1.Sizes P := by
  induction n generalizing d visits with
  | zero => exact h
  | succ n ih =>
    unfold dictRehashLoop
    split_ifs
    · exact h
    · cases skipEmpty d.ht0 visits (d.rehashidx.getD 0) with
      | out i => exact ⟨h.ht0, h.ht1⟩
      | found i v => exact ih (h.of_size (moveBucket_size d i).1 (moveBucket_size d i).2) v

section

variable (h0 : P 0)
include h0

theorem dictRehash (h : d.Sizes P) (n : ℕ) : (dictRehash d n).1.Sizes P := by
  have hloop := h.rehashLoop n (n * 10)
  unfold Vire.dictRehash
  dsimp only
  split_ifs
  · exact hloop
  · exact ⟨hloop.ht1, h0⟩
  · exact hloop
  · exact h

theorem rehashStepIf (h : d.Sizes P) : (rehashStepIf d).Sizes P := by
  unfold Vire.rehashStepIf dictRehashStep
  split_ifs
  · exact h.dictRehash h0 1
  · exact h
  · exact h

/-- Before a key is added, a table of twice the number of the keys is made at most. -/
theorem expanded (h : d.Sizes P) (hw : d.WF) (hn : ∀ n ≤ max 4 (d.size * 2), P (dictNextPower n))
    (hd : dictExpandIfNeeded (Vire.rehashStepIf d) = some d') : d'.Sizes P := by
  have hs := rehashStepIf_same hw
  have hsize : (Vire.rehashStepIf d).size = d.size := by
    rw [hs.wf.size_eq, hw.size_eq, hs.perm.length_eq]
  exact (h.rehashStepIf h0).expandIfNeeded (hsize ▸ hn) hd

theorem dictAdd (h : d.Sizes P) (hw : d.WF) (hn : ∀ n ≤ max 4 (d.size * 2), P (dictNextPower n))
    (k : K) (v : V) : (dictAdd d k v).1.Sizes P := by
  unfold Vire.dictAdd
  dsimp only
  cases he : dictExpandIfNeeded (Vire.rehashStepIf d) with
  | none => exact h.rehashStepIf h0
  | some d1 =>
    have h1 := h.expanded h0 hw hn he
    dsimp only
    split_ifs
    · exact h1
    · exact h1.of_size rfl (Dictht.size_push _)
    · exact h1
    · exact h1.of_size (Dictht.size_push _) rfl

theorem dictDelete (h : d.Sizes P) (x : Sds) : (dictDelete d x).1.Sizes P := by
  have hr := h.rehashStepIf h0
  unfold Vire.dictDelete
  dsimp only
  split_ifs
  · exact h
  all_goals cases (Vire.rehashStepIf d).ht0.find x with
    | some e => exact hr.of_size Dictht.size_modify rfl
    | none => ?_
  · cases (Vire.rehashStepIf d).ht1.find x with
    | some e => exact hr.of_size rfl Dictht.size_modify
    | none => exact hr
  · exact hr

end

theorem setVal (h : d.Sizes P) (x : Sds) (v : V) : (d.setVal x v).Sizes P := by
  unfold Dict.setVal
  split_ifs
  · exact h.of_size Dictht.size_modify rfl
  · exact h.of_size rfl Dictht.size_modify

end Dict.Sizes

/-- No table has more buckets than there are bucket numbers that are not negative as an `int`. -/
abbrev Dict.Small (d : Dict K V) : Prop := d.Sizes (· ≤ 2 ^ 31)

omit [HashFn] [Text K] in
theorem Dict.small_create : (.create : Dict K V).Small := ⟨Nat.zero_le _, Nat.zero_le _⟩

theorem Dict.WF.size_dictAdd_le (hw : d.WF) (k : K) (v : V) :
    (dictAdd d k v).1.size ≤ d.size + 1 := by
  obtain ⟨hw', -, -, hnew, hold⟩ := dictAdd_spec hw k v
  rw [hw'.size_eq, hw.size_eq]
  cases h : assoc d.entries (text k) with
  | none => exact (hnew h).length_eq.le
  | some e => exact (hold (by rw [h]; rfl)).length_eq.le.trans (Nat.le_succ _)

namespace Dict.Sizes

omit [HashFn] [Text K] in
theorem nextPower_le (hsize : d.size ≤ 2 ^ 30) :
    ∀ n ≤ max 4 (d.size * 2), dictNextPower n ≤ 2 ^ 31 :=
  fun n hn => dictNextPower_le (by omega) (by decide)

section

variable (h : d.Small)

include h

theorem add (hw : d.WF) (hsize : d.size ≤ 2 ^ 30) (k : K) (v : V) :
    (Vire.dictAdd d k v).1.Small :=
  Sizes.dictAdd (P := (· ≤ 2 ^ 31)) (Nat.zero_le _) h hw (nextPower_le hsize) k v

/-- With `2 ^ 30` keys or less, the bucket of a new one has a number that is an `int`. -/
theorem dictAddIndex_lt (hw : d.WF) (hsize : d.size ≤ 2 ^ 30) (k : K) :
    dictAddIndex d k < 2 ^ 31 := by
  obtain ⟨d1, hd1, -⟩ := dictExpandIfNeeded_some (rehashStepIf_same hw).wf
  have h1 := Sizes.expanded (P := (· ≤ 2 ^ 31)) (Nat.zero_le _) h hw (nextPower_le hsize) hd1
  have hnewest : d1.newest.size ≤ 2 ^ 31 := by
    unfold Dict.newest
    split_ifs
    · exact h1.ht1
    · exact h1.ht0
  have hle : d1.newest.idx (text k) ≤ d1.newest.size - 1 := Nat.and_le_right
  rw [dictAddIndex, hd1, getD_some]
  omega

theorem replace (hw : d.WF) (hsize : d.size ≤ 2 ^ 30) (k : K) (v : V) :
    (dictReplace d k v).1.Small := by
  unfold dictReplace
  dsimp only
  split_ifs
  · exact h.add hw hsize k v
  · exact (h.add hw hsize k v).setVal _ _

theorem delete (x : Sds) : (Vire.dictDelete d x).1.Small :=
  Sizes.dictDelete (P := (· ≤ 2 ^ 31)) (Nat.zero_le _) h x

theorem randomKey (r : ℕ) : (dictGetRandomKey d r).2.Small := by
  unfold dictGetRandomKey
  split_ifs
  · exact h
  · exact Sizes.rehashStepIf (P := (· ≤ 2 ^ 31)) (Nat.zero_le _) h

omit [HashFn] [Text K] in
theorem resize (hd : dictResize d = some d') : d'.Small := by
  have hint : int32 d.ht0.used < 2 ^ 31 := Int.bmod_lt (by decide)
  unfold dictResize at hd
  split_ifs at hd
  refine h.dictExpand (dictNextPower_le ?_ (by decide)) hd
  rw [Int.toNat_le, max_le_iff]
  exact ⟨hint.le, by decide⟩

end

end Dict.Sizes

/-- The invariant of a dictionary that stands for the finite map `m`. -/
structure DictIs (d : Dict K V) (m : Sds → Option (K × V)) : Prop where
  entries : ∀ x e, m x = some e ↔ text e.1 = x ∧ (e ∈ d.ht0.entries ∨ e ∈ d.ht1.entries)
  once : (texts (d.ht0.entries ++ d.ht1.entries)).Nodup
  ht0 : d.ht0.WF
  ht1 : d.ht1.WF
  powTwo : d.PowTwo
  moved : ∀ r i, d.rehashidx = some r → i < r → d.ht0.chain i = []
  inside : ∀ r, d.rehashidx = some r → d.ht0.used ≠ 0 → r < d.ht0.size
  reads : d.isRehashing = true → ∀ n visits, ∀ i ∈ rehashReads n visits d, i < d.ht0.size
  size : d.size = {x | (m x).isSome}.ncard

theorem Dict.WF.exists_bucket (hw : d.WF) {r : ℕ} (hr : d.rehashidx = some r)
    (hu : d.ht0.used ≠ 0) : ∃ i, r ≤ i ∧ i < d.ht0.size ∧ d.ht0.chain i ≠ [] := by
  rw [hw.ht0.used] at hu
  obtain ⟨e, he⟩ := exists_mem_of_ne_nil _ fun hnil => hu (length_eq_zero_iff.mpr hnil)
  have hchain := hw.ht0.mem_chain.mpr he
  refine ⟨d.ht0.idx (text e.1), ?_, Dictht.idx_lt ?_ _, ne_nil_of_mem hchain⟩
  · by_contra hlt
    rw [hw.moved r _ hr (Nat.not_le.mp hlt)] at hchain
    exact not_mem_nil hchain
  · exact (hw.tables (by simp [Dict.isRehashing, hr])).1

omit [HashFn] [Text K] in
theorem skipReads_lt {h : Dictht K V} {j : ℕ} (hj : h.chain j ≠ []) (v : ℕ) {i : ℕ} (hi : i ≤ j) :
    ∀ b ∈ skipReads h v i, b ≤ j := by
  induction v generalizing i with
  | zero => exact fun b hb => absurd hb not_mem_nil
  | succ v ih =>
    intro b hb
    rw [skipReads] at hb
    split_ifs at hb with hstop
    · exact (mem_singleton.mp hb).trans_le hi
    · rcases mem_cons.mp hb with rfl | hb
      · exact hi
      · have hne : i ≠ j := by
          rintro rfl
          exact hstop (.inl hj)
        exact ih (by omega) b hb

theorem rehashReads_lt (hw : d.WF) (hb : d.isRehashing = true) (n visits : ℕ) :
    ∀ i ∈ rehashReads n visits d, i < d.ht0.size := by
  induction n generalizing d visits with
  | zero => exact fun i hi => absurd hi not_mem_nil
  | succ n ih =>
    intro i hi
    obtain ⟨r, hr⟩ := Dict.isRehashing_iff.mp hb
    rw [rehashReads] at hi
    split_ifs at hi with hu
    · exact absurd hi not_mem_nil
    obtain ⟨j, hrj, hj, hne⟩ := hw.exists_bucket hr hu
    have hskip := skipEmpty_spec d.ht0 visits r
    rw [hr, getD_some] at hi
    rcases mem_append.mp hi with hi | hi
    · exact (skipReads_lt hne visits hrj i hi).trans_lt hj
    · rcases hs : skipEmpty d.ht0 visits r with ⟨b, v⟩ | b <;> rw [hs] at hi hskip
      · have hlt := ih (moveBucket_same hw hr hskip.2).wf rfl v i hi
        rwa [(moveBucket_size d b).1] at hlt
      · exact absurd hi not_mem_nil

theorem Dict.WF.dictIs (hw : d.WF) (hp : d.PowTwo) : DictIs d (assoc d.entries) where
  entries x e := by rw [assoc_eq_some hw.nodup, hw.entries_eq, mem_append, and_comm]
  once := hw.entries_eq ▸ hw.nodup
  ht0 := hw.ht0
  ht1 := hw.ht1
  powTwo := hp
  moved := hw.moved
  inside r hr hu := by
    obtain ⟨i, hle, hlt, -⟩ := hw.exists_bucket hr hu
    exact hle.trans_lt hlt
  reads hb n visits := rehashReads_lt hw hb n visits
  size := by
    have hset : {x | (assoc d.entries x).isSome} = ((texts d.entries).toFinset : Set Sds) := by
      ext x
      rw [coe_toFinset, Set.mem_ofPred_eq, Set.mem_ofPred_eq, ← not_iff_not, ← assoc_eq_none,
        Bool.not_eq_true, isSome_eq_false_iff, isNone_iff_eq_none]
    rw [hset, Set.ncard_coe_finset, toFinset_card_of_nodup hw.nodup, texts, length_map,
      hw.size_eq]

theorem dictAddRaw_eq (hw : d.WF) {k : K} (v : V)
    (h : (assoc d.entries (text k)).isSome = true ∨ dictAddIndex d k < 2 ^ 31) :
    dictAddRaw d k v = some (dictAdd d k v) := by
  have hs := rehashStepIf_same hw
  obtain ⟨d1, hd1, hs1, -⟩ := dictExpandIfNeeded_some hs.wf
  have hassoc := (hs.trans hs1).assoc_eq (text k)
  unfold dictAddRaw dictKeyIndex dictAdd
  unfold dictAddIndex at h
  simp only [hd1, getD_some] at h ⊢
  rw [hs1.wf.find_eq, hassoc]
  cases ha : (assoc d.entries (text k)).isSome with
  | true => simp
  | false =>
    have hlt : d1.newest.idx (text k) < 2 ^ 31 := h.resolve_left (by simp [ha])
    have hint := int32_of_lt (n := d1.newest.idx (text k)) (by omega) (by omega)
    simp only [Bool.false_eq_true, if_false, hint]
    cases hr : d1.isRehashing with
    | false => simp [Dict.newest, hr, Dictht.push, Dictht.pushAt]
    | true => simp [Dict.newest, hr, Dictht.push, Dictht.pushAt]

theorem dictAddRaw_ne (hh : ∀ x, HashFn.hash x < 2 ^ 32) (hw : d.WF) {k : K} (v : V)
    (ha : assoc d.entries (text k) = none) (h : 2 ^ 31 ≤ dictAddIndex d k) (d' : Dict K V) :
    dictAddRaw d k v ≠ some (d', true) := by
  have hs := rehashStepIf_same hw
  obtain ⟨d1, hd1, hs1, -⟩ := dictExpandIfNeeded_some hs.wf
  have hassoc := (hs.trans hs1).assoc_eq (text k)
  unfold dictAddRaw dictKeyIndex
  unfold dictAddIndex at h
  simp only [hd1, getD_some] at h ⊢
  have hlt : d1.newest.idx (text k) < 2 ^ 32 := Nat.and_le_left.trans_lt (hh _)
  have hint : int32 (d1.newest.idx (text k)) < 0 := by
    rw [int32, Int.bmod_def]
    split_ifs <;> omega
  rw [hs1.wf.find_eq, hassoc, ha]
  simp only [isSome_none, Bool.false_eq_true, if_false]
  split_ifs <;> simp

/-- A new key goes to a bucket whose number is an `int`. -/
def DictOp.IntIndex (d : Dict K V) (op : DictOp K V) : Prop :=
  ∀ k, op.adds = some k → text k ∉ texts d.entries → dictAddIndex d k < 2 ^ 31

variable {op : DictOp K V}

theorem DictOp.IntIndex.addRaw (h : op.IntIndex d) (hw : d.WF) {k : K} (v : V)
    (hk : op.adds = some k) : dictAddRaw d k v = some (dictAdd d k v) := by
  refine dictAddRaw_eq hw v ?_
  cases ha : assoc d.entries (text k) with
  | none => exact .inr (h k hk (assoc_eq_none.mp ha))
  | some e => exact .inl rfl

theorem DictOp.run_spec (hw : d.WF) (hp : d.PowTwo) (op : DictOp K V) :
    (op.run d).WF ∧ (op.run d).PowTwo ∧ assoc (op.run d).entries =
      (op.spec (assoc d.entries)).1 := by
  have hsame : ∀ {d'}, Dict.Same d d' → assoc d'.entries = assoc d.entries :=
    fun hs => funext hs.assoc_eq
  have hadd : ∀ k v, (dictAdd d k v).1.PowTwo :=
    hp.dictAdd (.inl rfl) hw fun n _ => zeroOrPow_dictNextPower n
  cases op with
  | add k v =>
    refine ⟨(dictAdd_spec hw k v).1, hadd k v, ?_⟩
    rw [spec]
    split_ifs with ha
    · exact assoc_dictAdd_of_isSome hw k v ha
    · exact assoc_dictAdd hw k v (by simpa using ha)
  | replace k v =>
    obtain ⟨hw', hassoc⟩ := assoc_dictReplace hw k v
    refine ⟨hw', ?_, hassoc⟩
    rw [run, dictReplace]
    split_ifs
    · exact hadd k v
    · exact (hadd k v).setVal (text k) v
  | replaceRaw k v =>
    obtain ⟨hw', hassoc⟩ := assoc_dictReplaceRaw hw k v
    refine ⟨hw', ?_, hassoc⟩
    rw [run, dictReplaceRaw]
    split_ifs
    · exact hp.setVal (text k) v
    · exact hadd k v
  | delete x => exact ⟨(dictDelete_spec hw x).1, hp.dictDelete (.inl rfl) x, assoc_dictDelete hw x⟩
  | find x => exact ⟨hw, hp, rfl⟩
  | expand n =>
    rw [run]
    cases he : dictExpand d n with
    | none => exact ⟨hw, hp, rfl⟩
    | some d' =>
      have hs := (dictExpand_same hw he).1
      exact ⟨hs.wf, hp.dictExpand (zeroOrPow_dictNextPower _) he, hsame hs⟩
  | resize =>
    rw [run]
    cases he : dictResize d with
    | none => exact ⟨hw, hp, rfl⟩
    | some d' =>
      have hs := dictResize_same hw he
      refine ⟨hs.wf, ?_, hsame hs⟩
      unfold dictResize at he
      split_ifs at he
      exact hp.dictExpand (zeroOrPow_dictNextPower _) he
  | rehash n =>
    have hs := dictRehash_same hw n
    exact ⟨hs.wf, hp.dictRehash (.inl rfl) n, hsame hs⟩
  | empty => exact ⟨Dict.wf_create, Dict.powTwo_create, rfl⟩

theorem DictOp.call_eq (hw : d.WF) (h : op.IntIndex d) :
    op.call d = some (op.run d, (op.spec (assoc d.entries)).2) := by
  cases op with
  | add k v =>
    obtain ⟨-, -, hflag, -⟩ := dictAdd_spec hw k v
    rw [call, h.addRaw hw v rfl, map_some, hflag, run, spec]
  | replace k v =>
    obtain ⟨hw', -, hflag, -⟩ := dictAdd_spec hw k v
    rw [call, h.addRaw hw v rfl, bind_some, dictFind_eq hw', hflag, run, spec, dictReplace, hflag]
    cases ha : assoc d.entries (text k) with
    | none => rfl
    | some e => simp [assoc_dictAdd_of_isSome hw k v (isSome_of_eq_some ha), ha]
  | replaceRaw k v =>
    obtain ⟨-, -, hflag, -⟩ := dictAdd_spec hw k v
    rw [call, h.addRaw hw v rfl, map_some, hflag, run, dictReplaceRaw, dictFind_eq hw, spec]
    cases assoc d.entries (text k) with
    | none => rfl
    | some e => rfl
  | delete x =>
    obtain ⟨-, -, hret, -⟩ := dictDelete_spec hw x
    rw [call, run, spec, ← hret]
  | find x => rw [call, dictFind_eq hw, run, spec]
  | expand n | resize | rehash n | empty => rfl

theorem DictOp.call_ne (hh : ∀ x, HashFn.hash x < 2 ^ 32) (hw : d.WF)
    (h : ¬ op.IntIndex d) (d' : Dict K V) :
    op.call d ≠ some (d', (op.spec (assoc d.entries)).2) := by
  obtain ⟨k, hk, hnot, hge⟩ : ∃ k, op.adds = some k ∧ text k ∉ texts d.entries ∧
      2 ^ 31 ≤ dictAddIndex d k := by
    simpa [DictOp.IntIndex] using h
  have ha := assoc_eq_none.mpr hnot
  have hadd : ∀ v d', dictAddRaw d k v ≠ some (d', true) := fun v => dictAddRaw_ne hh hw v ha hge
  cases op with
  | add k' v =>
    cases hk
    rw [call, spec, ha]
    intro heq
    obtain ⟨⟨d1, flag⟩, hraw, hres⟩ := map_eq_some_iff.mp heq
    cases hres
    exact hadd v _ hraw
  | replace k' v =>
    cases hk
    rw [call, spec, ha]
    intro heq
    obtain ⟨⟨d1, flag⟩, hraw, hres⟩ := bind_eq_some_iff.mp heq
    split_ifs at hres with hflag
    · subst hflag
      exact hadd v _ hraw
    · cases hres
  | replaceRaw k' v =>
    cases hk
    rw [call, dictFind_eq hw, ha]
    intro heq
    obtain ⟨⟨d1, flag⟩, hraw, hres⟩ := map_eq_some_iff.mp heq
    cases hres
    exact hadd v _ hraw
  | delete x | find x | expand n | resize | rehash n | empty => cases hk

/-- A new key goes to a bucket whose number is an `int`, and the tables have memory. -/
structure DictOp.Fits (d : Dict K V) (op : DictOp K V) : Prop where
  index : op.IntIndex d
  memory : (op.run d).allocated = true

theorem DictOp.exec_eq (hw : d.WF) (h : op.Fits d) :
    op.exec d = some (op.run d, (op.spec (assoc d.entries)).2) := by
  rw [exec, call_eq hw h.index]
  exact filter_some_pos h.memory

theorem DictOp.exec_ne (hh : ∀ x, HashFn.hash x < 2 ^ 32) (hw : d.WF) (h : ¬ op.Fits d)
    (d' : Dict K V) : op.exec d ≠ some (d', (op.spec (assoc d.entries)).2) := by
  intro heq
  obtain ⟨hcall, hmem⟩ := filter_eq_some_iff.mp heq
  by_cases hidx : op.IntIndex d
  · rw [call_eq hw hidx] at hcall
    cases hcall
    exact h ⟨hidx, hmem⟩
  · exact call_ne hh hw hidx d' hcall

/-- The calls return what they return for the finite map `m`, and the invariant holds before and
after each of them. -/
def DictRefines (d : Dict K V) (m : Sds → Option (K × V)) : List (DictOp K V) → Prop
  | [] => DictIs d m
  | op :: ops =>
    DictIs d m ∧ ∃ d', op.exec d = some (d', (op.spec m).2) ∧ DictRefines d' (op.spec m).1 ops

/-- No call puts a new key in a bucket beyond the first `2 ^ 31`, or makes a table without
memory. -/
def DictFits (d : Dict K V) : List (DictOp K V) → Prop
  | [] => True
  | op :: ops => op.Fits d ∧ DictFits (op.run d) ops

theorem dictRefines_iff (hh : ∀ x, HashFn.hash x < 2 ^ 32) (hw : d.WF) (hp : d.PowTwo)
    (ops : List (DictOp K V)) : DictRefines d (assoc d.entries) ops ↔ DictFits d ops := by
  induction ops generalizing d with
  | nil => exact iff_of_true (hw.dictIs hp) trivial
  | cons op ops ih =>
    by_cases hfit : op.Fits d
    · obtain ⟨hw', hp', hassoc⟩ := DictOp.run_spec hw hp op
      have hiff := ih hw' hp'
      rw [hassoc] at hiff
      rw [DictRefines, DictFits, DictOp.exec_eq hw hfit, ← hiff]
      constructor
      · rintro ⟨-, d1, heq, hrest⟩
        obtain rfl := (Prod.mk.inj (some.inj heq)).1
        exact ⟨hfit, hrest⟩
      · rintro ⟨-, hrest⟩
        exact ⟨hw.dictIs hp, _, rfl, hrest⟩
    · refine iff_of_false ?_ fun h => hfit h.1
      rintro ⟨-, d', heq, -⟩
      exact DictOp.exec_ne hh hw hfit d' heq

/-- For every hash function, which returns an `unsigned int`, and every sequence of calls: the
dictionary is a finite map, with its invariant, if and only if every new key goes to one of the
first `2 ^ 31` buckets and no table has `2 ^ 61` buckets or more. -/
theorem dict_refines_map_iff (hh : ∀ x, HashFn.hash x < 2 ^ 32) (ops : List (DictOp K V)) :
    DictRefines .create (fun _ => none) ops ↔ DictFits .create ops :=
  dictRefines_iff hh Dict.wf_create Dict.powTwo_create ops

omit [HashFn] [Text K]

/-- Five keys in a table of four buckets, which is expanded and then moved in steps while one of
them is deleted and another gets a new value. -/
theorem dict_refines_map_expanded :
    let _ : HashFn := ⟨fun x => (x.headD 0).toNat⟩
    DictRefines (.create : Dict Sds Sds) (fun _ => none)
      [.add [1] [10], .add [5] [50], .add [9] [90], .add [2] [20], .add [6] [60], .delete [5],
        .rehash 1, .replace [9] [91], .find [9], .add [9] [0], .resize, .find [5]] := by
  intro _
  have hlt : ∀ x, HashFn.hash x < 2 ^ 8 := fun x => UInt8.toNat_lt _
  have hidx : ∀ (d : Dict Sds Sds) op, DictOp.IntIndex d op := fun d op k _ _ =>
    (Nat.and_le_left.trans_lt (hlt _)).trans (by decide)
  refine (dict_refines_map_iff (fun x => (hlt x).trans (by decide)) _).mpr ?_
  iterate 12 refine ⟨⟨hidx _ _, by decide +kernel⟩, ?_⟩
  trivial

theorem dictAddIndex_alloc [HashFn] [Text K] (n k : ℕ) (key : K) :
    dictAddIndex (⟨.alloc (2 ^ n), .reset, none, k⟩ : Dict K V) key =
      HashFn.hash (text key) % 2 ^ n := by
  have hexp : dictExpandIfNeeded (⟨.alloc (2 ^ n), .reset, none, k⟩ : Dict K V) =
      some ⟨.alloc (2 ^ n), .reset, none, k⟩ := by
    simp [dictExpandIfNeeded, Dict.isRehashing, Dictht.alloc, Dictht.size]
  have hstep : rehashStepIf (⟨.alloc (2 ^ n), .reset, none, k⟩ : Dict K V) =
      ⟨.alloc (2 ^ n), .reset, none, k⟩ := rfl
  rw [dictAddIndex, hstep, hexp, getD_some, ← Nat.and_two_pow_sub_one_eq_mod]
  simp [Dict.newest, Dict.isRehashing, Dictht.idx, Dictht.sizemask, Dictht.size, Dictht.alloc]

/-- In a table of `2 ^ 32` buckets, a key of the hash `2 ^ 32 - 1` is taken for one that is
there. -/
theorem dict_key_refused :
    let _ : HashFn := ⟨fun _ => 2 ^ 32 - 1⟩
    ¬ DictRefines (.create : Dict Sds Sds) (fun _ => none) [.expand (2 ^ 32), .add [1] [2]] := by
  intro _
  rintro ⟨-, d, hd, -, d', hadd, -⟩
  have hsize : dictNextPower (2 ^ 32) = 2 ^ 32 :=
    le_antisymm (dictNextPower_le le_rfl (by decide)) (le_dictNextPower _)
  have hexp : dictExpand (.create : Dict Sds Sds) (2 ^ 32) =
      some ⟨.alloc (2 ^ 32), .reset, none, 0⟩ := by
    rw [dictExpand, hsize]
    simp [Dict.create, Dictht.reset, Dict.isRehashing, Dictht.size]
  obtain rfl : ⟨.alloc (2 ^ 32), .reset, none, 0⟩ = d := by
    obtain ⟨hcall, -⟩ := filter_eq_some_iff.mp hd
    rw [DictOp.call, hexp] at hcall
    exact (Prod.mk.inj (some.inj hcall)).1
  have hs := (dictExpand_same Dict.wf_create hexp).1
  have hassoc := funext hs.assoc_eq
  have hnot : ¬ DictOp.Fits ⟨.alloc (2 ^ 32), .reset, none, 0⟩ (.add [1] [2] : DictOp Sds Sds) := by
    intro hfit
    have hlt := hfit.index [1] rfl (by rw [← assoc_eq_none, hassoc]; rfl)
    rw [dictAddIndex_alloc] at hlt
    exact absurd hlt (by decide)
  refine DictOp.exec_ne (fun x => Nat.sub_lt (by decide) (by decide)) hs.wf hnot d' ?_
  rw [hassoc]
  exact hadd

end Vire
