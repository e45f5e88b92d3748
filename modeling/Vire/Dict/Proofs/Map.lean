import Vire.Dict.Proofs.Table

/-!
# A dictionary is a finite map

`Dict.WF` is the invariant of a dictionary, also in the middle of a rehash.  Rehashing keeps the
entries up to order, so lookups do not see it (`dictFind_eq`); the updates add, remove or overwrite
exactly the entry of their key.
-/

namespace Vire

open List Option

variable {K V : Type} [Text K] [HashFn]

structure Dict.WF (d : Dict K V) : Prop where
  ht0 : d.ht0.WF
  ht1 : d.ht1.WF
  nodup : (texts d.entries).Nodup
  idle : d.rehashidx = none → d.ht1 = .reset
  tables : d.isRehashing = true → d.ht0.table ≠ [] ∧ d.ht1.table ≠ []
  moved : ∀ r i, d.rehashidx = some r → i < r → d.ht0.chain i = []

variable {d : Dict K V}

namespace Dict

omit [Text K] [HashFn] in
theorem isRehashing_iff : d.isRehashing = true ↔ ∃ r, d.rehashidx = some r :=
  isSome_iff_exists

omit [Text K] [HashFn] in
theorem isRehashing_eq_false : d.isRehashing = false ↔ d.rehashidx = none := by
  simp [isRehashing]

theorem WF.entries_eq (hw : d.WF) : d.entries = d.ht0.entries ++ d.ht1.entries := by
  unfold entries
  rcases hr : d.isRehashing with _ | _
  · rw [hw.idle (isRehashing_eq_false.1 hr)]
    simp [Dictht.reset, Dictht.entries]
  · simp

theorem WF.size_eq (hw : d.WF) : d.size = d.entries.length := by
  rw [hw.entries_eq, length_append, ← hw.ht0.used, ← hw.ht1.used, size]

theorem WF.nodup0 (hw : d.WF) : (texts d.ht0.entries).Nodup := by
  have := hw.nodup
  rw [hw.entries_eq, texts_append] at this
  exact this.of_append_left

theorem WF.nodup1 (hw : d.WF) : (texts d.ht1.entries).Nodup := by
  have := hw.nodup
  rw [hw.entries_eq, texts_append] at this
  exact this.of_append_right

theorem WF.find_eq (hw : d.WF) (x : Sds) :
    (d.ht0.find x).or (if d.isRehashing then d.ht1.find x else none) = assoc d.entries x := by
  rw [hw.entries_eq, assoc_append, hw.ht0.find_eq hw.nodup0]
  rcases hr : d.isRehashing with _ | _
  · rw [hw.idle (isRehashing_eq_false.1 hr)]
    simp [Dictht.reset, Dictht.entries, assoc_nil]
  · rw [if_pos rfl, hw.ht1.find_eq hw.nodup1]

theorem wf_create : (create : Dict K V).WF where
  ht0 := Dictht.wf_reset
  ht1 := Dictht.wf_reset
  nodup := nodup_nil
  idle := fun _ => rfl
  tables := fun h => by simp [isRehashing, create] at h
  moved := fun r i h => by simp [create] at h

omit [Text K] [HashFn] in
@[simp]
theorem entries_create : (create : Dict K V).entries = [] := rfl

/-- `d'` is `d` with its entries perhaps in other places. -/
structure Same (d d' : Dict K V) : Prop where
  wf : d'.WF
  perm : d'.entries.Perm d.entries
  iterators : d'.iterators = d.iterators

theorem WF.same (hw : d.WF) : Same d d := ⟨hw, Perm.refl _, rfl⟩

theorem Same.trans {d d' d'' : Dict K V} (h : Same d d') (h' : Same d' d'') : Same d d'' :=
  ⟨h'.wf, h'.perm.trans h.perm, h'.iterators.trans h.iterators⟩

theorem Same.assoc_eq {d d' : Dict K V} (h : Same d d') (x : Sds) :
    assoc d'.entries x = assoc d.entries x := assoc_perm h.perm h.wf.nodup x

end Dict

open Dict

theorem dictFind_eq (hw : d.WF) (x : Sds) : dictFind d x = assoc d.entries x := by
  unfold dictFind
  by_cases h0 : d.ht0.used + d.ht1.used = 0
  · have hnil : d.entries = [] := by
      have := hw.size_eq
      unfold size at this
      exact length_eq_zero_iff.1 (by omega)
    rw [if_pos h0, hnil, assoc_nil]
  · rw [if_neg h0]
    exact hw.find_eq x

omit [HashFn] in
theorem le_dictNextPowerLoop (n i size : ℕ) : i ≤ dictNextPowerLoop n i size := by
  induction n generalizing i with
  | zero => exact le_rfl
  | succ n ih =>
    unfold dictNextPowerLoop
    split_ifs
    · exact le_rfl
    · have := ih (i * 2)
      omega

omit [HashFn] in
theorem size_le_dictNextPowerLoop (n i size : ℕ) (h : size ≤ i * 2 ^ n) :
    size ≤ dictNextPowerLoop n i size := by
  induction n generalizing i with
  | zero => simpa [dictNextPowerLoop] using h
  | succ n ih =>
    unfold dictNextPowerLoop
    split_ifs with hi
    · exact hi
    · exact ih (i * 2) (by rwa [mul_assoc, ← pow_succ'])

omit [HashFn] in
theorem le_dictNextPower (size : ℕ) : size ≤ dictNextPower size := by
  refine size_le_dictNextPowerLoop _ _ _ ?_
  have := size.lt_two_pow_self
  unfold dictHtInitialSize
  omega

omit [HashFn] in
theorem dictNextPower_pos (size : ℕ) : 0 < dictNextPower size :=
  lt_of_lt_of_le (by decide) (le_dictNextPowerLoop size dictHtInitialSize size)

theorem dictExpand_same (hw : d.WF) {n : ℕ} {d' : Dict K V} (h : dictExpand d n = some d') :
    Same d d' ∧ d'.ht0.table ≠ [] := by
  have halloc : (Dictht.alloc (dictNextPower n) : Dictht K V).table ≠ [] := by
    have := dictNextPower_pos n
    simp only [Dictht.alloc, ne_eq, replicate_eq_nil_iff]
    omega
  unfold dictExpand at h
  dsimp only at h
  split_ifs at h with h1 h2 h3
  all_goals simp only [some.injEq] at h; subst h
  all_goals have hidle : d.rehashidx = none := by simpa [isRehashing] using (not_or.1 h1).1
  · have h0 : d.ht0.entries = [] := by simp [Dictht.entries, h3]
    have he : d.entries = [] := by
      rw [hw.entries_eq, h0, hw.idle hidle]
      rfl
    have he' : ({ d with ht0 := .alloc (dictNextPower n) } : Dict K V).entries = [] := by
      simp [entries, isRehashing, hidle, Dictht.entries_alloc]
    refine ⟨⟨⟨Dictht.wf_alloc _, hw.ht1, ?_, hw.idle, ?_, ?_⟩, ?_, rfl⟩, halloc⟩
    · rw [he']; exact nodup_nil
    · exact fun hr => by simp [isRehashing, hidle] at hr
    · exact fun r i hr => by simp [hidle] at hr
    · rw [he, he']
  · have he : ({ d with ht1 := .alloc (dictNextPower n), rehashidx := some 0 } : Dict K V).entries
        = d.entries := by
      simp [entries, isRehashing, hidle, Dictht.entries_alloc]
    refine ⟨⟨⟨hw.ht0, Dictht.wf_alloc _, ?_, ?_, fun _ => ⟨h3, halloc⟩, ?_⟩, ?_, rfl⟩, h3⟩
    · rw [he]; exact hw.nodup
    · exact fun hr => by simp at hr
    · intro r i hr hi
      simp only [some.injEq] at hr
      omega
    · rw [he]

theorem dictExpandIfNeeded_some (hw : d.WF) :
    ∃ d', dictExpandIfNeeded d = some d' ∧ Same d d' ∧ d'.ht0.table ≠ [] := by
  have hexp : ∀ n, d.isRehashing = false → d.ht0.used ≤ n → dictNextPower n ≠ d.ht0.size →
      ∃ d', dictExpand d n = some d' := by
    intro n hr hn hsz
    unfold dictExpand
    simp only [hr, Bool.false_eq_true, false_or, Nat.not_lt.2 hn, if_false, hsz]
    split_ifs <;> exact ⟨_, rfl⟩
  unfold dictExpandIfNeeded
  rcases hr : d.isRehashing with _ | _
  · simp only [Bool.false_eq_true, if_false]
    split_ifs with h1 h2
    · have hu : d.ht0.used ≤ dictHtInitialSize := by
        have h0 : d.ht0.table = [] := length_eq_zero_iff.1 h1
        rw [hw.ht0.used, Dictht.entries, h0]
        exact Nat.zero_le _
      obtain ⟨d', hd'⟩ := hexp dictHtInitialSize hr hu (by rw [h1]; exact (dictNextPower_pos _).ne')
      exact ⟨d', hd', dictExpand_same hw hd'⟩
    · have := le_dictNextPower (d.ht0.used * 2)
      obtain ⟨d', hd'⟩ := hexp (d.ht0.used * 2) hr (by omega) (by omega)
      exact ⟨d', hd', dictExpand_same hw hd'⟩
    · refine ⟨d, rfl, hw.same, fun h => h1 ?_⟩
      simp [Dictht.size, h]
  · exact ⟨d, rfl, hw.same, (hw.tables hr).1⟩

theorem dictResize_same (hw : d.WF) {d' : Dict K V} (h : dictResize d = some d') : Same d d' := by
  unfold dictResize at h
  split_ifs at h
  exact (dictExpand_same hw h).1

omit [Text K] [HashFn] in
theorem skipEmpty_spec (h : Dictht K V) (v i : ℕ) :
    match skipEmpty h v i with
    | .found j _ => i ≤ j ∧ ∀ k, i ≤ k → k < j → h.chain k = []
    | .out j => i ≤ j ∧ ∀ k, i ≤ k → k < j → h.chain k = [] := by
  induction v generalizing i with
  | zero => simp only [skipEmpty]; exact ⟨le_rfl, fun k h1 h2 => absurd h2 (by omega)⟩
  | succ v ih =>
    unfold skipEmpty
    split_ifs with h1 h2
    · exact ⟨le_rfl, fun k h1 h2 => absurd h2 (by omega)⟩
    · refine ⟨by omega, fun k hk hk' => ?_⟩
      obtain rfl : k = i := by omega
      simpa using h1
    · have := ih (i + 1)
      rcases hs : skipEmpty h v (i + 1) with ⟨j, w⟩ | j <;> rw [hs] at this <;>
      · refine ⟨by omega, fun k hk hk' => ?_⟩
        rcases Nat.eq_or_lt_of_le hk with rfl | hk
        · simpa using h1
        · exact this.2 k hk hk'

theorem same_advance (hw : d.WF) {r i : ℕ} (hr : d.rehashidx = some r)
    (hi : ∀ k, r ≤ k → k < i → d.ht0.chain k = []) : Same d { d with rehashidx := some i } := by
  have hb : d.isRehashing = true := by simp [isRehashing, hr]
  have he : ({ d with rehashidx := some i } : Dict K V).entries = d.entries := by
    simp [entries, isRehashing, hr]
  refine ⟨⟨hw.ht0, hw.ht1, he ▸ hw.nodup, fun h => by simp at h, fun _ => hw.tables hb, ?_⟩,
    by rw [he], rfl⟩
  intro r' k hr' hk
  simp only [some.injEq] at hr'
  rcases Nat.lt_or_ge k r with hkr | hkr
  · exact hw.moved r k hr hkr
  · exact hi k hkr (by omega)

theorem moveBucket_same (hw : d.WF) {r i : ℕ} (hr : d.rehashidx = some r)
    (hi : ∀ k, r ≤ k → k < i → d.ht0.chain k = []) : Same d (moveBucket d i) := by
  have hb : d.isRehashing = true := by simp [isRehashing, hr]
  obtain ⟨hne0, hne1⟩ := hw.tables hb
  obtain ⟨hw1, hne1', hp1⟩ := Dictht.wf_foldl_push (d.ht0.chain i) hw.ht1 hne1
  have hset : d.ht0.entries.Perm (d.ht0.chain i ++ (d.ht0.table.set i []).flatten) :=
    flatten_set_nil d.ht0.table i
  have hchain : ∀ k, Dictht.chain ⟨d.ht0.table.set i [], d.ht0.used - (d.ht0.chain i).length⟩ k
      = if i = k then [] else d.ht0.chain k := by
    intro k
    simp only [Dictht.chain, List.getD, getElem?_set]
    split_ifs <;> simp
  have hw0 : (moveBucket d i).ht0.WF := by
    refine ⟨fun k e he => ?_, ?_⟩
    · have he' : e ∈ if i = k then [] else d.ht0.chain k := by
        rw [← hchain k]
        exact he
      split_ifs at he' with hik
      · simp at he'
      · have := hw.ht0.home k e he'
        simpa [moveBucket, Dictht.idx, Dictht.sizemask, Dictht.size] using this
    · have := hset.length_eq
      rw [length_append, ← hw.ht0.used] at this
      simp only [moveBucket, Dictht.entries]
      omega
  have hent : (moveBucket d i).entries.Perm d.entries := by
    rw [hw.entries_eq]
    refine ((hp1.append_left _).trans ?_).trans (hset.append_right _).symm
    rw [append_assoc]
    exact perm_append_comm_assoc ..
  refine ⟨⟨hw0, hw1, ?_, fun h => by simp [moveBucket] at h, fun _ => ⟨?_, hne1'⟩, ?_⟩, hent, rfl⟩
  · exact (nodup_texts_perm hent).2 hw.nodup
  · simpa [moveBucket] using hne0
  · intro r' k hr' hk
    simp only [moveBucket, some.injEq] at hr' ⊢
    rw [hchain]
    split_ifs with hik
    · rfl
    · rcases Nat.lt_or_ge k r with hkr | hkr
      · exact hw.moved r k hr hkr
      · exact hi k hkr (by omega)

theorem dictRehashLoop_same (n visits : ℕ) (hw : d.WF) (hb : d.isRehashing = true) :
    Same d (dictRehashLoop n visits d).1 ∧ (dictRehashLoop n visits d).1.isRehashing = true := by
  induction n generalizing d visits with
  | zero => exact ⟨hw.same, hb⟩
  | succ n ih =>
    obtain ⟨r, hr⟩ := isRehashing_iff.1 hb
    unfold dictRehashLoop
    split_ifs with hu
    · exact ⟨hw.same, hb⟩
    have hskip := skipEmpty_spec d.ht0 visits r
    simp only [hr, getD_some]
    rcases hs : skipEmpty d.ht0 visits r with ⟨i, v⟩ | i <;> rw [hs] at hskip
    · have hm := moveBucket_same hw hr hskip.2
      obtain ⟨h1, h2⟩ := ih v hm.wf rfl
      exact ⟨hm.trans h1, h2⟩
    · exact ⟨same_advance hw hr hskip.2, rfl⟩

section

variable (hw : d.WF)

include hw

theorem same_finish (hu : d.ht0.used = 0) :
    Same d { d with ht0 := d.ht1, ht1 := .reset, rehashidx := none } := by
  have h0 : d.ht0.entries = [] := length_eq_zero_iff.1 (hw.ht0.used.symm.trans hu)
  have he : ({ d with ht0 := d.ht1, ht1 := .reset, rehashidx := none } : Dict K V).entries
      = d.entries := by
    rw [hw.entries_eq, h0]
    simp [entries, isRehashing]
  exact ⟨⟨hw.ht1, Dictht.wf_reset, he ▸ hw.nodup, fun _ => rfl,
    fun h => by simp [isRehashing] at h, fun r i h => by simp at h⟩, by rw [he], rfl⟩

theorem dictRehash_same (n : ℕ) : Same d (dictRehash d n).1 := by
  unfold dictRehash
  split_ifs with hb
  · obtain ⟨h1, -⟩ := dictRehashLoop_same n (n * 10) hw hb
    dsimp only
    split_ifs with h3 h4
    · exact h1
    · exact h1.trans (same_finish h1.wf h4)
    · exact h1
  · exact hw.same

theorem rehashStepIf_same : Same d (rehashStepIf d) := by
  unfold rehashStepIf dictRehashStep
  split_ifs
  · exact dictRehash_same hw 1
  · exact hw.same
  · exact hw.same

theorem WF.push0 (hr : d.isRehashing = false) (hne : d.ht0.table ≠ []) {e : K × V}
    (hx : assoc d.entries (text e.1) = none) :
    WF { d with ht0 := d.ht0.push e } ∧
      entries { d with ht0 := d.ht0.push e } = (d.ht0.push e).entries := by
  have he : entries { d with ht0 := d.ht0.push e } = (d.ht0.push e).entries := by
    simp only [entries, isRehashing] at hr ⊢
    simp [hr]
  have he0 : d.entries = d.ht0.entries := by simp [entries, hr]
  have hidle := isRehashing_eq_false.1 hr
  refine ⟨⟨hw.ht0.push hne e, hw.ht1, ?_, hw.idle, fun h => ?_, fun r i h => ?_⟩, he⟩
  · rw [he, nodup_texts_perm (Dictht.entries_push hne e), texts_cons, nodup_cons]
    rw [assoc_eq_none, he0] at hx
    exact ⟨hx, hw.nodup0⟩
  · simp only [isRehashing] at hr h
    simp [hr] at h
  · simp [hidle] at h

theorem dictAdd_spec (k : K) (v : V) :
    (dictAdd d k v).1.WF ∧ (dictAdd d k v).1.iterators = d.iterators ∧
      (dictAdd d k v).2 = (assoc d.entries (text k)).isNone ∧
      (assoc d.entries (text k) = none →
        (dictAdd d k v).1.entries.Perm ((k, v) :: d.entries)) ∧
      ((assoc d.entries (text k)).isSome → (dictAdd d k v).1.entries.Perm d.entries) := by
  have hs := rehashStepIf_same hw
  obtain ⟨d1, hd1, hs1, hne⟩ := dictExpandIfNeeded_some hs.wf
  have hs' := hs.trans hs1
  have hassoc := hs'.assoc_eq (text k)
  unfold dictAdd
  simp only [hd1]
  rw [hs1.wf.find_eq, hassoc]
  rcases ha : assoc d.entries (text k) with _ | e
  · simp only [isSome_none, Bool.false_eq_true, if_false, isNone_none,
      false_implies, and_true, forall_const]
    rcases hr : d1.isRehashing with _ | _
    · simp only [Bool.false_eq_true, if_false]
      obtain ⟨h1, h2⟩ := WF.push0 hs1.wf hr hne (e := (k, v)) (hassoc.trans ha)
      refine ⟨h1, hs'.iterators, trivial, ?_⟩
      rw [h2]
      have he0 : d1.entries = d1.ht0.entries := by simp [entries, hr]
      exact (Dictht.entries_push hne _).trans ((he0 ▸ hs'.perm).cons _)
    · have hne1 := (hs1.wf.tables hr).2
      have he : entries { d1 with ht1 := d1.ht1.push (k, v) }
          = d1.ht0.entries ++ (d1.ht1.push (k, v)).entries := by
        simp only [entries, isRehashing] at hr ⊢
        simp [hr]
      have hp :
          (entries { d1 with ht1 := d1.ht1.push (k, v) }).Perm ((k, v) :: d1.entries) := by
        rw [he, hs1.wf.entries_eq]
        exact ((Dictht.entries_push hne1 _).append_left _).trans perm_middle
      simp only [if_true]
      refine ⟨⟨hs1.wf.ht0, hs1.wf.ht1.push hne1 _, ?_, fun h => ?_, fun _ => ⟨hne, ?_⟩,
        hs1.wf.moved⟩, hs'.iterators, trivial, hp.trans (hs'.perm.cons _)⟩
      · rw [nodup_texts_perm hp, texts_cons, nodup_cons]
        have hx := hassoc.trans ha
        rw [assoc_eq_none] at hx
        exact ⟨hx, hs1.wf.nodup⟩
      · have hidle : d1.rehashidx = none := h
        simp [isRehashing, hidle] at hr
      · rw [← length_pos_iff] at hne1 ⊢
        exact hne1.trans_eq (Dictht.size_push (h := d1.ht1) _).symm
  · simpa using ⟨hs1.wf, hs'.iterators, hs'.perm⟩

theorem Dict.WF.setVal {x : Sds} (hx : (assoc d.entries x).isSome) (v : V) :
    (d.setVal x v).WF ∧ (d.setVal x v).iterators = d.iterators ∧
      (d.setVal x v).entries = d.entries.map (Dictht.put x v) := by
  have hent : (d.setVal x v).entries = d.entries.map (Dictht.put x v) := by
    have hn := hw.nodup
    rw [hw.entries_eq, texts_append, nodup_append'] at hn
    rw [hw.entries_eq, map_append]
    unfold Dict.setVal
    split_ifs with h0
    · -- the entry is in the first table, so none of its text is in the second
      have hm : x ∈ texts d.ht0.entries := by
        by_contra hnot
        rw [hw.ht0.find_eq hw.nodup0, assoc_eq_none.2 hnot] at h0
        simp at h0
      rw [Dictht.map_put_of_not_mem (hn.2.2 hm)]
      simp only [entries, isRehashing, hw.ht0.entries_setVal]
      rcases hr : d.rehashidx with _ | r
      · simp [hw.idle hr, Dictht.reset, Dictht.entries]
      · simp
    · have hm : x ∉ texts d.ht0.entries := by
        rw [← assoc_eq_none, ← hw.ht0.find_eq hw.nodup0]
        simpa using h0
      rw [Dictht.map_put_of_not_mem hm]
      have hr : d.isRehashing = true := by
        by_contra hr
        rw [← hw.find_eq, if_neg hr] at hx
        exact h0 (by simpa using hx)
      simp only [entries, isRehashing, hw.ht1.entries_setVal] at hr ⊢
      simp [hr]
  have hnodup : (texts (d.setVal x v).entries).Nodup := by
    rw [hent, Dictht.texts_map_put]
    exact hw.nodup
  unfold Dict.setVal at hent hnodup ⊢
  split_ifs at hent hnodup ⊢ with h0
  · refine ⟨⟨hw.ht0.setVal x v, hw.ht1, hnodup, hw.idle, fun h => ?_, fun r i hr hi => ?_⟩,
      rfl, hent⟩
    · simpa [Dictht.setVal] using hw.tables h
    · have := hw.moved r i hr hi
      simp only [Dictht.setVal]
      rw [Dictht.chain_modify (.inl rfl), this]
      split_ifs <;> rfl
  · refine ⟨⟨hw.ht0, hw.ht1.setVal x v, hnodup, fun h => ?_, fun h => ?_, hw.moved⟩, rfl, hent⟩
    · have h1 := hw.idle h
      simp [h1, Dictht.setVal, Dictht.reset]
    · simpa [Dictht.setVal] using hw.tables h

theorem dictDelete_spec (x : Sds) :
    (dictDelete d x).1.WF ∧ (dictDelete d x).1.iterators = d.iterators ∧
      (dictDelete d x).2 = assoc d.entries x ∧
      (assoc d.entries x = none → (dictDelete d x).1.entries.Perm d.entries) ∧
      ∀ e, assoc d.entries x = some e → d.entries.Perm (e :: (dictDelete d x).1.entries) := by
  unfold dictDelete
  split_ifs with h0
  · -- no table, no entry
    have hnil : d.entries = [] := by
      have ht : d.ht0.table = [] := length_eq_zero_iff.1 h0
      have hr : d.isRehashing = false := by
        by_contra hr
        exact (hw.tables (by simpa using hr)).1 ht
      simp [entries, hr, Dictht.entries, ht]
    simp [hw, hnil, assoc_nil]
  have hs := rehashStepIf_same hw
  generalize rehashStepIf d = d1 at hs
  have hw1 := hs.wf
  have hfind := hw1.find_eq x
  rw [hs.assoc_eq] at hfind
  dsimp only
  rcases hf0 : d1.ht0.find x with _ | e
  · rw [hf0, none_or] at hfind
    rcases hr : d1.isRehashing with _ | _
    · rw [hr] at hfind
      simp [← hfind, hw1, hs.iterators, hs.perm]
    · rw [hr] at hfind
      simp only [if_true] at hfind ⊢
      rcases hf1 : d1.ht1.find x with _ | e
      · simp [← hfind, hf1, hw1, hs.iterators, hs.perm]
      · rw [hf1] at hfind
        have hp : d1.entries.Perm (e :: entries { d1 with ht1 := d1.ht1.unlink x }) := by
          simp only [entries, isRehashing] at hr ⊢
          simp only [hr, if_true]
          exact ((Dictht.entries_unlink hf1).append_left _).trans perm_middle
        refine ⟨⟨hw1.ht0, hw1.ht1.unlink hf1, ?_, fun h => ?_, fun h => ?_, hw1.moved⟩,
          hs.iterators, hfind, fun h => by simp [← hfind] at h, fun e' he' => ?_⟩
        · have := (nodup_texts_perm hp).1 hw1.nodup
          exact (nodup_cons.1 this).2
        · have hidle : d1.rehashidx = none := h
          simp [isRehashing, hidle] at hr
        · simpa [Dictht.unlink] using hw1.tables h
        · rw [← hfind, some.injEq] at he'
          subst he'
          exact hs.perm.symm.trans hp
  · rw [hf0, some_or] at hfind
    have hp : d1.entries.Perm (e :: entries { d1 with ht0 := d1.ht0.unlink x }) := by
      exact (Dictht.entries_unlink hf0).append_right _
    refine ⟨⟨hw1.ht0.unlink hf0, hw1.ht1, ?_, hw1.idle, fun h => ?_, fun r i hr hi => ?_⟩,
      hs.iterators, hfind, fun h => by simp [← hfind] at h, fun e' he' => ?_⟩
    · have := (nodup_texts_perm hp).1 hw1.nodup
      exact (nodup_cons.1 this).2
    · simpa [Dictht.unlink] using hw1.tables h
    · have := hw1.moved r i hr hi
      simp only [Dictht.unlink]
      rw [Dictht.chain_modify (.inl rfl), this]
      split_ifs <;> rfl
    · rw [← hfind, some.injEq] at he'
      subst he'
      exact hs.perm.symm.trans hp

theorem dictGetRandomKey_spec (r : ℕ) :
    Same d (dictGetRandomKey d r).2 ∧
      ∀ e, (dictGetRandomKey d r).1 = some e → e ∈ d.entries := by
  unfold dictGetRandomKey
  split_ifs with h0
  · exact ⟨hw.same, fun e he => by simp at he⟩
  · have hs := rehashStepIf_same hw
    exact ⟨hs, fun e he => hs.perm.mem_iff.1 (mem_of_getElem? he)⟩

theorem dictGetRandomKey_isSome (h0 : d.size ≠ 0)
    (r : ℕ) : (dictGetRandomKey d r).1.isSome = true := by
  have hpos : 0 < (rehashStepIf d).entries.length := by
    rw [(rehashStepIf_same hw).perm.length_eq, ← hw.size_eq]
    exact Nat.pos_of_ne_zero h0
  rw [dictGetRandomKey, if_neg h0]
  dsimp only
  rw [getElem?_eq_getElem (Nat.mod_lt _ hpos)]
  rfl

end

end Vire
