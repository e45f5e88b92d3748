import Mathlib.Data.List.GetD
import Vire.Dict.Iterator
import Vire.Dict.Proofs.Scan

/-!
# What a safe iterator has left

`Left d iter es`: the iterator has yet to return the entries `es`.  `dictNext` returns the first of
them, and deleting an entry that is not among them does not change them, as long as no rehash step
is made.
-/

namespace Vire

open List Option

variable {K V : Type}

def Dict.after (d : Dict K V) (table : Bool) (i : ℕ) : List (K × V) :=
  ((d.ht table).table.drop i).flatten ++ if d.isRehashing && !table then d.ht1.entries else []

theorem Dict.after_zero (d : Dict K V) : d.after false 0 = d.entries := by
  simp [Dict.after, Dict.ht, Dict.entries, Dictht.entries]

variable {i : ℕ}

theorem Dict.after_of_lt (d : Dict K V) {table : Bool} (hi : i < (d.ht table).size) :
    d.after table i = (d.ht table).chain i ++ d.after table (i + 1) := by
  rw [Dict.after, Dict.after, drop_eq_getElem_cons hi, flatten_cons, append_assoc,
    Dictht.chain, getD_eq_getElem _ _ hi]

theorem Dict.after_of_le (d : Dict K V) {table : Bool} (hi : (d.ht table).size ≤ i) :
    d.after table i = if d.isRehashing && !table then d.ht1.entries else [] := by
  rw [Dict.after, drop_eq_nil_of_le hi, flatten_nil, nil_append]

def Dict.entered (d : Dict K V) (iter : DictIterator) : Dict K V :=
  if iter.unused then { d with iterators := d.iterators + 1 } else d

section

variable (d : Dict K V) (iter : DictIterator)

@[simp]
theorem Dict.ht_entered (table : Bool) : (d.entered iter).ht table = d.ht table := by
  unfold Dict.entered
  split_ifs <;> rfl

@[simp]
theorem Dict.ht1_entered : (d.entered iter).ht1 = d.ht1 := d.ht_entered iter true

@[simp]
theorem Dict.isRehashing_entered : (d.entered iter).isRehashing = d.isRehashing := by
  unfold Dict.entered
  split_ifs <;> rfl

@[simp]
theorem Dict.after_entered (table : Bool) (i : ℕ) :
    (d.entered iter).after table i = d.after table i := by
  simp [Dict.after]

theorem Dict.entered_of_index (h : iter.index = some i) : d.entered iter = d := by
  simp [Dict.entered, DictIterator.unused, h]

end

variable [Text K]

inductive Left (d : Dict K V) (iter : DictIterator) : List (K × V) → Prop
  | between (hentry : iter.entry = none) :
    Left d iter (d.after iter.table (iter.index.elim 0 (· + 1)))
  | inside {x : Sds} {i : ℕ} {before rest : List (K × V)} (hentry : iter.entry = some x)
      (hindex : iter.index = some i) (hchain : (d.ht iter.table).chain i = before ++ rest)
      (hnext : iter.nextEntry = headText rest) : Left d iter (rest ++ d.after iter.table (i + 1))

theorem left_start (d : Dict K V) : Left d dictGetSafeIterator d.entries := by
  rw [← d.after_zero]
  exact .between rfl

def Yields (d : Dict K V) : List (K × V) → Option Sds × DictIterator × Dict K V → Prop
  | [], r => r.1 = none ∧ r.2.1.unused = false ∧ r.2.2 = d
  | e :: es, r => r.1 = some (text e.1) ∧ r.2.1.unused = false ∧ r.2.2 = d ∧ Left d r.2.1 es

def Dict.bucketsLeft (d : Dict K V) (iter : DictIterator) : ℕ :=
  ((d.ht iter.table).size - iter.index.elim 0 (· + 1)) + if d.isRehashing && !iter.table
    then d.ht1.size else 0

section

variable {d d' : Dict K V} {iter iter' : DictIterator} {n i : ℕ}

theorem yields_head (hturn : dictNextTurn d iter = (iter', d', false))
    (hindex : iter'.index = some i) (hentry : iter'.entry = headText ((d'.ht iter'.table).chain i))
    (hrest : iter'.entry = none →
      Yields d' (d'.after iter'.table (i + 1)) (dictNextLoop n d' iter')) :
    Yields d' ((d'.ht iter'.table).chain i ++ d'.after iter'.table (i + 1))
      (dictNextLoop (n + 1) d iter) := by
  rw [dictNextLoop, hturn]
  dsimp only
  rcases hchain : (d'.ht iter'.table).chain i with _ | ⟨e, c⟩
  · have hnone : iter'.entry = none := by rw [hentry, hchain]; rfl
    rw [hnone, nil_append]
    exact hrest hnone
  · have hsome : iter'.entry = some (text e.1) := by rw [hentry, hchain]; rfl
    have hsplit : (d'.ht iter'.table).chain i = [e] ++ c := hchain
    rw [hsome, hindex, getD_some, hchain]
    refine ⟨rfl, by simp [DictIterator.unused], rfl, .inside rfl rfl hsplit ?_⟩
    simp [nextText]

theorem dictNextTurn_none (hentry : iter.entry = none) :
    dictNextTurn d iter =
      let index := iter.index.elim 0 (· + 1)
      if index < (d.ht iter.table).size then
        ({ iter with index := some index, entry := headText ((d.ht iter.table).chain index) },
          d.entered iter, false)
      else if d.isRehashing && !iter.table then
        ({ iter with table := true, index := some 0, entry := headText (d.ht1.chain 0) },
          d.entered iter, false)
      else ({ iter with index := some index }, d.entered iter, true) := by
  rw [← d.ht_entered iter iter.table, ← d.isRehashing_entered iter, ← d.ht1_entered iter,
    dictNextTurn, hentry]
  rfl

end

theorem dictNextLoop_between (n : ℕ) :
    ∀ (d : Dict K V) (iter : DictIterator), (d.isRehashing = true → 0 < d.ht1.size) →
      iter.entry = none → d.bucketsLeft iter < n →
      Yields (d.entered iter) (d.after iter.table (iter.index.elim 0 (· + 1)))
        (dictNextLoop n d iter) := by
  induction n with
  | zero => exact fun d iter _ _ hn => absurd hn (Nat.not_lt_zero _)
  | succ n ih =>
    intro d iter htable hentry hn
    have hturn := dictNextTurn_none (d := d) hentry
    dsimp only at hturn
    -- the iterator comes to bucket `i` of table `t`
    have hstep : ∀ (t : Bool) (i : ℕ), i < (d.ht t).size →
        ((d.ht t).size - (i + 1)) + (if d.isRehashing && !t then d.ht1.size else 0) < n →
        dictNextTurn d iter =
          (⟨t, some i, headText ((d.ht t).chain i), iter.nextEntry⟩, d.entered iter, false) →
        Yields (d.entered iter) (d.after t i) (dictNextLoop (n + 1) d iter) := by
      intro t i hi hleft hturn
      rw [d.after_of_lt hi, ← d.ht_entered iter, ← d.after_entered iter]
      refine yields_head hturn rfl (by rw [d.ht_entered]) fun hnone => ?_
      have hloop := ih (d.entered iter) ⟨t, some i, headText ((d.ht t).chain i), iter.nextEntry⟩
        (by simpa using htable) hnone (by simpa [Dict.bucketsLeft] using hleft)
      rwa [Dict.entered_of_index _ _ rfl] at hloop
    rw [Dict.bucketsLeft] at hn
    split_ifs at hturn with hlt hmore
    · exact hstep iter.table _ hlt (by omega) hturn
    · obtain ⟨hr, ht⟩ : d.isRehashing = true ∧ iter.table = false := by simpa using hmore
      have hafter : d.after iter.table (iter.index.elim 0 (· + 1)) = d.after true 0 := by
        rw [d.after_of_le (Nat.le_of_not_lt hlt), if_pos hmore]
        simp [Dict.after, Dict.ht, Dictht.entries]
      have hpos := htable hr
      rw [if_pos hmore] at hn
      rw [hafter]
      refine hstep true 0 hpos ?_ hturn
      simp only [Dict.ht, Bool.not_true, Bool.and_false, Bool.false_eq_true, if_true, if_false]
      omega
    · rw [d.after_of_le (Nat.le_of_not_lt hlt), if_neg hmore, dictNextLoop, hturn]
      exact ⟨rfl, by simp [DictIterator.unused], rfl⟩

theorem nextText_of_nodup {before rest : List (K × V)} {e : K × V}
    (h : (texts (before ++ e :: rest)).Nodup) :
    nextText (before ++ e :: rest) (text e.1) = headText rest := by
  have hbefore : ∀ f ∈ before, (text f.1 != text e.1) = true := by
    intro f hf
    rw [texts_append, texts_cons, nodup_append] at h
    exact bne_iff_ne.mpr (h.2.2 _ (mem_map.mpr ⟨f, hf, rfl⟩) _ mem_cons_self)
  rw [nextText, dropWhile_append_of_pos hbefore, dropWhile_cons_of_neg (by simp), tail_cons]

variable [HashFn] {d : Dict K V} {iter : DictIterator} {es : List (K × V)}

theorem Dict.WF.nodup_chain (hw : d.WF) (table : Bool) (i : ℕ) :
    (texts ((d.ht table).chain i)).Nodup := by
  have hsub : ((d.ht table).chain i).Sublist (d.ht table).entries := Dictht.chain_sublist _ i
  refine (hsub.map _).nodup ?_
  cases table with
  | false => exact hw.nodup0
  | true => exact hw.nodup1

theorem dictNext_yields (hw : d.WF) (h : Left d iter es) :
    Yields (d.entered iter) es (dictNext d iter) := by
  have htable : d.isRehashing = true → 0 < d.ht1.size :=
    fun hr => length_pos_iff.mpr (hw.tables hr).2
  have hbuckets : ∀ iter : DictIterator, d.bucketsLeft iter ≤ d.ht0.size + d.ht1.size := by
    intro iter
    unfold Dict.bucketsLeft Dict.ht
    cases iter.table with
    | false =>
      simp only [Bool.false_eq_true, if_false]
      split_ifs <;> omega
    | true =>
      simp only [if_true, Bool.not_true, Bool.and_false, Bool.false_eq_true, if_false]
      omega
  cases h with
  | between hentry =>
    have := hbuckets iter
    exact dictNextLoop_between _ d iter htable hentry (by omega)
  | @inside x i before rest hentry hindex hchain hnext =>
    obtain ⟨table, index, entry, nextEntry⟩ := iter
    subst hentry hindex hnext
    have hturn : dictNextTurn d ⟨table, some i, some x, headText rest⟩ =
        (⟨table, some i, headText rest, headText rest⟩, d, false) := rfl
    rw [Dict.entered_of_index _ _ rfl, dictNext, dictNextLoop, hturn]
    cases rest with
    | nil =>
      have hloop :=
        dictNextLoop_between (d.ht0.size + d.ht1.size + 1) d ⟨table, some i, none, none⟩ htable rfl
        (Nat.lt_succ_of_le (hbuckets _))
      rwa [Dict.entered_of_index _ _ rfl] at hloop
    | cons e rest =>
      have hnodup := hchain ▸ hw.nodup_chain table i
      have hsplit : (d.ht table).chain i = (before ++ [e]) ++ rest := by
        rw [hchain, append_assoc]; rfl
      refine ⟨rfl, rfl, rfl, .inside rfl rfl hsplit ?_⟩
      dsimp only [getD_some]
      rw [hchain]
      exact nextText_of_nodup hnodup

theorem Dict.WF.after_sublist (hw : d.WF) (table : Bool) (i : ℕ) :
    (d.after table i).Sublist d.entries := by
  have hdrop : ∀ h : Dictht K V, ((h.table.drop i).flatten).Sublist h.entries := fun h =>
    (drop_sublist i h.table).flatten
  cases table with
  | false => exact (hdrop d.ht0).append (by simp)
  | true =>
    rw [Dict.after, Bool.not_true, Bool.and_false, if_neg Bool.false_ne_true, append_nil,
      hw.entries_eq]
    exact (hdrop d.ht1).trans (sublist_append_right _ _)

theorem Left.sublist (h : Left d iter es) (hw : d.WF) : es.Sublist d.entries := by
  cases h with
  | between hentry => exact hw.after_sublist _ _
  | @inside x i before rest hentry hindex hchain hnext =>
    refine Sublist.trans ?_ (hw.after_sublist iter.table i)
    by_cases hi : i < (d.ht iter.table).size
    · rw [d.after_of_lt hi, hchain]
      exact (sublist_append_right _ _).append_right _
    · have hnil : (d.ht iter.table).chain i = [] := getD_eq_default _ _ (Nat.le_of_not_lt hi)
      rw [hchain, append_eq_nil_iff] at hnil
      rw [hnil.2, nil_append, d.after_of_le (Nat.le_of_not_lt hi),
        d.after_of_le (Nat.le_succ_of_le (Nat.le_of_not_lt hi))]

theorem Dictht.drop_unlink (h : Dictht K V) {x : Sds} (hx : x ∉ texts (h.table.drop i).flatten) :
    (h.unlink x).table.drop i = h.table.drop i := by
  refine ext_getElem? fun j => ?_
  rw [getElem?_drop, getElem?_drop, Dictht.unlink, getElem?_modify]
  rcases hj : h.table[i + j]? with _ | c
  · rfl
  · have hc : c ∈ h.table.drop i := mem_of_getElem? (by rw [getElem?_drop, hj])
    have hnot : ∀ e ∈ c, ¬(text e.1 == x) = true := by
      intro e he heq
      exact hx (mem_map.mpr ⟨e, mem_flatten.mpr ⟨c, hc, he⟩, beq_iff_eq.mp heq⟩)
    simp only [Option.map_eq_map, map_some, Option.some.injEq]
    split_ifs
    · exact eraseP_of_forall_not hnot
    · rfl

theorem Dictht.chain_unlink (h : Dictht K V) {x : Sds} {before rest : List (K × V)}
    (hchain : h.chain i = before ++ rest) (hx : x ∉ texts rest) :
    ∃ before', (h.unlink x).chain i = before' ++ rest := by
  have hnot : ∀ e ∈ rest, ¬(text e.1 == x) = true := fun e he heq =>
    hx (mem_map.mpr ⟨e, he, beq_iff_eq.mp heq⟩)
  rw [Dictht.unlink, Dictht.chain_modify (.inl rfl), hchain]
  split_ifs
  · rw [eraseP_append]
    split_ifs
    · exact ⟨_, rfl⟩
    · exact ⟨before, by rw [eraseP_of_forall_not hnot]⟩
  · exact ⟨before, rfl⟩

theorem dictDelete_in_place (hiter : d.iterators ≠ 0) (x : Sds) :
    (dictDelete d x).1.isRehashing = d.isRehashing ∧
      ∀ table, (dictDelete d x).1.ht table = d.ht table ∨ (dictDelete d x).1.ht table =
        (d.ht table).unlink x := by
  have hstep : rehashStepIf d = d := by
    unfold rehashStepIf dictRehashStep
    rw [if_neg hiter, ite_self]
  unfold dictDelete
  rw [hstep]
  split_ifs
  · exact ⟨rfl, fun _ => .inl rfl⟩
  · dsimp only
    cases d.ht0.find x with
    | some e =>
      refine ⟨rfl, fun table => ?_⟩
      cases table with
      | false => exact .inr rfl
      | true => exact .inl rfl
    | none =>
      split_ifs
      · cases d.ht1.find x with
        | some e =>
          refine ⟨rfl, fun table => ?_⟩
          cases table with
          | false => exact .inl rfl
          | true => exact .inr rfl
        | none => exact ⟨rfl, fun _ => .inl rfl⟩
      · exact ⟨rfl, fun _ => .inl rfl⟩

theorem Left.dictDelete (h : Left d iter es) (hiter : d.iterators ≠ 0) {x : Sds}
    (hx : x ∉ texts es) :
    Left (dictDelete d x).1 iter es := by
  obtain ⟨hrehash, hht⟩ := dictDelete_in_place hiter x
  have hdrop : ∀ table i, x ∉ texts ((d.ht table).table.drop i).flatten →
      ((Vire.dictDelete d x).1.ht table).table.drop i = (d.ht table).table.drop i := by
    intro table i hx
    rcases hht table with heq | heq
    · rw [heq]
    · rw [heq, Dictht.drop_unlink _ hx]
  have hafter : ∀ table i, x ∉ texts (d.after table i) → (Vire.dictDelete d x).1.after table i =
      d.after table i := by
    intro table i hx
    rw [Dict.after, texts_append, mem_append, not_or] at hx
    rw [Dict.after, Dict.after, hdrop table i hx.1, hrehash]
    congr 1
    split_ifs with hmore
    · rw [if_pos hmore] at hx
      exact congrArg flatten (hdrop true 0 hx.2)
    · rfl
  cases h with
  | between hentry =>
    rw [← hafter _ _ hx]
    exact .between hentry
  | @inside y i before rest hentry hindex hchain hnext =>
    rw [texts_append, mem_append, not_or] at hx
    rw [← hafter _ _ hx.2]
    rcases hht iter.table with heq | heq
    · exact .inside hentry hindex (heq ▸ hchain) hnext
    · obtain ⟨before', hbefore⟩ := Dictht.chain_unlink _ hchain hx.1
      exact .inside hentry hindex (heq ▸ hbefore) hnext

end Vire
