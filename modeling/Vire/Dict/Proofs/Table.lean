import Mathlib.Data.List.Flatten
import Mathlib.Data.List.Nodup
import Mathlib.Data.List.Perm.Basic
import Vire.Dict.Dict

/-!
# Bucket chains

A table is well formed when every entry is in the bucket of its text and `used` counts the entries.
What `push`, `unlink` and `setVal` do is said of the entries up to order.
-/

namespace Vire

open List

variable {K V : Type} [Text K]

def texts (l : List (K × V)) : List Sds := l.map fun e => text e.1

def assoc (l : List (K × V)) (x : Sds) : Option (K × V) := l.find? fun e => text e.1 == x

@[simp]
theorem texts_append (l l' : List (K × V)) : texts (l ++ l') = texts l ++ texts l' :=
  map_append

@[simp]
theorem texts_cons (e : K × V) (l : List (K × V)) : texts (e :: l) = text e.1 :: texts l := rfl

theorem assoc_nil (x : Sds) : assoc ([] : List (K × V)) x = none := rfl

theorem assoc_append (l l' : List (K × V)) (x : Sds) :
    assoc (l ++ l') x = (assoc l x).or (assoc l' x) := find?_append

variable {l : List (K × V)} {e : K × V} {x : Sds}

theorem mem_of_assoc (h : assoc l x = some e) :
    e ∈ l ∧ text e.1 = x :=
  ⟨mem_of_find?_eq_some h, by simpa using find?_some h⟩

theorem assoc_eq_none : assoc l x = none ↔ x ∉ texts l := by
  simp [assoc, texts]

theorem assoc_eq_some (hn : (texts l).Nodup) :
    assoc l x = some e ↔ e ∈ l ∧ text e.1 = x := by
  refine ⟨mem_of_assoc, fun ⟨hm, hx⟩ => ?_⟩
  rcases h : assoc l x with _ | e'
  · rw [assoc_eq_none] at h
    exact absurd (mem_map.2 ⟨e, hm, hx⟩) h
  · have h' := mem_of_assoc h
    rw [inj_on_of_nodup_map hn h'.1 hm (h'.2.trans hx.symm)]

theorem nodup_texts_perm {l l' : List (K × V)} (h : l.Perm l') :
    (texts l).Nodup ↔ (texts l').Nodup := (h.map _).nodup_iff

theorem assoc_perm {l l' : List (K × V)} (h : l.Perm l') (hn : (texts l).Nodup) (x : Sds) :
    assoc l x = assoc l' x := by
  have hn' : (texts l').Nodup := (nodup_texts_perm h).1 hn
  ext e
  rw [assoc_eq_some hn, assoc_eq_some hn', h.mem_iff]

variable {f : List (K × V) → List (K × V)}

omit [Text K] in
theorem flatten_modify {l : List (List (K × V))} {i : ℕ}
    {a b : List (K × V)} (hi : i < l.length) (hf : (a ++ f (l.getD i [])).Perm (b ++ l.getD i [])) :
    (a ++ (l.modify i f).flatten).Perm (b ++ l.flatten) := by
  induction l generalizing i with
  | nil => simp at hi
  | cons c l ih =>
    cases i with
    | zero =>
      simp only [getD_cons_zero] at hf
      simpa using hf.append_right l.flatten
    | succ i =>
      simp only [getD_cons_succ] at hf
      simp only [modify_succ_cons, flatten_cons]
      have ih' := (ih (by simpa using hi) hf).append_left c
      exact (perm_append_comm_assoc a c _).trans
        (ih'.trans (perm_append_comm_assoc c b _))

omit [Text K] in
theorem flatten_set_nil (l : List (List (K × V))) (i : ℕ) :
    l.flatten.Perm (l.getD i [] ++ (l.set i []).flatten) := by
  induction l generalizing i with
  | nil => simp
  | cons c l ih =>
    cases i with
    | zero => simp
    | succ i =>
      simp only [getD_cons_succ, set_cons_succ, flatten_cons]
      refine ((ih i).append_left c).trans ?_
      simp only [← append_assoc]
      exact perm_append_comm.append_right _

omit [Text K] in
theorem perm_cons_eraseP {p : K × V → Bool} (h : l.find? p = some e) :
    l.Perm (e :: l.eraseP p) := by
  induction l with
  | nil => simp at h
  | cons a l ih =>
    by_cases hp : p a
    · simp only [find?_cons_of_pos hp, Option.some.injEq] at h
      rw [eraseP_cons_of_pos hp, h]
    · rw [find?_cons_of_neg hp] at h
      rw [eraseP_cons_of_neg hp]
      exact ((ih h).cons a).trans (Perm.swap ..)

namespace Dictht

variable [HashFn]

structure WF (h : Dictht K V) : Prop where
  home : ∀ i, ∀ e ∈ h.chain i, h.idx (text e.1) = i
  used : h.used = h.entries.length

variable {h : Dictht K V}

theorem wf_reset : (reset : Dictht K V).WF := ⟨by simp [chain, reset], by simp [reset, entries]⟩

theorem wf_of_lt (hhome : ∀ i < h.size, ∀ e ∈ h.chain i, h.idx (text e.1) = i)
    (hused : h.used = h.entries.length) : h.WF := by
  refine ⟨fun i e he => hhome i ?_ e he, hused⟩
  by_contra hi
  rw [chain, getD, getElem?_eq_none (Nat.le_of_not_lt hi)] at he
  exact not_mem_nil he

theorem wf_alloc (n : ℕ) : (alloc n : Dictht K V).WF := by
  refine ⟨fun i e he => ?_, by simp [alloc, entries]⟩
  by_cases hi : i < n <;> simp [chain, alloc, getD, hi] at he

omit [Text K] [HashFn] in
theorem entries_alloc (n : ℕ) : (alloc n : Dictht K V).entries = [] := by simp [alloc, entries]

omit [Text K] in
theorem idx_lt (hne : h.table ≠ []) (x : Sds) : h.idx x < h.size := by
  have hpos : 0 < h.size := length_pos_iff.2 hne
  have hle : h.idx x ≤ h.size - 1 := Nat.and_le_right
  omega

omit [Text K] [HashFn] in
theorem mem_entries : e ∈ h.entries ↔ ∃ i, e ∈ h.chain i := by
  simp only [entries, chain, mem_flatten]
  constructor
  · rintro ⟨c, hc, he⟩
    obtain ⟨i, hi, rfl⟩ := getElem_of_mem hc
    exact ⟨i, by simpa [getD, hi] using he⟩
  · rintro ⟨i, he⟩
    by_cases hi : i < h.table.length
    · exact ⟨h.table[i], getElem_mem hi, by simpa [getD, hi] using he⟩
    · simp [getD, Nat.le_of_not_lt hi] at he

theorem WF.mem_chain (hw : h.WF) :
    e ∈ h.chain (h.idx (text e.1)) ↔ e ∈ h.entries := by
  rw [mem_entries]
  refine ⟨fun he => ⟨_, he⟩, fun ⟨i, he⟩ => ?_⟩
  rwa [hw.home i e he]

theorem WF.find_eq (hw : h.WF) (hn : (texts h.entries).Nodup) (x : Sds) :
    h.find x = assoc h.entries x := by
  rcases hf : h.find x with _ | e
  · symm
    rw [assoc_eq_none]
    intro hx
    obtain ⟨e, he, rfl⟩ := mem_map.1 hx
    have := find?_eq_none.1 hf e (hw.mem_chain.2 he)
    simp at this
  · symm
    rw [assoc_eq_some hn]
    have hx : text e.1 = x := by simpa using find?_some hf
    have hm := mem_of_find?_eq_some hf
    exact ⟨mem_entries.2 ⟨_, hm⟩, hx⟩

omit [Text K] [HashFn] in
theorem chain_modify {i j : ℕ} {n : ℕ} (hf : f [] = [] ∨ i < h.size) :
    Dictht.chain ⟨h.table.modify i f, n⟩ j = if i = j then f (h.chain j) else h.chain j := by
  simp only [chain, getD, getElem?_modify]
  rcases hj : h.table[j]? with _ | c
  · split_ifs with hij
    · subst hij
      rcases hf with hf | hf
      · simp [hf]
      · rw [getElem?_eq_none_iff] at hj
        exact absurd hf (by simp only [size]; omega)
    · simp
  · split_ifs <;> simp

omit [Text K] in
theorem idx_modify {i n : ℕ} (x : Sds) :
    Dictht.idx ⟨h.table.modify i f, n⟩ x = h.idx x := by
  simp [idx, sizemask, size]

omit [Text K] [HashFn] in
theorem size_modify {i n : ℕ} :
    Dictht.size ⟨h.table.modify i f, n⟩ = h.size := by simp [size]

@[simp]
theorem size_push (e : K × V) : (h.push e).size = h.size := size_modify

theorem entries_push (hne : h.table ≠ []) (e : K × V) :
    (h.push e).entries.Perm (e :: h.entries) :=
  flatten_modify (idx_lt hne _) (a := []) (b := [e]) (Perm.refl _)

theorem WF.push (hw : h.WF) (hne : h.table ≠ []) (e : K × V) : (h.push e).WF := by
  refine ⟨fun i e' he => ?_, ?_⟩
  · simp only [Dictht.push] at he ⊢
    rw [chain_modify (.inr (idx_lt hne _))] at he
    rw [idx_modify]
    split_ifs at he with hi
    · rcases mem_cons.1 he with rfl | he
      · exact hi
      · exact hw.home i e' he
    · exact hw.home i e' he
  · rw [(entries_push hne e).length_eq, length_cons, ← hw.used]
    rfl

theorem entries_unlink (hf : h.find x = some e) :
    h.entries.Perm (e :: (h.unlink x).entries) := by
  have hne : h.table ≠ [] := by
    rintro hnil
    simp [find, chain, hnil] at hf
  exact (flatten_modify (idx_lt hne _) (a := [e]) (b := []) (perm_cons_eraseP hf).symm).symm

theorem WF.unlink (hw : h.WF) (hf : h.find x = some e) : (h.unlink x).WF := by
  refine ⟨fun i e' he => ?_, ?_⟩
  · simp only [Dictht.unlink] at he ⊢
    rw [chain_modify (.inl rfl)] at he
    rw [idx_modify]
    split_ifs at he with hi
    · exact hw.home i e' (mem_of_mem_eraseP he)
    · exact hw.home i e' he
  · have := (entries_unlink hf).length_eq
    rw [length_cons, ← hw.used] at this
    simp only [Dictht.unlink] at this ⊢
    omega

def put (x : Sds) (v : V) (e : K × V) : K × V := if text e.1 == x then (e.1, v) else e

omit [HashFn] in
theorem texts_map_put (l : List (K × V)) (x : Sds) (v : V) : texts (l.map (put x v)) = texts l := by
  simp only [texts, map_map]
  refine map_congr_left fun e _ => ?_
  simp only [Function.comp, put]
  split_ifs <;> rfl

omit [HashFn] in
theorem map_put_of_not_mem (hx : x ∉ texts l) (v : V) :
    l.map (put x v) = l := by
  refine (map_congr_left fun e he => ?_).trans (map_id l)
  have hne : text e.1 ≠ x := fun h => hx (mem_map.2 ⟨e, he, h⟩)
  simp [put, hne]

theorem WF.entries_setVal (hw : h.WF) (x : Sds) (v : V) :
    (h.setVal x v).entries = h.entries.map (put x v) := by
  simp only [entries, Dictht.setVal, map_flatten]
  congr 1
  refine ext_getElem (by simp) fun j hj hj' => ?_
  rw [getElem_modify, getElem_map]
  split_ifs with hi
  · rfl
  -- a bucket other than that of `x` has no entry of text `x`
  · symm
    refine map_put_of_not_mem (fun hx => hi ?_) v
    obtain ⟨e, he, rfl⟩ := mem_map.1 hx
    refine hw.home j e ?_
    have hj1 : j < h.table.length := by simpa using hj'
    simpa [chain, hj1] using he

theorem WF.setVal (hw : h.WF) (x : Sds) (v : V) : (h.setVal x v).WF := by
  refine ⟨fun i e he => ?_, ?_⟩
  · simp only [Dictht.setVal] at he ⊢
    rw [chain_modify (.inl rfl)] at he
    rw [idx_modify]
    split_ifs at he with hi
    · obtain ⟨e', he', rfl⟩ := mem_map.1 he
      have := hw.home i e' he'
      split_ifs <;> exact this
    · exact hw.home i e he
  · rw [hw.entries_setVal, length_map, ← hw.used]
    rfl

theorem wf_foldl_push (c : List (K × V)) (hw : h.WF) (hne : h.table ≠ []) :
    (c.foldl Dictht.push h).WF ∧ (c.foldl Dictht.push h).table ≠ [] ∧
      (c.foldl Dictht.push h).entries.Perm (c ++ h.entries) := by
  induction c generalizing h with
  | nil => exact ⟨hw, hne, Perm.refl _⟩
  | cons e c ih =>
    have hne' : (h.push e).table ≠ [] := by
      rw [← length_pos_iff] at hne ⊢
      exact hne.trans_eq (size_push (h := h) e).symm
    obtain ⟨h1, h2, h3⟩ := ih (hw.push hne e) hne'
    refine ⟨h1, h2, h3.trans ?_⟩
    exact ((entries_push hne e).append_left c).trans perm_middle

end Dictht

end Vire
