import Vire.Keyspace.Proofs.Object
import Vire.Keyspace.Type.Ziplist

/-!
# Ziplists of strings and of pairs

An entry that was made of a string has the text of that string, and is found by it and by no other,
whatever the width of its field for the length of the entry before is.
-/

namespace Vire

open List

variable {s : Sds}

theorem zipTryEncoding_some {v : ℤ} (h : zipTryEncoding s = some v) :
    string2ll s = some v := by
  unfold zipTryEncoding at h
  split_ifs at h
  exact h

theorem zipEntry_cases (s : Sds) :
    (∃ v, zipTryEncoding s = some v ∧ zipEntry s = .int v) ∨
      zipTryEncoding s = none ∧ zipEntry s = .str s := by
  unfold zipEntry
  cases h : zipTryEncoding s with
  | none => exact .inr ⟨rfl, rfl⟩
  | some v => exact .inl ⟨v, rfl, rfl⟩

@[simp]
theorem text_zipEntry (s : Sds) : text (zipEntry s) = s := by
  rcases zipEntry_cases s with ⟨v, hv, he⟩ | ⟨-, he⟩
  · rw [he]
    exact (ll2string_of_string2ll (zipTryEncoding_some hv)).1
  · rw [he]
    rfl

theorem zipEntry_object_denotes (s : Sds) (h : Heap) : ((zipEntry s).object h).1.Denotes s := by
  rcases zipEntry_cases s with ⟨v, hv, he⟩ | ⟨-, he⟩
  · obtain ⟨htext, hlo, hhi⟩ := ll2string_of_string2ll (zipTryEncoding_some hv)
    rw [he]
    exact (Made.createStringObjectFromLongLong hlo hhi htext h).denotes
  · rw [he]
    exact createStringObject_denotes s h

def ZipEntry.Fits : ZipEntry → Prop
  | str _ => True
  | int v => llongMin ≤ v ∧ v ≤ llongMax

theorem fits_zipEntry (s : Sds) : (zipEntry s).Fits := by
  rcases zipEntry_cases s with ⟨v, hv, he⟩ | ⟨-, he⟩ <;> rw [he]
  · exact (ll2string_of_string2ll (zipTryEncoding_some hv)).2
  · trivial

theorem zipTryEncoding_eq_some_iff {v : ℤ} (hv : llongMin ≤ v ∧ v ≤ llongMax) (s : Sds) :
    zipTryEncoding s = some v ↔ ll2string v = s := by
  refine ⟨fun h => (ll2string_of_string2ll (zipTryEncoding_some h)).1, ?_⟩
  rintro rfl
  have hread := string2ll_ll2string hv.1 hv.2
  have hlen := length_ll2string_le hv.1 hv.2
  have hne : (ll2string v).length ≠ 0 := by
    intro h0
    rw [length_eq_zero_iff.mp h0] at hread
    simp [string2ll] at hread
  rw [zipTryEncoding, if_neg (by omega), hread]

theorem ziplistCompare_eq {e : Zlentry} (h : e.content.Fits) (s : Sds) :
    ziplistCompare e s = decide (text e = s) := by
  obtain ⟨wide, t | v⟩ := e
  · exact beq_eq_decide t s
  · have hiff : zipTryEncoding s = some v ↔ ll2string v = s := zipTryEncoding_eq_some_iff h s
    have htext : text (⟨wide, .int v⟩ : Zlentry) = ll2string v := rfl
    rw [Bool.eq_iff_iff, decide_eq_true_iff, htext, ← hiff, ziplistCompare]
    cases zipTryEncoding s with
    | none => simp
    | some w => rw [beq_iff_eq, Option.some.injEq, eq_comm]

theorem ziplistCompare_zipEntry (wide : Bool) (t s : Sds) :
    ziplistCompare ⟨wide, zipEntry t⟩ s = decide (t = s) := by
  have htext : text (⟨wide, zipEntry t⟩ : Zlentry) = t := text_zipEntry t
  rw [ziplistCompare_eq (fits_zipEntry t), htext]

theorem zipIntSize_le (v : ℤ) : zipIntSize v ≤ 8 := by
  unfold zipIntSize
  split_ifs <;> omega

theorem ZipEntry.size_pos (e : ZipEntry) : 1 ≤ e.size := by
  cases e with
  | str s =>
    rw [ZipEntry.size]
    split_ifs <;> omega
  | int v => exact Nat.le_add_right 1 _

theorem contents_cascadeUpdate (cur : Zlentry) (zl : Ziplist) :
    (ziplistCascadeUpdate cur zl).map Zlentry.content = zl.map Zlentry.content := by
  induction zl generalizing cur with
  | nil => rfl
  | cons next zl ih =>
    rw [ziplistCascadeUpdate]
    split_ifs
    · rw [map_cons, ih, map_cons]
    · rfl

theorem contents_setPrevLen (len : ℕ) (zl : Ziplist) :
    (ziplistSetPrevLen len zl).map Zlentry.content = zl.map Zlentry.content := by
  cases zl with
  | nil => rfl
  | cons next zl =>
    rw [ziplistSetPrevLen, map_cons, map_cons]
    split_ifs
    · rfl
    · rw [contents_cascadeUpdate]

theorem contents_deleteFrom (zl : Ziplist) (p num : ℕ) :
    (ziplistDeleteFrom zl p num).map Zlentry.content =
      (zl.map Zlentry.content).take p ++ (zl.map Zlentry.content).drop (p + num) := by
  rw [ziplistDeleteFrom]
  split_ifs with hnum
  · rw [hnum, Nat.add_zero, take_append_drop]
  · rw [map_append, contents_setPrevLen, map_take, map_drop]

variable {zl zl' : Ziplist} {p : ℕ}

theorem contents_insert (h : ziplistInsert zl p s = some zl') :
    zl'.map Zlentry.content =
      (zl.map Zlentry.content).take p ++ zipEntry s :: (zl.map Zlentry.content).drop p := by
  unfold ziplistInsert at h
  dsimp only at h
  split_ifs at h
  cases h
  rw [map_append, map_cons, contents_setPrevLen, map_take, map_drop]

variable {ss : List Sds}

theorem contents_deleteFrom_zipEntry (h : zl.map Zlentry.content = ss.map zipEntry) (p num : ℕ) :
    (ziplistDeleteFrom zl p num).map Zlentry.content =
      (ss.take p ++ ss.drop (p + num)).map zipEntry := by
  rw [contents_deleteFrom, h, map_append, map_take, map_drop]

theorem contents_replace (hp : p < zl.length)
    (hins : ziplistInsert (ziplistDelete zl p) p s = some zl') :
    zl'.map Zlentry.content = (zl.map Zlentry.content).set p (zipEntry s) := by
  have hlt : p < (zl.map Zlentry.content).length := by rwa [length_map]
  have hlen : ((zl.map Zlentry.content).take p).length = p := by
    rw [length_take, Nat.min_eq_left hlt.le]
  rw [contents_insert hins, ziplistDelete, contents_deleteFrom, take_left' hlen, drop_left' hlen,
    set_eq_take_append_cons_drop, if_pos hlt]

/-- The field of the first entry has one byte: no entry is before it. -/
def NarrowHead (zl : Ziplist) : Prop := zl.head?.any Zlentry.wide = false

theorem narrowHead_setPrevLen {len : ℕ} (hlen : len < zipBigLen) (zl : Ziplist) :
    NarrowHead (ziplistSetPrevLen len zl) := by
  cases zl with
  | nil => rfl
  | cons next zl => simp [NarrowHead, ziplistSetPrevLen, hlen]

theorem NarrowHead.take_append (h : NarrowHead zl) (hp : 0 < p)
    (hzl : zl ≠ []) (zl' : Ziplist) : NarrowHead (zl.take p ++ zl') := by
  cases zl with
  | nil => exact absurd rfl hzl
  | cons e zl =>
    obtain ⟨p, rfl⟩ := Nat.exists_eq_add_one_of_ne_zero hp.ne'
    exact h

theorem NarrowHead.deleteFrom (h : NarrowHead zl) (p num : ℕ) :
    NarrowHead (ziplistDeleteFrom zl p num) := by
  rw [ziplistDeleteFrom]
  split_ifs
  · exact h
  · rcases Nat.eq_zero_or_pos p with rfl | hp
    · exact narrowHead_setPrevLen (Nat.zero_lt_succ _) _
    · by_cases hzl : zl = []
      · subst hzl
        simp [NarrowHead, ziplistSetPrevLen]
      · exact h.take_append hp hzl _

theorem NarrowHead.insert (h : NarrowHead zl)
    (hins : ziplistInsert zl p s = some zl') : NarrowHead zl' := by
  unfold ziplistInsert at hins
  dsimp only at hins
  split_ifs at hins
  cases hins
  by_cases hp : 0 < p ∧ zl ≠ []
  · exact h.take_append hp.1 hp.2 _
  · have htake : zl.take p = [] := by
      rw [take_eq_nil_iff]
      by_contra hor
      exact hp ⟨Nat.pos_of_ne_zero fun h => hor (.inl h), fun h => hor (.inr h)⟩
    rw [htake]
    rfl

theorem contents_push_tail (zl : Ziplist) (s : Sds) :
    ∃ zl', ziplistPush zl s .tail = some zl' ∧ zl'.map Zlentry.content =
      zl.map Zlentry.content ++ [zipEntry s] := by
  obtain ⟨zl', hpush⟩ : ∃ zl', ziplistPush zl s .tail = some zl' := by
    rw [ziplistPush, ziplistInsert, drop_length, if_neg (fun hc => Bool.false_ne_true hc.1)]
    exact ⟨_, rfl⟩
  refine ⟨zl', hpush, ?_⟩
  rw [contents_insert hpush, take_of_length_le (Nat.le_of_eq (length_map _)),
    drop_eq_nil_of_le (Nat.le_of_eq (length_map _))]

theorem NarrowHead.push_some (h : NarrowHead zl) (s : Sds) (w : Where) :
    ∃ zl', ziplistPush zl s w = some zl' := by
  cases w with
  | head =>
    rw [ziplistPush, ziplistInsert, drop_zero,
      if_neg (fun hc => Bool.false_ne_true (h.symm.trans hc.1))]
    exact ⟨_, rfl⟩
  | tail =>
    obtain ⟨zl', hpush, -⟩ := contents_push_tail zl s
    exact ⟨zl', hpush⟩

theorem ziplistInsert_delete_some (zl : Ziplist) (hp : p < zl.length) (s : Sds) :
    ∃ zl', ziplistInsert (ziplistDelete zl p) p s = some zl' := by
  have hlen : (zl.take p).length = p := by rw [length_take, Nat.min_eq_left hp.le]
  rw [ziplistDelete, ziplistDeleteFrom, if_neg Nat.one_ne_zero, ziplistInsert]
  simp only [take_left' hlen, drop_left' hlen]
  rw [if_neg ?_]
  · exact ⟨_, rfl⟩
  · rintro ⟨hwide, hshort⟩
    cases hrest : zl.drop (p + 1) with
    | nil =>
      rw [hrest] at hwide
      cases hwide
    | cons next rest =>
      rw [hrest, ziplistSetPrevLen] at hwide
      have hbig : zipBigLen ≤ ziplistPrevLen (zl.take p) := by simpa using hwide
      simp only [Zlentry.rawlen, hbig, decide_true, if_true] at hshort
      omega

theorem Zlentry.two_le_rawlen (e : Zlentry) : 2 ≤ e.rawlen := by
  have := e.content.size_pos
  rw [Zlentry.rawlen]
  split_ifs <;> omega

theorem zipIntSize_le_length (v : ℤ) : zipIntSize v ≤ (ll2string v).length + 4 := by
  by_cases hv : v.natAbs < 10 ^ 4
  · have : zipIntSize v ≤ 4 := by
      unfold zipIntSize
      split_ifs <;> omega
    omega
  · have hlen : 4 ≤ (decimal v.natAbs).length := by
      rw [length_decimal_add 4 (Nat.not_lt.mp hv)]
      exact Nat.le_add_right ..
    have := zipIntSize_le v
    unfold ll2string
    split_ifs
    · rw [length_cons]
      omega
    · omega

theorem size_zipEntry_le (s : Sds) : (zipEntry s).size ≤ s.length + 5 := by
  rcases zipEntry_cases s with ⟨v, hv, he⟩ | ⟨-, he⟩
  · have := zipIntSize_le_length v
    rw [(ll2string_of_string2ll (zipTryEncoding_some hv)).1] at this
    rw [he, ZipEntry.size]
    omega
  · rw [he, ZipEntry.size]
    split_ifs <;> omega

def Short (s : Sds) : Prop := s.length ≤ 64

/-- The bytes of strings in a ziplist, with the most that is put in front of a string. -/
def zipBytes (ss : List Sds) : ℕ := (ss.map fun s => s.length + 10).sum

theorem sum_rawlen (h : zl.map Zlentry.content = ss.map zipEntry) :
    2 * ss.length ≤ (zl.map Zlentry.rawlen).sum ∧ (zl.map Zlentry.rawlen).sum ≤ zipBytes ss := by
  induction zl generalizing ss with
  | nil =>
    cases ss with
    | nil => exact ⟨le_rfl, le_rfl⟩
    | cons s ss => cases h
  | cons e zl ih =>
    cases ss with
    | nil => cases h
    | cons s ss =>
      obtain ⟨he, hrest⟩ := cons.inj h
      obtain ⟨hlo, hhi⟩ := ih hrest
      have htwo := e.two_le_rawlen
      have hraw : e.rawlen ≤ s.length + 10 := by
        have := size_zipEntry_le s
        rw [Zlentry.rawlen, he]
        split_ifs <;> omega
      simp only [zipBytes, map_cons, sum_cons, length_cons] at hhi ⊢
      omega

theorem zipBytes_le (h : ∀ s ∈ ss, Short s) : zipBytes ss ≤ 74 * ss.length := by
  induction ss with
  | nil => exact Nat.le_refl _
  | cons s ss ih =>
    obtain ⟨hs, hss⟩ := forall_mem_cons.mp h
    have hrest := ih hss
    unfold Short at hs
    simp only [zipBytes, map_cons, sum_cons, length_cons] at hrest ⊢
    omega

theorem ziplistBlobLen_bounds
    (h : zl.map Zlentry.content = ss.map zipEntry) (hlt : zipBytes ss + 11 < 2 ^ 32) :
    2 * ss.length + 11 ≤ ziplistBlobLen zl ∧ ziplistBlobLen zl ≤ zipBytes ss + 11 := by
  obtain ⟨hlo, hhi⟩ := sum_rawlen h
  rw [ziplistBlobLen, Nat.mod_eq_of_lt (by omega)]
  omega

def narrow (s : Sds) : Zlentry := ⟨false, zipEntry s⟩

@[simp]
theorem text_narrow (s : Sds) : text (narrow s) = s := text_zipEntry s

theorem Robj.Denotes.short {o : Robj} (ho : o.Denotes s)
    (hsds : o.sdsEncoded = true → (text o).length ≤ 64) : Short s := by
  have htext := ho.text_eq
  unfold Robj.Denotes at ho
  unfold Robj.sdsEncoded at hsds
  rcases he : o.enc with t | t | i | _ <;> rw [he] at ho hsds
  · exact htext ▸ hsds rfl
  · exact htext ▸ hsds rfl
  · exact ho.2.2 ▸ (length_ll2string_le ho.1 ho.2.1).trans (by omega)
  · exact ho.elim

def flatPairs (ps : List (Sds × Sds)) : List Sds := ps.flatMap fun p => [p.1, p.2]

@[simp]
theorem flatPairs_nil : flatPairs [] = [] := rfl

@[simp]
theorem flatPairs_cons (p : Sds × Sds) (ps : List (Sds × Sds)) :
    flatPairs (p :: ps) = p.1 :: p.2 :: flatPairs ps := rfl

@[simp]
theorem flatPairs_append (ps qs : List (Sds × Sds)) :
    flatPairs (ps ++ qs) = flatPairs ps ++ flatPairs qs := flatMap_append

@[simp]
theorem length_flatPairs (ps : List (Sds × Sds)) : (flatPairs ps).length = 2 * ps.length := by
  induction ps with
  | nil => rfl
  | cons p ps ih =>
    rw [flatPairs_cons, length_cons, length_cons, ih, length_cons]
    omega

/-- The contents are those of the pairs, whatever the fields for the lengths look like. -/
def Flat (zl : Ziplist) (ps : List (Sds × Sds)) :
    Prop := zl.map Zlentry.content = (flatPairs ps).map zipEntry

def zipFlat (ps : List (Sds × Sds)) : Ziplist := (flatPairs ps).map narrow

theorem flat_zipFlat (ps : List (Sds × Sds)) : Flat (zipFlat ps) ps := by
  rw [Flat, zipFlat, map_map]
  rfl

namespace Flat

variable {zl : Ziplist} {ps qs : List (Sds × Sds)} {f v : Sds}

theorem map_text (h : Flat zl ps) : zl.map text = flatPairs ps := by
  have hmap := congrArg (map text) h
  rw [map_map, map_map] at hmap
  refine hmap.trans (map_id'' (fun s => ?_) _)
  exact text_zipEntry s

theorem length_eq (h : Flat zl ps) : zl.length = 2 * ps.length := by
  rw [← length_flatPairs, ← length_map Zlentry.content, h, length_map]

theorem cons_iff {p : Sds × Sds} : Flat zl (p :: ps) ↔
    ∃ w w' zl', zl = ⟨w, zipEntry p.1⟩ :: ⟨w', zipEntry p.2⟩ :: zl' ∧ Flat zl' ps := by
  rw [Flat, flatPairs_cons, map_cons, map_cons]
  constructor
  · intro h
    obtain ⟨⟨w, e⟩, t, rfl, he, ht⟩ := map_eq_cons_iff.mp h
    obtain ⟨⟨w', e'⟩, zl', rfl, he', hzl'⟩ := map_eq_cons_iff.mp ht
    obtain rfl : e = _ := he
    obtain rfl : e' = _ := he'
    exact ⟨w, w', zl', rfl, hzl'⟩
  · rintro ⟨w, w', zl', rfl, hzl'⟩
    rw [map_cons, map_cons, hzl']

theorem findLoop (h : Flat zl ps) (hf : f ∉ ps.map Prod.fst) (zl' : Ziplist) (p : ℕ) :
    ziplistFindLoop f 1 (zl ++ zl') 0 p = ziplistFindLoop f 1 zl' 0 (p + 2 * ps.length) := by
  induction ps generalizing zl p with
  | nil =>
    obtain rfl : zl = [] := map_eq_nil_iff.mp h
    rfl
  | cons q ps ih =>
    obtain ⟨w, w', zl, rfl, hzl⟩ := cons_iff.mp h
    rw [map_cons, mem_cons, not_or] at hf
    rw [cons_append, cons_append, ziplistFindLoop, ziplistCompare_zipEntry,
      if_neg (by simpa using Ne.symm hf.1), ziplistFindLoop, ih hzl hf.2, length_cons]
    congr 1
    omega

theorem find_none (h : Flat zl ps) (hf : f ∉ ps.map Prod.fst) : ziplistFind zl f 1 = none := by
  have := h.findLoop hf [] 0
  rwa [append_nil] at this

theorem append_inv (h : Flat zl (ps ++ qs)) :
    ∃ zl1 zl2, zl = zl1 ++ zl2 ∧ Flat zl1 ps ∧ Flat zl2 qs := by
  rw [Flat, flatPairs_append, map_append] at h
  obtain ⟨zl1, zl2, rfl, h1, h2⟩ := map_eq_append_iff.mp h
  exact ⟨zl1, zl2, rfl, h1, h2⟩

theorem find_some (h : Flat zl (ps ++ (f, v) :: qs)) (hf : f ∉ ps.map Prod.fst) :
    ziplistFind zl f 1 = some (2 * ps.length) := by
  obtain ⟨zl1, zl2, rfl, h1, h2⟩ := h.append_inv
  obtain ⟨w, w', zl', rfl, -⟩ := cons_iff.mp h2
  rw [ziplistFind, h1.findLoop hf, ziplistFindLoop, ziplistCompare_zipEntry,
    if_pos (by simp), Nat.zero_add]

theorem get_value (h : Flat zl (ps ++ (f, v) :: qs)) :
    ziplistGet zl (2 * ps.length + 1) = some (zipEntry v) := by
  obtain ⟨zl1, zl2, rfl, h1, h2⟩ := h.append_inv
  obtain ⟨w, w', zl', rfl, -⟩ := cons_iff.mp h2
  rw [ziplistGet, ← h1.length_eq, getElem?_append_right (Nat.le_add_right ..),
    Nat.add_sub_cancel_left]
  rfl

end Flat

end Vire
