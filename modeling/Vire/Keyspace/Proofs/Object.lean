import Vire.Client.Proofs.Reply
import Vire.Decimal

/-!
# String objects denote byte strings

The functions that look at objects without decoding them give what the bytes give.  Lengths that do
not fit an `int` are the exception.
-/

namespace Vire

open List

theorem memcmp_spec (s t : Sds) :
    (memcmp s t = 0 ∧ (s <+: t ∨ t <+: s)) ∨ (memcmp s t = -1 ∧ s < t) ∨
      (memcmp s t = 1 ∧ t < s) := by
  induction s generalizing t with
  | nil => exact .inl ⟨by cases t <;> rfl, .inl nil_prefix⟩
  | cons a s ih =>
    rcases t with _ | ⟨b, t⟩
    · exact .inl ⟨rfl, .inr nil_prefix⟩
    · unfold memcmp
      split_ifs with hlt hgt
      · exact .inr (.inl ⟨rfl, cons_lt_cons_iff.mpr (.inl hlt)⟩)
      · exact .inr (.inr ⟨rfl, cons_lt_cons_iff.mpr (.inl hgt)⟩)
      · obtain rfl : a = b := UInt8.le_antisymm (UInt8.not_lt.mp hgt) (UInt8.not_lt.mp hlt)
        rcases ih t with ⟨h, hp⟩ | ⟨h, hp⟩ | ⟨h, hp⟩
        · exact .inl ⟨h, hp.imp (prefix_cons_inj a).mpr (prefix_cons_inj a).mpr⟩
        · exact .inr (.inl ⟨h, cons_lt_cons_iff.mpr (.inr ⟨rfl, hp⟩)⟩)
        · exact .inr (.inr ⟨h, cons_lt_cons_iff.mpr (.inr ⟨rfl, hp⟩)⟩)

theorem int32_int32_add (n k : ℤ) : int32 (int32 n + k) = int32 (n + k) := by
  rw [int32, int32, int32, Int.bmod_add_bmod]

variable {s : Sds}

theorem lt_append {r : Sds} (h : r ≠ []) : s < s ++ r := by
  induction s with
  | nil =>
    rcases r with _ | ⟨b, r⟩
    · exact absurd rfl h
    · exact nil_lt_cons b r
  | cons a s ih => exact cons_lt_cons_iff.mpr (.inr ⟨rfl, ih⟩)

theorem compareStrings_cases {t : Sds} (hs : s.length < 2 ^ 31) (ht : t.length < 2 ^ 31) :
    (compareStrings s t < 0 ∧ s < t) ∨ (compareStrings s t = 0 ∧ s = t) ∨
      (0 < compareStrings s t ∧ t < s) := by
  unfold compareStrings
  rcases memcmp_spec s t with ⟨h, hp⟩ | ⟨h, hlt⟩ | ⟨h, hlt⟩
  · rw [if_pos h, int32_of_lt (by omega) (by omega)]
    rcases hp with ⟨r, rfl⟩ | ⟨r, rfl⟩ <;> rcases eq_or_ne r [] with rfl | hr
    · simp
    · have := length_pos_iff.mpr hr
      exact .inl ⟨by rw [length_append]; omega, lt_append hr⟩
    · simp
    · have := length_pos_iff.mpr hr
      exact .inr (.inr ⟨by rw [length_append]; omega, lt_append hr⟩)
  · rw [h]
    exact .inl ⟨by simp, hlt⟩
  · rw [h]
    exact .inr (.inr ⟨by simp, hlt⟩)

theorem compareStrings_spec {t : Sds} (hs : s.length < 2 ^ 31) (ht : t.length < 2 ^ 31) :
    (compareStrings s t < 0 ↔ s < t) ∧ (compareStrings s t = 0 ↔ s = t) ∧
      (0 < compareStrings s t ↔ t < s) := by
  have hirr : ∀ s : Sds, ¬ s < s := fun s => List.lt_irrefl s
  have hasymm : ∀ s t : Sds, s < t → ¬ t < s := fun s t h => List.lt_asymm h
  rcases compareStrings_cases hs ht with ⟨h, hlt⟩ | ⟨h, rfl⟩ | ⟨h, hlt⟩
  · refine ⟨iff_of_true h hlt, iff_of_false (by omega) ?_, iff_of_false (by omega) (hasymm _ _ hlt)⟩
    rintro rfl
    exact hirr s hlt
  · rw [h]
    exact ⟨by simp [hirr], by simp, by simp [hirr]⟩
  · refine ⟨iff_of_false (by omega) (hasymm _ _ hlt), iff_of_false (by omega) ?_, iff_of_true h hlt⟩
    rintro rfl
    exact hirr s hlt

theorem dictSdsKeyCompare_iff {t : Sds} (hs : s.length < 2 ^ 31) (ht : t.length < 2 ^ 31) :
    dictSdsKeyCompare s t = true ↔ s = t := by
  have hn : ∀ {n : ℕ}, n < 2 ^ 31 → ((n : ℤ) % 2 ^ 64).toNat = n := by omega
  simp only [dictSdsKeyCompare, int32_of_lt (n := (s.length : ℤ)) (by omega) (by omega),
    int32_of_lt (n := (t.length : ℤ)) (by omega) (by omega), hn hs, Bool.and_eq_true, beq_iff_eq]
  constructor
  · rintro ⟨hlen, hcmp⟩
    have hlen' : s.length = t.length := by exact_mod_cast hlen
    rw [take_length, hlen', take_length] at hcmp
    rcases memcmp_spec s t with ⟨-, hp⟩ | ⟨h, -⟩ | ⟨h, -⟩
    · rcases hp with hp | hp
      · exact hp.eq_of_length hlen'
      · exact (hp.eq_of_length hlen'.symm).symm
    · rw [h] at hcmp
      cases hcmp
    · rw [h] at hcmp
      cases hcmp
  · rintro rfl
    refine ⟨rfl, ?_⟩
    rw [take_length]
    rcases memcmp_spec s s with ⟨h, -⟩ | ⟨-, h⟩ | ⟨-, h⟩
    · exact h
    · exact absurd h (List.lt_irrefl s)
    · exact absurd h (List.lt_irrefl s)

def Robj.Denotes (o : Robj) (s : Sds) : Prop :=
  match o.enc with
  | .raw t => t = s
  | .embstr t => t = s
  | .int i => llongMin ≤ i ∧ i ≤ llongMax ∧ ll2string i = s
  | .freed => False

inductive Made (s : Sds) : Robj → Prop
  | createRawStringObject (h : Heap) : Made s (Vire.createRawStringObject s h).1
  | createStringObject (h : Heap) : Made s (Vire.createStringObject s h).1
  | createStringObjectFromLongLong {v : ℤ} (hmin : llongMin ≤ v) (hmax : v ≤ llongMax)
      (hv : ll2string v = s) (h : Heap) : Made s (Vire.createStringObjectFromLongLong v h).1
  | tryObjectEncoding {o : Robj} (ho : Made s o) (h : Heap) : Made s (Vire.tryObjectEncoding o h).1
  | dupStringObject {o : Robj} (ho : Made s o) (h : Heap) : Made s (Vire.dupStringObject o h).1
  | dupStringObjectUnconstant {o : Robj} (ho : Made s o) (h : Heap) :
    Made s (Vire.dupStringObjectUnconstant o h).1
  | getDecodedObject {o : Robj} (ho : Made s o) (h : Heap) : Made s (Vire.getDecodedObject o h).1

variable {o : Robj}

theorem Robj.Denotes.text_eq (h : o.Denotes s) : text o = s := by
  unfold Robj.Denotes at h
  change o.enc.text = s
  rcases he : o.enc with t | t | i | _ <;> rw [he] at h
  · exact h
  · exact h
  · exact h.2.2
  · exact h.elim

theorem createStringObject_denotes (s : Sds) (h : Heap) : (createStringObject s h).1.Denotes s := by
  unfold createStringObject
  split_ifs <;> exact rfl

theorem Robj.Denotes.getDecodedObject (ho : o.Denotes s) (h : Heap) :
    (Vire.getDecodedObject o h).1.Denotes s := by
  unfold Vire.getDecodedObject
  split
  · rename_i i hi
    have := ho.text_eq
    rw [show text o = ll2string i by simp [text, hi, StrEnc.text]] at this
    rw [← this]
    exact createStringObject_denotes _ h
  · exact ho

theorem Robj.Denotes.getLongLongFromObject (ho : o.Denotes s) :
    Vire.getLongLongFromObject o = getLongLong s := by
  have htext := ho.text_eq
  unfold Robj.Denotes at ho
  unfold Vire.getLongLongFromObject
  rcases he : o.enc with t | t | i | _ <;> rw [he] at ho
  · rw [htext]
  · rw [htext]
  · rw [← ho.2.2, getLongLong_ll2string ⟨ho.1, ho.2.1⟩]
  · exact ho.elim

theorem Robj.Denotes.dupStringObjectUnconstant (ho : o.Denotes s) (h : Heap) :
    (Vire.dupStringObjectUnconstant o h).1.Denotes s := by
  unfold Vire.dupStringObjectUnconstant
  split_ifs <;> exact ho

theorem tryObjectEncodingOf_spec (o : Robj) :
    match tryObjectEncodingOf o with
    | .keep => True
    | .share i => string2ll (text o) = some (i : ℤ)
    | .inPlace v => string2ll (text o) = some v
    | .embed s => text o = s := by
  unfold tryObjectEncodingOf
  dsimp only
  rcases hv : (if (text o).length ≤ 21 then string2ll (text o) else none) with _ | v <;> dsimp only
  · rcases he : o.enc with t | t | i | _ <;> dsimp only
    · split_ifs
      · trivial
      · trivial
      · exact congrArg StrEnc.text he
      · trivial
    all_goals split_ifs <;> trivial
  · split_ifs at hv
    split_ifs with hsds hconst hrange
    · trivial
    · trivial
    · exact hv.trans (by rw [Int.toNat_of_nonneg hrange.1])
    · exact hv

theorem Robj.Denotes.tryObjectEncoding (ho : o.Denotes s) (h : Heap) :
    (Vire.tryObjectEncoding o h).1.Denotes s := by
  have htext := ho.text_eq
  have hspec := tryObjectEncodingOf_spec o
  have hint : ∀ {v : ℤ}, string2ll (text o) = some v → llongMin ≤ v ∧ v ≤ llongMax ∧
      ll2string v = s := by
    intro v hv
    obtain ⟨hprint, hmin, hmax⟩ := ll2string_of_string2ll hv
    exact ⟨hmin, hmax, hprint.trans htext⟩
  unfold Vire.tryObjectEncoding
  rcases he : tryObjectEncodingOf o with _ | i | v | t <;> rw [he] at hspec
  · exact ho
  · exact hint hspec
  · exact hint hspec
  · exact hspec.symm.trans htext

theorem Made.denotes (h : Made s o) : o.Denotes s := by
  induction h with
  | createRawStringObject h => exact rfl
  | createStringObject h => exact createStringObject_denotes s h
  | createStringObjectFromLongLong hmin hmax hv h =>
    unfold Vire.createStringObjectFromLongLong
    split_ifs with hrange
    · have hcast := Int.toNat_of_nonneg hrange.1
      exact ⟨by rwa [hcast], by rwa [hcast], by rwa [hcast]⟩
    · exact ⟨hmin, hmax, hv⟩
  | tryObjectEncoding _ h ih => exact ih.tryObjectEncoding h
  | dupStringObject _ h ih => exact ih
  | dupStringObjectUnconstant _ h ih => exact ih.dupStringObjectUnconstant h
  | getDecodedObject _ h ih => exact ih.getDecodedObject h

theorem bulkLenLoop_eq (fuel : ℕ) : ∀ (n : ℤ) (len : ℕ), n.natAbs < fuel →
    Reply.bulkLenLoop fuel n len + 1 = len + (decimal n.natAbs).length := by
  induction fuel with
  | zero => exact fun n len h => absurd h (Nat.not_lt_zero _)
  | succ fuel ih =>
    intro n len hn
    have habs : (n.tdiv 10).natAbs = n.natAbs / 10 := Int.natAbs_tdiv ..
    unfold Reply.bulkLenLoop
    split_ifs with h0
    · have h10 : 10 ≤ n.natAbs := by
        by_contra hlt
        exact h0 (Int.natAbs_eq_zero.mp (by omega))
      rw [ih _ _ (by omega), habs, length_decimal_succ h10]
      omega
    · have hlt : n.natAbs < 10 := by
        omega
      simp [decimal_of_lt hlt]

theorem bulkLen_int {n : ℤ} (ho : o.enc = .int n) (hmin : llongMin ≤ n) (hmax : n ≤ llongMax) :
    Reply.bulkLen o = (ll2string n).length := by
  have hwrap : (wrap (-n)).natAbs = n.natAbs := by
    rcases eq_or_ne n llongMin with rfl | hne
    · decide
    · unfold llongMin llongMax at *
      rw [wrap, Int.bmod_eq_of_le (by omega) (by omega), Int.natAbs_neg]
  simp only [Reply.bulkLen, ho, ll2string]
  split_ifs with hneg
  · have := bulkLenLoop_eq (n.natAbs + 1) (wrap (-n)) 2 (by omega)
    rw [hwrap] at this
    rw [length_cons]
    omega
  · have := bulkLenLoop_eq (n.natAbs + 1) n 1 (by omega)
    omega

theorem Robj.Denotes.bulkLen_eq (ho : o.Denotes s) :
    Reply.bulkLen o = s.length := by
  have htext := ho.text_eq
  unfold Robj.Denotes at ho
  rcases he : o.enc with t | t | n | _ <;> rw [he] at ho
  · simp [Reply.bulkLen, he, htext]
  · simp [Reply.bulkLen, he, htext]
  · rw [bulkLen_int he ho.1 ho.2.1, ho.2.2]
  · exact ho.elim

theorem Robj.Denotes.stringObjectLen_eq (ho : o.Denotes s) :
    stringObjectLen o = s.length := by
  have htext := ho.text_eq
  unfold Robj.Denotes at ho
  rcases he : o.enc with t | t | n | _ <;> rw [he] at ho
  · simp [stringObjectLen, he, htext]
  · simp [stringObjectLen, he, htext]
  · simp [stringObjectLen, he, sdigits10_eq, ho.2.2]
  · exact ho.elim

theorem Robj.Denotes.hash_eq [HashFn] (ho : o.Denotes s) :
    dictEncObjHash o = HashFn.hash s := by
  have htext := ho.text_eq
  unfold Robj.Denotes at ho
  rcases he : o.enc with t | t | n | _ <;> rw [he] at ho
  · simp [dictEncObjHash, he, htext]
  · simp [dictEncObjHash, he, htext]
  · simp [dictEncObjHash, he, ho.2.2]
  · exact ho.elim

section

variable {a b : Robj} {s t : Sds} (ha : a.Denotes s) (hb : b.Denotes t)

include ha hb

theorem int_eq_iff {i j : ℤ} (hi : a.enc = .int i) (hj : b.enc = .int j) : i = j ↔ s = t := by
  unfold Robj.Denotes at ha hb
  rw [hi] at ha
  rw [hj] at hb
  constructor
  · rintro rfl
    exact ha.2.2.symm.trans hb.2.2
  · rintro rfl
    have h := string2ll_ll2string ha.1 ha.2.1
    rw [ha.2.2.trans hb.2.2.symm, string2ll_ll2string hb.1 hb.2.1] at h
    exact (Option.some.inj h).symm

variable (hab : a.addr = b.addr → a = b) (hs : s.length < 2 ^ 31) (ht : t.length < 2 ^ 31)

include hab hs ht

theorem compareStringObjects_spec :
    (compareStringObjects a b < 0 ↔ s < t) ∧ (compareStringObjects a b = 0 ↔ s = t) ∧
      (0 < compareStringObjects a b ↔ t < s) := by
  unfold compareStringObjects
  split_ifs with heq
  · obtain rfl := hab heq
    obtain rfl : s = t := ha.text_eq.symm.trans hb.text_eq
    have hirr : ¬ s < s := List.lt_irrefl s
    simp [hirr]
  · rw [ha.text_eq, hb.text_eq]
    exact compareStrings_spec hs ht

theorem equalStringObjects_iff : equalStringObjects a b = true ↔ s = t := by
  unfold equalStringObjects
  split
  · rename_i i j hi hj
    rw [beq_iff_eq]
    exact int_eq_iff ha hb hi hj
  · rw [beq_iff_eq]
    exact (compareStringObjects_spec ha hb hab hs ht).2.1

omit hab in
theorem dictEncObjKeyCompare_iff (h : Heap) : dictEncObjKeyCompare a b h = true ↔ s = t := by
  unfold dictEncObjKeyCompare
  split
  · rename_i i j hi hj
    rw [beq_iff_eq]
    exact int_eq_iff ha hb hi hj
  · dsimp only
    rw [(ha.getDecodedObject h).text_eq, (hb.getDecodedObject _).text_eq]
    exact dictSdsKeyCompare_iff hs ht

end

theorem Robj.Denotes.addReplyBulkLen (ho : o.Denotes s) {c : Reply.Client}
    (hw : Reply.prepareClientToWrite c = true) (hc : c.flags.closeAfterReply = false) :
    Reply.Added c (Reply.bulkHeader s.length) (Reply.addReplyBulkLen c o) := by
  simp only [Reply.addReplyBulkLen, ho.bulkLen_eq]
  split_ifs
  · exact Reply.addReply_added hw hc (Reply.sharedBulkhdr s.length)
  · exact Reply.addReplyString_added hw hc _

/-- Objects denote byte strings.  Whatever an object was made of `s` by, it denotes `s`; and for two
objects that denote `s` and `t`, in any encoding, the functions of the source give what `s` and `t`
give, the comparisons as long as lengths fit an `int`.  Two objects at one address are one
object. -/
theorem objects_denote [HashFn] (s t : Sds) :
    (∀ o, Made s o → o.Denotes s ∧ text o = s) ∧
      ∀ a b : Robj, a.Denotes s → b.Denotes t → (a.addr = b.addr → a = b) →
        stringObjectLen a = s.length ∧
        (∀ c, Reply.prepareClientToWrite c = true → c.flags.closeAfterReply = false →
          Reply.Added c (Reply.bulkHeader s.length) (Reply.addReplyBulkLen c a)) ∧
        (s = t → dictEncObjHash a = dictEncObjHash b) ∧
        (s.length < 2 ^ 31 → t.length < 2 ^ 31 →
          (equalStringObjects a b = true ↔ s = t) ∧
          (∀ h, dictEncObjKeyCompare a b h = true ↔ s = t) ∧
          (compareStringObjects a b < 0 ↔ s < t) ∧ (compareStringObjects a b = 0 ↔ s = t) ∧
          (0 < compareStringObjects a b ↔ t < s)) := by
  refine ⟨fun o ho => ⟨ho.denotes, ho.denotes.text_eq⟩, fun a b ha hb hab => ⟨ha.stringObjectLen_eq,
    fun c hw hc => ha.addReplyBulkLen hw hc, fun hst => ?_, fun hs ht =>
    ⟨equalStringObjects_iff ha hb hab hs ht, dictEncObjKeyCompare_iff ha hb hs ht,
      compareStringObjects_spec ha hb hab hs ht⟩⟩⟩
  rw [ha.hash_eq, hb.hash_eq, hst]

theorem objects_denote_llongMin :
    let _ : HashFn := ⟨length⟩
    let a : Robj := ⟨firstFree, false, .int llongMin⟩
    let b := (createStringObject (ll2string llongMin) ⟨sharedContent, firstFree + 1⟩).1
    stringObjectLen a = 20 ∧ equalStringObjects a b = true ∧
      dictEncObjHash a = dictEncObjHash b := by
  let _ : HashFn := ⟨length⟩
  have ha : (⟨firstFree, false, .int llongMin⟩ : Robj).Denotes (ll2string llongMin) :=
    ⟨le_rfl, by decide, rfl⟩
  have h := (objects_denote (ll2string llongMin) (ll2string llongMin)).2 _ _ ha
    (createStringObject_denotes _ ⟨sharedContent, firstFree + 1⟩)
    (fun h => absurd h (by decide))
  exact ⟨h.1, (h.2.2.2 (by decide) (by decide)).1.mpr rfl, h.2.2.1 rfl⟩

/-- A string of `2 ^ 32` bytes and the empty string are the same to `compareStringObjects` and
`equalStringObjects`: the difference of the lengths is 0 as an `int`. -/
theorem compareStringObjects_truncates :
    let s : Sds := replicate (2 ^ 32) 0
    let a : Robj := ⟨firstFree, false, .raw s⟩
    let b : Robj := ⟨firstFree + 1, false, .embstr []⟩
    a.Denotes s ∧ b.Denotes [] ∧ s ≠ [] ∧ compareStringObjects a b = 0 ∧
      equalStringObjects a b = true := by
  have hcmp : ∀ s : Sds, memcmp s [] = 0 := fun s => by cases s <;> rfl
  have h0 : ∀ s : Sds, s.length = 2 ^ 32 → compareStringObjects ⟨firstFree, false, .raw s⟩
      ⟨firstFree + 1, false, .embstr []⟩ = 0 := by
    intro s hs
    have hne : ¬ firstFree = firstFree + 1 := by decide
    simp only [compareStringObjects, if_neg hne, compareStrings, text, StrEnc.text,
      hcmp, if_true, hs]
    decide
  refine ⟨rfl, rfl, ?_, h0 _ length_replicate, ?_⟩
  · exact ne_nil_of_length_pos (by norm_num)
  · exact beq_iff_eq.mpr (h0 _ length_replicate)

end Vire
