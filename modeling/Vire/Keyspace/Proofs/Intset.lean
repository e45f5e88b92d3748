import Mathlib.Algebra.Order.Ring.Int
import Mathlib.Data.List.Sort
import Vire.Keyspace.Type.Intset

/-!
# An intset is a set of integers

The array is strictly increasing and every integer in it fits the width of the array.  What the
functions do is said in terms of membership.
-/

namespace Vire

open List

variable {is : Intset} {v : ℤ}

theorem intsetValueEncoding_le_iff {e : IntsetEnc} (hlo : llongMin ≤ v) (hhi : v ≤ llongMax) :
    (intsetValueEncoding v).bytes ≤ e.bytes ↔
      -2 ^ (8 * e.bytes - 1) ≤ v ∧ v < 2 ^ (8 * e.bytes - 1) := by
  unfold llongMin at hlo
  unfold llongMax at hhi
  cases e <;> simp only [intsetValueEncoding, IntsetEnc.bytes] <;> split_ifs <;> simp <;> omega

theorem IntsetEnc.bytes_le (e : IntsetEnc) : e.bytes ≤ 8 := by cases e <;> decide

theorem IntsetEnc.cast_eq {e : IntsetEnc} (hlo : -2 ^ (8 * e.bytes - 1) ≤ v)
    (hhi : v < 2 ^ (8 * e.bytes - 1)) : e.cast v = v := by
  cases e <;> simp only [IntsetEnc.cast, IntsetEnc.bytes] at * <;>
    exact Int.bmod_eq_of_le (by omega) (by omega)

structure Intset.Ok (is : Intset) : Prop where
  sorted : is.contents.Pairwise (· < ·)
  fits : ∀ v ∈ is.contents, -2 ^ (8 * is.encoding.bytes - 1) ≤ v ∧
    v < 2 ^ (8 * is.encoding.bytes - 1)

theorem Intset.Ok.range (h : is.Ok) (hv : v ∈ is.contents) : llongMin ≤ v ∧ v ≤ llongMax := by
  have := h.fits v hv
  unfold llongMin llongMax
  cases he : is.encoding <;> simp only [he, IntsetEnc.bytes] at this <;> omega

theorem intsetNew_ok : intsetNew.Ok := ⟨Pairwise.nil, fun v hv => by cases hv⟩

variable {i : ℕ}

theorem Intset.at_eq (hi : i < is.contents.length) : is.at i = is.contents[i] := by
  simp [Intset.at, hi]

theorem Intset.Ok.at_lt_at (h : is.Ok) {j : ℕ} (hij : i < j) (hj : j < is.contents.length) :
    is.at i < is.at j := by
  rw [Intset.at_eq hj, Intset.at_eq (hij.trans hj)]
  exact pairwise_iff_getElem.mp h.sorted i j (hij.trans hj) hj hij

theorem Intset.mem_iff : v ∈ is.contents ↔ ∃ i : ℕ, i < is.contents.length ∧ is.at i = v := by
  rw [mem_iff_getElem]
  constructor
  · rintro ⟨i, hi, rfl⟩
    exact ⟨i, hi, Intset.at_eq hi⟩
  · rintro ⟨i, hi, rfl⟩
    exact ⟨i, hi, (Intset.at_eq hi).symm⟩

structure Intset.Outside (is : Intset) (v min max : ℤ) : Prop where
  below : ∀ i : ℕ, (i : ℤ) < min → i < is.contents.length → is.at i < v
  above : ∀ i : ℕ, max < i → i < is.contents.length → v < is.at i

def Intset.Ended (is : Intset) (v : ℤ) (r : IntsetSearch) : Prop :=
  (v = r.cur ∧ ∃ i : ℕ, r.mid = i ∧ i < is.contents.length ∧ is.at i = v) ∨
    v ≠ r.cur ∧ ∃ i : ℕ, r.min = i ∧ i ≤ is.contents.length ∧ is.Outside v i (i - 1)

theorem Intset.Ended.of_empty {r : IntsetSearch} (hmin : 0 ≤ r.min)
    (hmax : r.max < is.contents.length) (hempty : r.max + 1 = r.min)
    (hout : is.Outside v r.min r.max) (hcur : v ≠ r.cur) : is.Ended v r := by
  refine .inr ⟨hcur, r.min.toNat, by omega, by omega, ?_⟩
  rw [Int.toNat_of_nonneg hmin, show r.min - 1 = r.max by omega]
  exact hout

/-- The interval has no more positions than there are rounds left, and the value is in it or
nowhere.  It is not empty as long as `cur` may be the value by accident. -/
theorem intsetSearchLoop_ended (h : is.Ok) (fuel : ℕ) (r : IntsetSearch) (hmin : 0 ≤ r.min)
    (hmax : r.max < is.contents.length) (hlen : r.min ≤ r.max + 1) (hfuel : r.max - r.min < fuel)
    (hout : is.Outside v r.min r.max) (hcur : v = r.cur → r.min ≤ r.max) :
    is.Ended v (intsetSearchLoop is v fuel r) := by
  induction fuel generalizing r with
  | zero =>
    have hempty : r.max + 1 = r.min := by omega
    exact .of_empty hmin hmax hempty hout fun heq => absurd (hcur heq) (by omega)
  | succ fuel ih =>
    unfold intsetSearchLoop
    split_ifs with hle
    · obtain ⟨mid, hmid⟩ : ∃ mid : ℕ, (r.min + r.max) / 2 = mid :=
        ⟨_, (Int.toNat_of_nonneg (by omega)).symm⟩
      have hmidlt : mid < is.contents.length := by omega
      dsimp only
      rw [hmid]
      split_ifs with hlt hgt
      · -- the value is above the middle
        refine ih _ (by dsimp only; omega) hmax (by dsimp only; omega) (by dsimp only; omega)
          ⟨fun i hi hil => ?_, hout.above⟩ fun heq => absurd heq hlt.ne'
        rcases Nat.lt_or_ge i mid with him | him
        · exact (h.at_lt_at him hmidlt).trans hlt
        · rwa [show i = mid by dsimp only at hi; omega]
      · -- and here below it
        refine ih _ hmin (by dsimp only; omega) (by dsimp only; omega) (by dsimp only; omega)
          ⟨hout.below, fun i hi hil => ?_⟩ fun heq => absurd heq hgt.ne
        rcases Nat.lt_or_ge mid i with him | him
        · exact hgt.trans (h.at_lt_at him hil)
        · rwa [show i = mid by dsimp only at hi; omega]
      · exact .inl ⟨by dsimp only; omega, mid, rfl, hmidlt, by omega⟩
    · exact .of_empty hmin hmax (by omega) hout fun heq => absurd (hcur heq) (by omega)

structure Intset.Place (is : Intset) (v : ℤ) (found : Bool) (pos : ℕ) : Prop where
  le : pos ≤ is.contents.length
  below : ∀ x ∈ is.contents.take pos, x < v
  above : ∀ x ∈ is.contents.drop pos, v ≤ x
  found_iff : found = true ↔ v ∈ is.contents

theorem Intset.Outside.place (hi : i ≤ is.contents.length)
    (hout : is.Outside v i (i - 1)) : is.Place v false i where
  le := hi
  below x hx := by
    obtain ⟨j, hj, rfl⟩ := mem_iff_getElem.mp hx
    rw [length_take] at hj
    rw [getElem_take, ← Intset.at_eq]
    exact hout.below j (by omega) (by omega)
  above x hx := by
    obtain ⟨j, hj, rfl⟩ := mem_iff_getElem.mp hx
    rw [length_drop] at hj
    rw [getElem_drop, ← Intset.at_eq]
    exact (hout.above (i + j) (by omega) (by omega)).le
  found_iff := by
    refine ⟨fun h => Bool.noConfusion h, fun hv => ?_⟩
    obtain ⟨j, hj, rfl⟩ := Intset.mem_iff.mp hv
    rcases Nat.lt_or_ge j i with hji | hji
    · exact absurd (hout.below j (by omega) hj) (lt_irrefl _)
    · exact absurd (hout.above j (by omega) hj) (lt_irrefl _)

theorem Intset.Ok.place_of_at (h : is.Ok) (hi : i < is.contents.length) (hv : is.at i = v) :
    is.Place v true i where
  le := hi.le
  below x hx := by
    obtain ⟨j, hj, rfl⟩ := mem_iff_getElem.mp hx
    rw [length_take] at hj
    rw [getElem_take, ← Intset.at_eq, ← hv]
    exact h.at_lt_at (by omega) hi
  above x hx := by
    obtain ⟨j, hj, rfl⟩ := mem_iff_getElem.mp hx
    rw [length_drop] at hj
    rw [getElem_drop, ← Intset.at_eq, ← hv]
    rcases Nat.eq_zero_or_pos j with rfl | hpos
    · exact le_rfl
    · exact (h.at_lt_at (by omega) (by omega)).le
  found_iff := ⟨fun _ => Intset.mem_iff.mpr ⟨i, hi, hv⟩, fun _ => rfl⟩

theorem intsetSearch_place (h : is.Ok) (v : ℤ) :
    is.Place v (intsetSearch is v).1 (intsetSearch is v).2 := by
  obtain ⟨r, hr⟩ : ∃ r, r = intsetSearch is v := ⟨_, rfl⟩
  have hlen : intsetLen is = is.contents.length := rfl
  rw [← hr]
  simp only [intsetSearch] at hr
  by_cases h0 : intsetLen is = 0
  · rw [if_pos h0] at hr
    subst hr
    exact Intset.Outside.place (Nat.zero_le _) ⟨fun i hi => by omega, fun i hi hil => by omega⟩
  have hend := intsetSearchLoop_ended (v := v) h (intsetLen is) ⟨0, intsetLen is - 1, -1, -1⟩
    le_rfl (by dsimp only; omega) (by dsimp only; omega) (by dsimp only; omega)
    ⟨fun i hi => by dsimp only at hi; omega, fun i hi => by dsimp only at hi; omega⟩
    fun _ => by dsimp only; omega
  split_ifs at hr with hlast hfirst heq
  · subst hr
    refine Intset.Outside.place le_rfl ⟨fun i hi hil => ?_, fun i hi hil => by omega⟩
    rw [show (intsetLen is : ℤ) - 1 = ((is.contents.length - 1 : ℕ) : ℤ) by omega] at hlast
    rcases Nat.lt_or_ge i (is.contents.length - 1) with hi' | hi'
    · exact (h.at_lt_at hi' (by omega)).trans hlast
    · rwa [show i = is.contents.length - 1 by omega]
  · subst hr
    refine Intset.Outside.place (Nat.zero_le _) ⟨fun i hi => by omega, fun i hi hil => ?_⟩
    rcases Nat.eq_zero_or_pos i with rfl | hpos
    · exact hfirst
    · exact hfirst.trans (h.at_lt_at hpos hil)
  · rcases hend with ⟨-, i, hi, hil, hat⟩ | ⟨hne, -⟩
    · rw [hi] at hr
      subst hr
      exact h.place_of_at hil hat
    · exact absurd heq hne
  · rcases hend with ⟨heq', -⟩ | ⟨-, i, hi, hil, hout⟩
    · exact absurd heq' heq
    · rw [hi] at hr
      subst hr
      exact hout.place hil

def Intset.Wide (is : Intset) (v : ℤ) : Prop := (intsetValueEncoding v).bytes ≤ is.encoding.bytes

theorem Intset.Ok.wide (h : is.Ok) (hv : v ∈ is.contents) : is.Wide v :=
  (intsetValueEncoding_le_iff (h.range hv).1 (h.range hv).2).mpr (h.fits v hv)

theorem intsetFind_iff (h : is.Ok) (v : ℤ) : intsetFind is v = true ↔ v ∈ is.contents := by
  unfold intsetFind
  rw [Bool.and_eq_true, decide_eq_true_eq, (intsetSearch_place h v).found_iff]
  exact ⟨fun hv => hv.2, fun hv => ⟨h.wide hv, hv⟩⟩

structure Intset.Added (is : Intset) (v : ℤ) (is' : Intset) : Prop where
  ok : is'.Ok
  perm : is'.contents.Perm (v :: is.contents)

theorem Intset.Place.added {pos : ℕ} (hp : is.Place v false pos) (h : is.Ok)
    (hw : -2 ^ (8 * is.encoding.bytes - 1) ≤ v ∧ v < 2 ^ (8 * is.encoding.bytes - 1)) :
    is.Added v { is with contents := is.contents.take pos ++ v :: is.contents.drop pos } := by
  have hperm : (is.contents.take pos ++ v :: is.contents.drop pos).Perm (v :: is.contents) := by
    refine perm_middle.trans (Perm.of_eq ?_)
    rw [take_append_drop]
  have hnot : v ∉ is.contents := fun hv => Bool.noConfusion (hp.found_iff.mpr hv)
  have habove : ∀ x ∈ is.contents.drop pos, v < x := fun x hx =>
    (hp.above x hx).lt_of_ne fun heq => hnot (heq ▸ mem_of_mem_drop hx)
  have hsorted := h.sorted
  rw [← take_append_drop pos is.contents, pairwise_append] at hsorted
  refine ⟨⟨?_, fun x hx => ?_⟩, hperm⟩
  · refine pairwise_append.mpr ⟨hsorted.1, pairwise_cons.mpr ⟨habove, hsorted.2.1⟩, ?_⟩
    intro x hx y hy
    rcases mem_cons.mp hy with rfl | hy
    · exact hp.below x hx
    · exact (hp.below x hx).trans (habove y hy)
  · rcases mem_cons.mp (hperm.mem_iff.mp hx) with rfl | hx
    · exact hw
    · exact h.fits x hx

theorem intsetUpgradeAndAdd_added (h : is.Ok) (hlo : llongMin ≤ v) (hhi : v ≤ llongMax)
    (hw : ¬ is.Wide v) : is.Added v (intsetUpgradeAndAdd is v) := by
  have hself := (intsetValueEncoding_le_iff (e := intsetValueEncoding v) hlo hhi).mp le_rfl
  have hout := (not_congr (intsetValueEncoding_le_iff (e := is.encoding) hlo hhi)).mp hw
  have hfits : ∀ x ∈ is.contents, -2 ^ (8 * (intsetValueEncoding v).bytes - 1) ≤ x ∧
      x < 2 ^ (8 * (intsetValueEncoding v).bytes - 1) := by
    intro x hx
    have := h.fits x hx
    omega
  have hmap : is.contents.map (intsetValueEncoding v).cast = is.contents := by
    rw [map_congr_left fun x hx => IntsetEnc.cast_eq (hfits x hx).1 (hfits x hx).2, map_id']
  unfold intsetUpgradeAndAdd
  simp only [hmap, IntsetEnc.cast_eq hself.1 hself.2]
  split_ifs with hneg
  · refine ⟨⟨pairwise_cons.mpr ⟨fun x hx => ?_, h.sorted⟩, ?_⟩, Perm.refl _⟩
    · have := h.fits x hx
      omega
    · exact forall_mem_cons.mpr ⟨hself, hfits⟩
  · refine ⟨⟨pairwise_append.mpr ⟨h.sorted, pairwise_singleton _ _, ?_⟩, ?_⟩,
      perm_append_singleton _ _⟩
    · intro x hx y hy
      have := h.fits x hx
      rw [mem_singleton.mp hy]
      omega
    · intro x hx
      rcases mem_append.mp hx with hx | hx
      · exact hfits x hx
      · rw [mem_singleton.mp hx]
        exact hself

theorem intsetAdd_spec (h : is.Ok) (hlo : llongMin ≤ v) (hhi : v ≤ llongMax) :
    (intsetAdd is v = (is, false) ∧ v ∈ is.contents) ∨
      v ∉ is.contents ∧ ∃ is', intsetAdd is v = (is', true) ∧ is.Added v is' := by
  unfold intsetAdd
  have hp := intsetSearch_place h v
  by_cases hw : is.Wide v
  · rw [if_neg (Nat.not_lt.mpr hw)]
    have hbounds := (intsetValueEncoding_le_iff hlo hhi).mp hw
    rcases hfound : (intsetSearch is v).1 with _ | _
    · rw [hfound] at hp
      simp only [hfound, Bool.false_eq_true, if_false, IntsetEnc.cast_eq hbounds.1 hbounds.2]
      exact .inr ⟨fun hv => Bool.noConfusion (hp.found_iff.mpr hv), _, rfl, hp.added h hbounds⟩
    · exact .inl ⟨by simp [hfound], hp.found_iff.mp hfound⟩
  · rw [if_pos (Nat.lt_of_not_le hw)]
    exact .inr ⟨fun hv => hw (h.wide hv), _, rfl, intsetUpgradeAndAdd_added h hlo hhi hw⟩

theorem Intset.Place.drop_eq {found : Bool} {pos : ℕ} (hp : is.Place v found pos) (h : is.Ok)
    (hv : v ∈ is.contents) : is.contents.drop pos = v :: is.contents.drop (pos + 1) := by
  have hsorted := h.sorted
  rw [← take_append_drop pos is.contents, pairwise_append] at hsorted
  rw [← take_append_drop pos is.contents] at hv
  have hmem : v ∈ is.contents.drop pos := by
    rcases mem_append.mp hv with hv | hv
    · exact absurd (hp.below v hv) (lt_irrefl v)
    · exact hv
  rw [← tail_drop]
  rcases hd : is.contents.drop pos with _ | ⟨x, rest⟩
  · rw [hd] at hmem
    cases hmem
  · rw [hd, pairwise_cons] at hsorted
    rw [hd] at hmem
    rcases mem_cons.mp hmem with rfl | hrest
    · rfl
    · exact absurd (hp.above x (hd ▸ mem_cons_self)) (hsorted.2.1.1 v hrest).not_ge

theorem intsetRemove_spec (h : is.Ok) (v : ℤ) :
    (intsetRemove is v = (is, false) ∧ v ∉ is.contents) ∨
      v ∈ is.contents ∧ ∃ is', intsetRemove is v = (is', true) ∧ is'.Ok ∧
        is.contents.Perm (v :: is'.contents) := by
  unfold intsetRemove
  have hp := intsetSearch_place h v
  by_cases hv : v ∈ is.contents
  · rw [if_pos ⟨h.wide hv, hp.found_iff.mpr hv⟩]
    obtain ⟨pos, hpos⟩ : ∃ pos, pos = (intsetSearch is v).2 := ⟨_, rfl⟩
    rw [← hpos] at hp ⊢
    have hdrop := hp.drop_eq h hv
    have hperm : is.contents.Perm (v :: (is.contents.take pos ++ is.contents.drop (pos + 1))) := by
      conv_lhs => rw [← take_append_drop pos is.contents, hdrop]
      exact perm_middle
    refine .inr ⟨hv, _, rfl, ⟨?_, fun x hx => h.fits x (hperm.mem_iff.mpr (mem_cons_of_mem _ hx))⟩,
      hperm⟩
    refine h.sorted.sublist ?_
    conv_rhs => rw [← take_append_drop pos is.contents, hdrop]
    exact (Sublist.refl _).append (sublist_cons_self _ _)
  · rw [if_neg fun hc => hv (hp.found_iff.mp hc.2)]
    exact .inl ⟨rfl, hv⟩

end Vire
