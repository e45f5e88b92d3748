import Mathlib.Data.Int.Notation
import Mathlib.Data.List.Sort

/-!
# Ranges of indexes

LRANGE, LTRIM, ZRANGE, ZREVRANGE and GETRANGE take any two indexes.  Negative ones count from the
end, and those that are out of range are moved to the nearest position.
-/

namespace Vire

open List

/-- `convert negative indexes` in `lrangeCommand` and `ltrimCommand`, `Sanitize indexes` in
`zrangeGenericCommand`. -/
def convertIndexes (start stop llen : ℤ) : ℤ × ℤ :=
  let start := if start < 0 then llen + start else start
  let stop := if stop < 0 then llen + stop else stop
  (if start < 0 then 0 else start, stop)

/-- `The range is empty when start > end or start >= length.` -/
def emptyRange (r : ℤ × ℤ) (llen : ℤ) : Prop := r.2 < r.1 ∨ llen ≤ r.1

instance (r : ℤ × ℤ) (llen : ℤ) : Decidable (emptyRange r llen) := by
  unfold emptyRange
  infer_instance

def clampStop (stop llen : ℤ) : ℤ := if llen ≤ stop then llen - 1 else stop

/-- `Convert negative indexes` in `getrangeCommand`, `bitcountCommand` and `bitposCommand`, which
also move an end in front of the first byte to the first byte. -/
def byteRange (start stop strlen : ℤ) : ℤ × ℤ :=
  let r := convertIndexes start stop strlen
  (r.1, clampStop (if r.2 < 0 then 0 else r.2) strlen)

variable {α : Type} (l : List α)

def listPos (index : ℤ) : Option ℕ :=
  let i := if index < 0 then l.length + index else index
  if 0 ≤ i ∧ i < l.length then some i.toNat else none

def listSlice (start stop : ℤ) : List α :=
  let first := if start < 0 then l.length + start else start
  let last := if stop < 0 then l.length + stop else stop
  (l.take (last + 1).toNat).drop first.toNat

/-- The indexes of a sequence of `n` elements that lie from `start` to `stop`. -/
def selected (n : ℕ) (start stop : ℤ) : List ℕ :=
  let first := if start < 0 then n + start else start
  let last := if stop < 0 then n + stop else stop
  (range n).filter fun i => first ≤ i ∧ i ≤ last

variable {l} {index start stop : ℤ}

theorem listPos_some {p : ℕ} (h : listPos l index = some p) :
    p < l.length ∧ (index = p ∨ index = (p : ℤ) - l.length) := by
  dsimp only [listPos] at h
  split_ifs at h with hneg hin hin <;> obtain rfl := Option.some.inj h <;> omega

theorem listPos_none (h : listPos l index = none) : index < -l.length ∨ l.length ≤ index := by
  dsimp only [listPos] at h
  split_ifs at h with hneg hin hin <;> omega

theorem listSlice_nil : listSlice ([] : List α) start stop = [] := by
  simp [listSlice]

theorem selected_eq (α : Type) (n : ℕ) (start stop : ℤ) :
    ∃ a b : ℕ, selected n start stop = range' a (min b n - a) ∧
      ∀ l : List α, l.length = n → listSlice l start stop = (l.drop a).take (b - a) := by
  let first := if start < 0 then n + start else start
  let last := if stop < 0 then n + stop else stop
  refine ⟨first.toNat, (last + 1).toNat, ?_, fun l hl => ?_⟩
  · refine (pairwise_lt_range.filter _).eq_of_mem_iff pairwise_lt_range' fun i => ?_
    simp only [mem_filter, mem_range, mem_range'_1, decide_eq_true_eq, first, last]
    omega
  · rw [listSlice, hl, drop_take]

theorem filterMap_range' (l : List α) (a k : ℕ) :
    (range' a k).filterMap (l[·]?) = (l.drop a).take k := by
  induction k generalizing a with
  | zero => rw [take_zero, range'_zero, filterMap_nil]
  | succ k ih =>
    rw [range'_succ, filterMap_cons, ih]
    by_cases ha : a < l.length
    · rw [getElem?_eq_getElem ha, drop_eq_getElem_cons ha, take_succ_cons]
    · rw [getElem?_eq_none (by omega), drop_eq_nil_of_le (by omega), drop_eq_nil_of_le (by omega),
        take_nil, take_nil]

theorem listSlice_eq_selected (l : List α) (start stop : ℤ) :
    listSlice l start stop = (selected l.length start stop).filterMap (l[·]?) := by
  obtain ⟨a, b, hsel, hslice⟩ := selected_eq α l.length start stop
  rw [hsel, filterMap_range', hslice l rfl, take_eq_take_iff, length_drop]
  omega

theorem convertIndexes_fst :
    (convertIndexes start stop l.length).1.toNat =
      (if start < 0 then l.length + start else start).toNat := by
  dsimp only [convertIndexes]
  split_ifs <;> omega

theorem listSlice_eq :
    listSlice l start stop =
      (l.drop (convertIndexes start stop l.length).1.toNat).take
        (((convertIndexes start stop l.length).2 + 1).toNat - (convertIndexes start stop
          l.length).1.toNat) := by
  rw [convertIndexes_fst, listSlice, drop_take]
  rfl

theorem convertIndexes_nonneg (start stop llen : ℤ) : 0 ≤ (convertIndexes start stop llen).1 := by
  dsimp only [convertIndexes]
  split_ifs <;> omega

theorem listSlice_empty (h : emptyRange (convertIndexes start stop l.length) l.length) :
    listSlice l start stop = [] := by
  have := convertIndexes_nonneg start stop l.length
  rw [listSlice_eq]
  rcases h with h | h
  · rw [Nat.sub_eq_zero_of_le (by omega), take_zero]
  · rw [drop_eq_nil_of_le (by omega), take_nil]

theorem listSlice_range (h : ¬emptyRange (convertIndexes start stop l.length) l.length) :
    ∃ p k : ℕ, (convertIndexes start stop l.length).1 = p ∧
      clampStop (convertIndexes start stop l.length).2 l.length = (p : ℤ) + k - 1 ∧ 0 < k ∧
      p + k ≤ l.length ∧ listSlice l start stop = (l.drop p).take k := by
  have hpos := convertIndexes_nonneg start stop l.length
  rw [listSlice_eq]
  generalize convertIndexes start stop l.length = r at h hpos
  obtain ⟨hle, hlt⟩ := not_or.mp h
  obtain ⟨p, hp⟩ := Int.eq_ofNat_of_zero_le hpos
  rw [clampStop]
  split_ifs with hstop
  · refine ⟨p, l.length - p, hp, by omega, by omega, by omega, ?_⟩
    rw [hp, Int.toNat_natCast, take_of_length_le (by rw [length_drop]; omega),
      take_of_length_le (Nat.le_of_eq length_drop)]
  · refine ⟨p, (r.2 + 1).toNat - p, hp, by omega, by omega, by omega, ?_⟩
    rw [hp, Int.toNat_natCast]

end Vire
