import Mathlib.Data.List.Nodup
import Mathlib.Data.List.Perm.Subperm
import Mathlib.Logic.Function.Basic
import Mathlib.Tactic.Common

/-!
# Finite maps and their enumerations

A finite map is a function to `Option` with a list of its pairs.  The list has every key once; its
order says nothing.
-/

namespace Vire.Logic

open Function List

variable {K V W : Type*} {l l' l₁ l₂ : List (K × V)} {m m' : K → Option V} {k : K} {v v' : V}

/-- The list has the pairs of the map, each key once. -/
structure Enumerates (l : List (K × V)) (m : K → Option V) : Prop where
  nodup : (l.map Prod.fst).Nodup
  mem_iff : ∀ k v, (k, v) ∈ l ↔ m k = some v

namespace Enumerates

theorem nil : Enumerates ([] : List (K × V)) fun _ => none :=
  ⟨nodup_nil, fun k v => by simp⟩

section

variable (h : Enumerates l m)

include h

theorem perm (hp : l'.Perm l) : Enumerates l' m :=
  ⟨(hp.map _).nodup_iff.mpr h.nodup, fun k v => hp.mem_iff.trans (h.mem_iff k v)⟩

theorem map_eq (h' : Enumerates l m') : m = m' := by
  funext k
  ext v
  exact (h.mem_iff k v).symm.trans (h'.mem_iff k v)

theorem mem_keys_iff : k ∈ l.map Prod.fst ↔ (m k).isSome = true := by
  rw [mem_map, Option.isSome_iff_exists]
  constructor
  · rintro ⟨⟨k, v⟩, hmem, rfl⟩
    exact ⟨v, (h.mem_iff k v).mp hmem⟩
  · rintro ⟨v, hv⟩
    exact ⟨(k, v), (h.mem_iff k v).mpr hv, rfl⟩

theorem not_mem_keys (hk : m k = none) : k ∉ l.map Prod.fst := by
  rw [h.mem_keys_iff, hk]
  exact Bool.false_ne_true

theorem split (hk : m k = some v) :
    ∃ l₁ l₂, l = l₁ ++ (k, v) :: l₂ ∧ k ∉ l₁.map Prod.fst := by
  obtain ⟨l₁, l₂, rfl⟩ := append_of_mem ((h.mem_iff k v).mpr hk)
  refine ⟨l₁, l₂, rfl, fun hmem => ?_⟩
  have hnodup := h.nodup
  rw [map_append, map_cons, nodup_append] at hnodup
  exact hnodup.2.2 k hmem k mem_cons_self rfl

theorem eq_nil_iff : l = [] ↔ ∀ k, m k = none := by
  constructor
  · rintro rfl k
    rw [Option.eq_none_iff_forall_not_mem]
    intro v hv
    exact not_mem_nil ((h.mem_iff k v).mpr hv)
  · intro hnone
    rw [eq_nil_iff_forall_not_mem]
    rintro ⟨k, v⟩ hmem
    rw [h.mem_iff, hnone] at hmem
    cases hmem

/-- Of two maps, the one with more keys has the longer list. -/
theorem length_le (h' : Enumerates l' m')
    (hsub : ∀ k, (m k).isSome = true → (m' k).isSome = true) : l.length ≤ l'.length := by
  have hkeys : l.map Prod.fst ⊆ l'.map Prod.fst := fun k hk =>
    h'.mem_keys_iff.mpr (hsub k (h.mem_keys_iff.mp hk))
  have hle := (subperm_of_subset h.nodup hkeys).length_le
  rwa [length_map, length_map] at hle

theorem length_eq (h' : Enumerates l' m) : l.length = l'.length :=
  Nat.le_antisymm (h.length_le h' fun _ => id) (h'.length_le h fun _ => id)

theorem filter (p : K → Bool) :
    Enumerates (l.filter fun e => p e.1) fun k => if p k then m k else none where
  nodup := h.nodup.sublist (filter_sublist.map _)
  mem_iff k v := by
    rw [mem_filter, h.mem_iff]
    cases p k <;> simp

end

section Update

variable [DecidableEq K]

theorem cons (h : Enumerates l m) (hk : m k = none) (v : V) :
    Enumerates ((k, v) :: l) (update m k (some v)) where
  nodup := nodup_cons.mpr ⟨h.not_mem_keys hk, h.nodup⟩
  mem_iff k' v' := by
    rw [mem_cons, Prod.mk.injEq, h.mem_iff]
    by_cases hkk : k' = k
    · subst hkk
      simp [hk, eq_comm]
    · simp [hkk]

theorem remove (h : Enumerates (l₁ ++ (k, v) :: l₂) m) :
    Enumerates (l₁ ++ l₂) (update m k none) := by
  have h' := h.perm perm_middle.symm
  obtain ⟨hnot, hnodup⟩ := nodup_cons.mp h'.nodup
  refine ⟨hnodup, fun k' v' => ?_⟩
  by_cases hkk : k' = k
  · subst hkk
    rw [update_self]
    exact ⟨fun hmem => absurd (mem_map_of_mem hmem) hnot, fun hc => by cases hc⟩
  · rw [update_of_ne hkk, ← h'.mem_iff, mem_cons, Prod.mk.injEq]
    exact ⟨.inr, fun hor => hor.resolve_left fun hc => hkk hc.1⟩

theorem replace (h : Enumerates (l₁ ++ (k, v) :: l₂) m) (v' : V) :
    Enumerates (l₁ ++ (k, v') :: l₂) (update m k (some v')) := by
  have := (h.remove.cons (update_self ..) v').perm perm_middle
  rwa [update_idem] at this

theorem exists_update (h : Enumerates l m) (k : K) (v : V) :
    ∃ l', Enumerates l' (update m k (some v)) ∧ l'.length ≤ l.length + 1 := by
  cases hk : m k with
  | none => exact ⟨_, h.cons hk v, Nat.le_refl _⟩
  | some y =>
    obtain ⟨l₁, l₂, rfl, -⟩ := h.split hk
    refine ⟨_, h.replace v, ?_⟩
    rw [length_append, length_append]
    exact Nat.le_succ _

end Update

end Enumerates

end Vire.Logic
