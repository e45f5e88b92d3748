import Mathlib.Logic.Function.Basic
import Vire.Dict.Proofs.Map

/-!
# Updates of a dictionary as updates of a map

`Dict.get` is the map a dictionary stands for.  Each update of the dictionary updates the map at the
text of its key; rehashing does not change it.
-/

namespace Vire

open Function Option

variable {K V : Type} [Text K] {d d' : Dict K V}

def Dict.get (d : Dict K V) (x : Sds) : Option V := (assoc d.entries x).map Prod.snd

theorem assoc_cons (e : K × V) (l : List (K × V)) (x : Sds) :
    assoc (e :: l) x = if text e.1 = x then some e else assoc l x := by
  by_cases h : text e.1 = x <;> simp [assoc, h]

theorem assoc_map_put (l : List (K × V)) (x y : Sds) (v : V) :
    assoc (l.map (Dictht.put x v)) y = (assoc l y).map (Dictht.put x v) := by
  simp only [assoc, List.find?_map]
  congr 2
  funext e
  simp only [comp, Dictht.put]
  split_ifs <;> rfl

namespace Dict

@[simp]
theorem get_create (x : Sds) : (create : Dict K V).get x = none := rfl

theorem get_eq_none {x : Sds} : d.get x = none ↔ assoc d.entries x = none := map_eq_none_iff

theorem get_isSome (x : Sds) : (d.get x).isSome = (assoc d.entries x).isSome := isSome_map

theorem get_isSome_iff {x : Sds} : (d.get x).isSome = true ↔ x ∈ texts d.entries := by
  rw [get_isSome, isSome_iff_ne_none, ne_eq, assoc_eq_none, not_not]

theorem get_isSome_of_mem {e : K × V} (h : e ∈ d.entries) : (d.get (text e.1)).isSome = true :=
  get_isSome_iff.mpr (List.mem_map.mpr ⟨e, h, rfl⟩)

variable [HashFn]

theorem Same.get_eq (h : Same d d') : d'.get = d.get := by
  funext x
  rw [get, get, h.assoc_eq]

theorem WF.dictFind_map (hw : d.WF) (x : Sds) : (dictFind d x).map Prod.snd = d.get x := by
  rw [dictFind_eq hw, get]

theorem WF.dictFind_isSome (hw : d.WF) (x : Sds) : (dictFind d x).isSome = (d.get x).isSome := by
  rw [dictFind_eq hw, get_isSome]

end Dict

open Dict

variable [HashFn]

section

variable (hw : d.WF)

include hw

theorem dictAdd_flag (k : K) (v : V) :
    (dictAdd d k v).2 = (d.get (text k)).isNone := by
  rw [(dictAdd_spec hw k v).2.2.1, Dict.get, isNone_map]

theorem assoc_dictAdd (k : K) (v : V) (h : assoc d.entries (text k) = none) :
    assoc (dictAdd d k v).1.entries = update (assoc d.entries) (text k) (some (k, v)) := by
  obtain ⟨hw', -, -, hperm, -⟩ := dictAdd_spec hw k v
  funext x
  rw [assoc_perm (hperm h) hw'.nodup, assoc_cons]
  by_cases hx : text k = x
  · subst hx
    simp
  · simp [hx, update_of_ne (Ne.symm hx)]

theorem assoc_dictAdd_of_isSome (k : K) (v : V) (h : (assoc d.entries (text k)).isSome = true) :
    assoc (dictAdd d k v).1.entries = assoc d.entries := by
  obtain ⟨hw', -, -, -, hperm⟩ := dictAdd_spec hw k v
  funext x
  exact assoc_perm (hperm h) hw'.nodup x

theorem assoc_setVal {x : Sds} {e : K × V} (h : assoc d.entries x = some e) (v : V) :
    (d.setVal x v).WF ∧
      assoc (d.setVal x v).entries = update (assoc d.entries) x (some (e.1, v)) := by
  obtain ⟨hw', -, hent⟩ := hw.setVal (isSome_of_eq_some h) v
  refine ⟨hw', funext fun y => ?_⟩
  rw [hent, assoc_map_put]
  by_cases hy : y = x
  · subst hy
    simp [h, (mem_of_assoc h).2, Dictht.put]
  · rw [update_of_ne hy]
    rcases he : assoc d.entries y with _ | e
    · rfl
    · have hne : text e.1 ≠ x := fun hx => hy ((mem_of_assoc he).2.symm.trans hx)
      simp [Dictht.put, hne]

theorem assoc_dictReplace (k : K) (v : V) :
    (dictReplace d k v).1.WF ∧ assoc (dictReplace d k v).1.entries =
      update (assoc d.entries) (text k)
        (some (((assoc d.entries (text k)).map Prod.fst).getD k, v)) := by
  obtain ⟨hw', -, hflag, -⟩ := dictAdd_spec hw k v
  unfold dictReplace
  rcases h : assoc d.entries (text k) with _ | e
  · rw [h] at hflag
    simp only [hflag, isNone_none, if_true]
    exact ⟨hw', assoc_dictAdd hw k v h⟩
  · rw [h] at hflag
    have hsame := assoc_dictAdd_of_isSome hw k v (isSome_of_eq_some h)
    simp only [hflag, isNone_some, Bool.false_eq_true, if_false]
    rw [← hsame]
    exact assoc_setVal hw' (hsame ▸ h) v

theorem assoc_dictReplaceRaw (k : K) (v : V) :
    (dictReplaceRaw d k v).WF ∧ assoc (dictReplaceRaw d k v).entries =
      update (assoc d.entries) (text k)
        (some (((assoc d.entries (text k)).map Prod.fst).getD k, v)) := by
  unfold dictReplaceRaw
  rw [dictFind_eq hw]
  rcases h : assoc d.entries (text k) with _ | e
  · exact ⟨(dictAdd_spec hw k v).1, assoc_dictAdd hw k v h⟩
  · exact assoc_setVal hw h v

theorem assoc_dictDelete (x : Sds) :
    assoc (dictDelete d x).1.entries = update (assoc d.entries) x none := by
  obtain ⟨hw', -, -, hnone, hsome⟩ := dictDelete_spec hw x
  funext y
  rcases h : assoc d.entries x with _ | e
  · rw [assoc_perm (hnone h) hw'.nodup]
    by_cases hy : y = x
    · subst hy
      simp [h]
    · rw [update_of_ne hy]
  · have hperm := hsome e h
    have hnodup := (nodup_texts_perm hperm).mp hw.nodup
    rw [texts_cons, List.nodup_cons, (mem_of_assoc h).2] at hnodup
    by_cases hy : y = x
    · subst hy
      rw [update_self, assoc_eq_none]
      exact hnodup.1
    · rw [update_of_ne hy, assoc_perm hperm hw.nodup, assoc_cons, (mem_of_assoc h).2,
        if_neg (Ne.symm hy)]

end

omit [HashFn] in
theorem get_eq_update {x : Sds} {o : Option (K × V)}
    (h : assoc d'.entries = update (assoc d.entries) x o) :
    d'.get = update d.get x (o.map Prod.snd) := by
  have hcomp : ∀ d : Dict K V, d.get = Option.map Prod.snd ∘ assoc d.entries := fun _ => rfl
  rw [hcomp, hcomp, h, comp_update]

theorem get_dictAdd (hw : d.WF) (k : K) (v : V) (h : d.get (text k) = none) :
    (dictAdd d k v).1.get = update d.get (text k) (some v) :=
  get_eq_update (assoc_dictAdd hw k v (get_eq_none.mp h))

theorem get_setVal (hw : d.WF) {x : Sds} (h : (d.get x).isSome = true) (v : V) :
    (d.setVal x v).WF ∧ (d.setVal x v).get = update d.get x (some v) := by
  rw [get_isSome] at h
  obtain ⟨e, he⟩ := isSome_iff_exists.mp h
  obtain ⟨hw', hassoc⟩ := assoc_setVal hw he v
  exact ⟨hw', get_eq_update hassoc⟩

theorem get_dictReplace (hw : d.WF) (k : K) (v : V) :
    (dictReplace d k v).1.WF ∧
      (dictReplace d k v).1.get = update d.get (text k) (some v) :=
  ⟨(assoc_dictReplace hw k v).1, get_eq_update (assoc_dictReplace hw k v).2⟩

theorem get_dictReplaceRaw (hw : d.WF) (k : K) (v : V) :
    (dictReplaceRaw d k v).WF ∧
      (dictReplaceRaw d k v).get = update d.get (text k) (some v) :=
  ⟨(assoc_dictReplaceRaw hw k v).1, get_eq_update (assoc_dictReplaceRaw hw k v).2⟩

theorem get_dictDelete (hw : d.WF) (x : Sds) :
    (dictDelete d x).1.WF ∧ (dictDelete d x).1.get = update d.get x none ∧
      (dictDelete d x).2.map Prod.snd = d.get x := by
  obtain ⟨hw', -, hret, -⟩ := dictDelete_spec hw x
  exact ⟨hw', get_eq_update (assoc_dictDelete hw x), by rw [hret, Dict.get]⟩

end Vire
