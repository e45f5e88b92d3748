import Mathlib.Data.List.Basic
import Mathlib.Order.Nat
import Mathlib.Tactic.Common

/-!
# Runs, fairness and progress

Runs of a labelled transition system given by a partial step function.  A run may pause at any
position, so a finite execution is a run that pauses for ever.  Progress is stated with `LeadsTo`
and proved from the fairness of a task.
-/

namespace Vire.Logic

open List Option

variable {σ α : Type*} {step : σ → α → Option σ} {init : σ}

def Next (step : σ → α → Option σ) (s : σ) : Option α → σ → Prop
  | none, s' => s' = s
  | some a, s' => step s a = some s'

structure Run (step : σ → α → Option σ) (init : σ) where
  state : ℕ → σ
  act : ℕ → Option α
  start : state 0 = init
  next : ∀ m, Next step (state m) (act m) (state (m + 1))

variable {G : σ → α → Prop} {m : ℕ} {a : α}

namespace Run

/-- Every step of the run meets the condition `G` on the state before it and its label. -/
def Meets (r : Run step init) (G : σ → α → Prop) : Prop :=
  ∀ m a, r.act m = some a → G (r.state m) a

theorem Meets.mono {r : Run step init} {G G' : σ → α → Prop} (h : r.Meets G)
    (himp : ∀ s a, G s a → G' s a) : r.Meets G' :=
  fun m a ha => himp _ _ (h m a ha)

theorem step_eq (r : Run step init) (ha : r.act m = some a) :
    step (r.state m) a = some (r.state (m + 1)) := by
  have := r.next m
  rwa [ha] at this

theorem pause_eq (r : Run step init) (ha : r.act m = none) :
    r.state (m + 1) = r.state m := by
  have := r.next m
  rwa [ha] at this

/-- What holds at the start and is kept by every step that meets `G` holds throughout. -/
theorem invariant (r : Run step init) {I : σ → Prop} (hr : r.Meets G)
    (h0 : I init) (hstep : ∀ s a s', I s → G s a → step s a = some s' → I s') (m : ℕ) :
    I (r.state m) := by
  induction m with
  | zero => rw [r.start]; exact h0
  | succ m ih =>
    cases ha : r.act m with
    | none => rw [r.pause_eq ha]; exact ih
    | some a => exact hstep _ a _ ih (hr m a ha) (r.step_eq ha)

def count (r : Run step init) (p : α → Bool) : ℕ → ℕ
  | 0 => 0
  | m + 1 => r.count p m + ((r.act m).any p).toNat

theorem invariant_count (r : Run step init) {p q : α → Bool} {I : ℕ → ℕ → σ → Prop}
    (h0 : I 0 0 init)
    (hstep : ∀ i j s a s', I i j s → step s a = some s' → I (i + (p a).toNat) (j + (q a).toNat) s')
    (m : ℕ) : I (r.count p m) (r.count q m) (r.state m) := by
  induction m with
  | zero => rw [r.start]; exact h0
  | succ m ih =>
    cases ha : r.act m with
    | none => simpa [count, ha, r.pause_eq ha] using ih
    | some a => simpa [count, ha] using hstep _ _ _ a _ ih (r.step_eq ha)

/-- Whenever `P` holds, `Q` holds then or later. -/
def LeadsTo (r : Run step init) (P Q : σ → Prop) : Prop :=
  ∀ m, P (r.state m) → ∃ m' ≥ m, Q (r.state m')

variable {r : Run step init} {P P' Q R : σ → Prop}

theorem LeadsTo.trans_or (h : r.LeadsTo P fun s => Q s ∨ R s) (h' : r.LeadsTo Q R) :
    r.LeadsTo P R := by
  intro m hm
  obtain ⟨m1, hm1, hq | hr⟩ := h m hm
  · obtain ⟨m2, hm2, hr⟩ := h' m1 hq
    exact ⟨m2, hm1.trans hm2, hr⟩
  · exact ⟨m1, hm1, hr⟩

/-- A task that stays enabled is taken. -/
def FairTo (r : Run step init) (enabled : σ → Prop) (task : α → Prop) : Prop :=
  ∀ m, (∀ m' ≥ m, enabled (r.state m')) → ∃ m' ≥ m, ∃ a, r.act m' = some a ∧ task a

/-- If `P` lasts until `Q` and keeps a fair task enabled that brings about `Q`, then `P` leads to
`Q`. -/
theorem FairTo.leadsTo {enabled : σ → Prop} {task : α → Prop} (hfair : r.FairTo enabled task)
    (hkeep : ∀ m a, P (r.state m) → r.act m = some a →
      P (r.state (m + 1)) ∨ Q (r.state (m + 1)))
    (henabled : ∀ m, P (r.state m) → enabled (r.state m))
    (htask : ∀ m a, P (r.state m) → r.act m = some a → task a → Q (r.state (m + 1))) :
    r.LeadsTo P Q := by
  intro m hm
  by_contra hnot
  have hq : ∀ m' ≥ m, ¬ Q (r.state m') := fun m' hm' hq => hnot ⟨m', hm', hq⟩
  -- as long as `Q` does not come, `P` stays
  have hp : ∀ d, P (r.state (m + d)) := by
    intro d
    induction d with
    | zero => exact hm
    | succ d ih =>
      cases ha : r.act (m + d) with
      | none => rw [← Nat.add_assoc, r.pause_eq ha]; exact ih
      | some a => exact (hkeep _ a ih ha).resolve_right (hq _ (by omega))
  have hp' : ∀ m' ≥ m, P (r.state m') := fun m' hm' => by
    have := hp (m' - m)
    rwa [Nat.add_sub_cancel' hm'] at this
  obtain ⟨m', hm', a, ha, ht⟩ := hfair m fun m' hm' => henabled m' (hp' m' hm')
  exact hq (m' + 1) (by omega) (htask m' a (hp' m' hm') ha ht)

/-- `I` lasts until `Q`. -/
def Until (r : Run step init) (I Q : σ → Prop) : Prop :=
  ∀ m a, I (r.state m) → r.act m = some a → I (r.state (m + 1)) ∨ Q (r.state (m + 1))

/-- While `I` lasts, a fair task leads from `P` to `R`, and `R` leads to `Q`. -/
theorem FairTo.leadsTo_until {I : σ → Prop} {enabled : σ → Prop} {task : α → Prop}
    (hfair : r.FairTo enabled task) (hI : r.Until I Q)
    (henabled : ∀ m, P (r.state m) → enabled (r.state m))
    (hkeep : ∀ m a, P (r.state m) → r.act m = some a → ¬ task a → P (r.state (m + 1)))
    (htask : ∀ m a, I (r.state m) → P (r.state m) → r.act m = some a → task a →
      R (r.state (m + 1)) ∨ Q (r.state (m + 1)))
    (hR : r.LeadsTo (fun s => I s ∧ R s) Q) : r.LeadsTo (fun s => I s ∧ P s) Q := by
  have hown : ∀ m a, I (r.state m) ∧ P (r.state m) → r.act m = some a → task a →
      (I (r.state (m + 1)) ∧ R (r.state (m + 1))) ∨ Q (r.state (m + 1)) := by
    rintro m a ⟨hi, hp⟩ ha ht
    rcases hI m a hi ha with hi' | hq
    · exact (htask m a hi hp ha ht).imp_left (And.intro hi')
    · exact .inr hq
  refine (hfair.leadsTo (fun m a hP ha => ?_) (fun m hP => henabled m hP.2) hown).trans_or hR
  by_cases ht : task a
  · exact .inr (hown m a hP ha ht)
  rcases hI m a hP.1 ha with hi | hq
  · exact .inl ⟨hi, hkeep m a hP.2 ha ht⟩
  · exact .inr (.inr hq)

end Run

def exec (step : σ → α → Option σ) (s : σ) : List α → Option σ
  | [] => some s
  | a :: as => (step s a).bind fun s' => exec step s' as

theorem exec_append (s : σ) (as bs : List α) :
    exec step s (as ++ bs) = (exec step s as).bind fun s' => exec step s' bs := by
  induction as generalizing s with
  | nil => rfl
  | cons a as ih =>
    simp only [cons_append, exec]
    cases step s a with
    | none => rfl
    | some s' => exact ih s'

variable {as : List α} {s : σ}

theorem exec_take_isSome (h : (exec step s as).isSome = true) (m : ℕ) :
    (exec step s (as.take m)).isSome = true := by
  rw [← take_append_drop m as, exec_append] at h
  cases hs : exec step s (as.take m) with
  | none => rw [hs] at h; exact h
  | some s' => rfl

/-- The run that takes the steps `as` and then pauses for ever. -/
def Run.ofList (as : List α) (h : (exec step init as).isSome = true) : Run step init where
  state m := (exec step init (as.take m)).get (exec_take_isSome h m)
  act m := as[m]?
  start := by simp [exec]
  next m := by
    by_cases hm : m < as.length
    · have hget : as[m]? = some as[m] := getElem?_eq_getElem hm
      have htake : as.take (m + 1) = as.take m ++ [as[m]] := (take_append_getElem hm).symm
      have h₁ := exec_take_isSome h (m + 1)
      rw [hget]
      simp only [Next, htake, exec_append] at h₁ ⊢
      obtain ⟨s, hs⟩ := isSome_iff_exists.mp (exec_take_isSome h m)
      simp only [hs, bind_some, exec, get_some, some_get]
      cases step s as[m] <;> rfl
    · have hle : as.length ≤ m := Nat.le_of_not_lt hm
      have hget : as[m]? = none := getElem?_eq_none hle
      rw [hget]
      simp only [Next, take_of_length_le hle, take_of_length_le (Nat.le_succ_of_le hle)]

/-- Every step of the execution of `as` from `s` meets the condition `G`. -/
def Along (step : σ → α → Option σ) (G : σ → α → Prop) : σ → List α → Prop
  | _, [] => True
  | s, a :: as => G s a ∧ match step s a with
    | none => True
    | some s' => Along step G s' as

instance decidableAlong {G : σ → α → Prop} [∀ s a, Decidable (G s a)] (s : σ) (as : List α) :
    Decidable (Along step G s as) := by
  induction as generalizing s with
  | nil => exact .isTrue trivial
  | cons a as ih =>
    unfold Along
    cases step s a with
    | none => infer_instance
    | some s' =>
      have := ih s'
      infer_instance

theorem Along.cons (h : G s a)
    (hrest : ∀ s', step s a = some s' → Along step G s' as) : Along step G s (a :: as) := by
  refine ⟨h, ?_⟩
  cases hs : step s a with
  | none => trivial
  | some s' => exact hrest s' hs

theorem Along.of_forall (h : ∀ s, ∀ a ∈ as, G s a) (s : σ) :
    Along step G s as := by
  induction as generalizing s with
  | nil => trivial
  | cons a as ih =>
    exact .cons (h s a (mem_cons_self ..)) fun s' _ =>
      ih (fun s b hb => h s b (mem_cons_of_mem _ hb)) s'

theorem Along.getElem (h : Along step G s as) (ha : as[m]? = some a) {s' : σ}
    (hs : exec step s (as.take m) = some s') : G s' a := by
  induction as generalizing s m with
  | nil => simp at ha
  | cons b as ih =>
    cases m with
    | zero =>
      cases ha
      cases hs
      exact h.1
    | succ m =>
      simp only [take_succ_cons, exec, bind_eq_some_iff] at hs
      obtain ⟨s1, hs1, hs2⟩ := hs
      have hrest := h.2
      rw [hs1] at hrest
      exact ih hrest ha hs2

section

variable (h : (exec step init as).isSome = true)

include h

theorem Run.ofList_meets (hG : Along step G init as) : (Run.ofList as h).Meets G :=
  fun m _ ha => hG.getElem ha (some_get (exec_take_isSome h m)).symm

theorem Run.ofList_state
    (hm : as.length ≤ m) : (Run.ofList as h).state m = (exec step init as).get h := by
  simp only [Run.ofList, take_of_length_le hm]

theorem Run.count_ofList {p : α → Bool}
    (hp : ∀ a ∈ as, p a = false) (m : ℕ) : (Run.ofList as h).count p m = 0 := by
  induction m with
  | zero => rfl
  | succ m ih =>
    have hany : (as[m]?).any p = false := by
      rcases ha : as[m]? with _ | a
      · rfl
      · exact hp a (mem_of_getElem? ha)
    rw [count, ih, Nat.zero_add]
    exact congrArg Bool.toNat hany

theorem Run.ofList_fairTo
    {enabled : σ → Prop} {task : α → Prop} (hend : ¬ enabled ((exec step init as).get h)) :
    (Run.ofList as h).FairTo enabled task := by
  intro m hm
  have := hm (max m as.length) (le_max_left _ _)
  rw [Run.ofList_state h (le_max_right _ _)] at this
  exact absurd this hend

end

end Vire.Logic
