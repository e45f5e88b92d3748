import Vire.Logic.Sequential

/-!
# A thread among others

In `Prog.runAmong` other threads bring the shared state to `env n s` before the thread takes a lock
for the `n`-th time; `Prog.WpAmong` is the weakest precondition of such a run when the others keep
to a relation between states.
-/

namespace Vire.Logic.Prog

open Machine (perform)

variable {τ σ α β : Type} {Op : Type → Type} [Machine τ σ Op]

def runAmong (env : ℕ → σ → σ) :
    Prog τ Op α → (ℕ → ℤ) → ℕ → τ → σ → Option (α × τ × σ)
  | ret a, _, _, t, s => some (a, t, s)
  | lock _ k, world, n, t, s => k.runAmong env world (n + 1) t (env n s)
  | unlock k, world, n, t, s => k.runAmong env world n t s
  | loc f k, world, n, t, s => (k (f t).1).runAmong env world n (f t).2 s
  | act o k, world, n, t, s => (k (perform o t s).1).runAmong env world n t (perform o t s).2
  | ask k, world, n, t, s => (k (world 0)).runAmong env (fun i => world (i + 1)) n t s
  | halt, _, _, _, _ => none

/-- The program returns and ends in `Q`, having taken `n` locks before and so many after it. -/
def WpAmong (Rely : ℕ → σ → σ → Prop) :
    Prog τ Op α → ℕ → τ → σ → (α → ℕ → τ → σ → Prop) → Prop
  | ret a, n, t, s, Q => Q a n t s
  | lock _ k, n, t, s, Q => ∀ s', Rely n s s' → k.WpAmong Rely (n + 1) t s' Q
  | unlock k, n, t, s, Q => k.WpAmong Rely n t s Q
  | loc f k, n, t, s, Q => (k (f t).1).WpAmong Rely n (f t).2 s Q
  | act o k, n, t, s, Q => (k (perform o t s).1).WpAmong Rely n t (perform o t s).2 Q
  | ask k, n, t, s, Q => ∀ x, (k x).WpAmong Rely n t s Q
  | halt, _, _, _, _ => False

variable {Rely : ℕ → σ → σ → Prop} {n : ℕ} {t : τ} {s : σ} {Q Q' : α → ℕ → τ → σ → Prop}

theorem WpAmong.run {p : Prog τ Op α} (h : p.WpAmong Rely n t s Q) (env : ℕ → σ → σ)
    (henv : ∀ n s, Rely n s (env n s)) (world : ℕ → ℤ) :
    ∃ a n' t' s', p.runAmong env world n t s = some (a, t', s') ∧ Q a n' t' s' := by
  induction p generalizing n t s world with
  | ret a => exact ⟨a, n, t, s, rfl, h⟩
  | lock m k ih => exact ih (h _ (henv n s)) world
  | unlock k ih => exact ih h world
  | loc f k ih => exact ih _ h world
  | act o k ih => exact ih _ h world
  | ask k ih => exact ih _ (h _) _
  | halt => exact h.elim

theorem wpAmong_alone {p : Prog τ Op α} {Q : α → τ → σ → Prop} :
    p.WpAmong (fun _ s s' => s' = s) n t s (fun a _ => Q a) ↔ p.Wp t s Q := by
  induction p generalizing n t s with
  | ret a => exact Iff.rfl
  | lock m k ih => exact forall_eq.trans ih
  | unlock k ih => exact ih
  | loc f k ih => exact ih _
  | act o k ih => exact ih _
  | ask k ih => exact forall_congr' fun x => ih x
  | halt => exact Iff.rfl

theorem wpAmong_bind' (p : Prog τ Op β) (f : β → Prog τ Op α) :
    (p.bind f).WpAmong Rely n t s Q =
      p.WpAmong Rely n t s fun b n t s => (f b).WpAmong Rely n t s Q := by
  induction p generalizing n t s with
  | ret a => rfl
  | lock m k ih => simp only [bind, WpAmong, ih]
  | unlock k ih => simp only [bind, WpAmong, ih]
  | loc h k ih => simp only [bind, WpAmong, ih]
  | act o k ih => simp only [bind, WpAmong, ih]
  | ask k ih => simp only [bind, WpAmong, ih]
  | halt => rfl

@[simp]
theorem wpAmong_bind (p : Prog τ Op β) (f : β → Prog τ Op α) :
    (p >>= f).WpAmong Rely n t s Q ↔
      p.WpAmong Rely n t s fun b n t s => (f b).WpAmong Rely n t s Q :=
  iff_of_eq (wpAmong_bind' p f)

@[simp]
theorem wpAmong_pure (a : α) : (pure a : Prog τ Op α).WpAmong Rely n t s Q ↔ Q a n t s := Iff.rfl

@[simp]
theorem wpAmong_lockP {m : Mode} {Q : Unit → ℕ → τ → σ → Prop} :
    (lockP m : Prog τ Op Unit).WpAmong Rely n t s Q ↔ ∀ s', Rely n s s' → Q () (n + 1) t s' :=
      Iff.rfl

@[simp]
theorem wpAmong_unlockP {Q : Unit → ℕ → τ → σ → Prop} :
    (unlockP : Prog τ Op Unit).WpAmong Rely n t s Q ↔ Q () n t s := Iff.rfl

@[simp]
theorem wpAmong_modifyP {f : τ → τ} {Q : Unit → ℕ → τ → σ → Prop} :
    (modifyP f : Prog τ Op Unit).WpAmong Rely n t s Q ↔ Q () n (f t) s := Iff.rfl

@[simp]
theorem wpAmong_readP (f : τ → α) :
    (readP f : Prog τ Op α).WpAmong Rely n t s Q ↔ Q (f t) n t s := Iff.rfl

@[simp]
theorem wpAmong_actP (o : Op α) :
    (actP o : Prog τ Op α).WpAmong Rely n t s Q ↔ Q (perform o t s).1 n t (perform o t s).2 :=
      Iff.rfl

end Vire.Logic.Prog
