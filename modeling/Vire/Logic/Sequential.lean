import Mathlib.Logic.Function.Basic
import Vire.Logic.Prog

/-!
# A thread that is alone

What a program of `Vire.Logic.Prog` does when no other thread takes a step.  `Prog.Wp` is the
weakest precondition of such a run; a program that meets it returns, whatever the answers of the
outside world are.  If one request is answered as an abstract system may answer it, so is every
sequence of requests (`answers_of_simulation`).
-/

namespace Vire.Logic

open Machine (perform)

namespace Prog

variable {τ σ α β : Type} {Op : Type → Type} [Machine τ σ Op]

/-- The result, registers and shared state after a run, or `none` if an assertion fails. -/
def run : Prog τ Op α → (ℕ → ℤ) → τ → σ → Option (α × τ × σ)
  | ret a, _, t, s => some (a, t, s)
  | lock _ k, world, t, s => k.run world t s
  | unlock k, world, t, s => k.run world t s
  | loc f k, world, t, s => (k (f t).1).run world (f t).2 s
  | act o k, world, t, s => (k (perform o t s).1).run world t (perform o t s).2
  | ask k, world, t, s => (k (world 0)).run (fun n => world (n + 1)) t s
  | halt, _, _, _ => none

/-- The program returns and ends in `Q`. -/
def Wp : Prog τ Op α → τ → σ → (α → τ → σ → Prop) → Prop
  | ret a, t, s, Q => Q a t s
  | lock _ k, t, s, Q => k.Wp t s Q
  | unlock k, t, s, Q => k.Wp t s Q
  | loc f k, t, s, Q => (k (f t).1).Wp (f t).2 s Q
  | act o k, t, s, Q => (k (perform o t s).1).Wp t (perform o t s).2 Q
  | ask k, t, s, Q => ∀ x, (k x).Wp t s Q
  | halt, _, _, _ => False

/-- The program stops at an assertion, whatever the answers are. -/
def Fails : Prog τ Op α → τ → σ → Prop
  | ret _, _, _ => False
  | lock _ k, t, s => k.Fails t s
  | unlock k, t, s => k.Fails t s
  | loc f k, t, s => (k (f t).1).Fails (f t).2 s
  | act o k, t, s => (k (perform o t s).1).Fails t (perform o t s).2
  | ask k, t, s => ∀ x, (k x).Fails t s
  | halt, _, _ => True

variable {t : τ} {s : σ} {Q Q' : α → τ → σ → Prop} {p : Prog τ Op α}

theorem Wp.run (h : p.Wp t s Q) (world : ℕ → ℤ) :
    ∃ a t' s', p.run world t s = some (a, t', s') ∧ Q a t' s' := by
  induction p generalizing t s world with
  | ret a => exact ⟨a, t, s, rfl, h⟩
  | lock m k ih => exact ih h world
  | unlock k ih => exact ih h world
  | loc f k ih => exact ih _ h world
  | act o k ih => exact ih _ h world
  | ask k ih => exact ih _ (h _) _
  | halt => exact h.elim

theorem Fails.run (h : p.Fails t s) (world : ℕ → ℤ) : p.run world t s = none := by
  induction p generalizing t s world with
  | ret a => exact h.elim
  | lock m k ih => exact ih h world
  | unlock k ih => exact ih h world
  | loc f k ih => exact ih _ h world
  | act o k ih => exact ih _ h world
  | ask k ih => exact ih _ (h _) _
  | halt => rfl

theorem Fails.of_wp {p : Prog τ Op β} {f : β → Prog τ Op α}
    (h : p.Wp t s fun b t s => (f b).Fails t s) : (p >>= f).Fails t s := by
  change (p.bind f).Fails t s
  induction p generalizing t s with
  | ret a => exact h
  | lock m k ih => exact ih h
  | unlock k ih => exact ih h
  | loc g k ih => exact ih _ h
  | act o k ih => exact ih _ h
  | ask k ih => exact fun x => ih x (h x)
  | halt => exact h.elim

theorem Fails.bind {p : Prog τ Op β} {f : β → Prog τ Op α} (h : p.Fails t s) :
    (p >>= f).Fails t s := by
  change (p.bind f).Fails t s
  induction p generalizing t s with
  | ret a => exact h.elim
  | lock m k ih => exact ih h
  | unlock k ih => exact ih h
  | loc g k ih => exact ih _ h
  | act o k ih => exact ih _ h
  | ask k ih => exact fun x => ih x (h x)
  | halt => trivial

theorem Wp.mono (h : p.Wp t s Q) (himp : ∀ a t s, Q a t s → Q' a t s) :
    p.Wp t s Q' := by
  induction p generalizing t s with
  | ret a => exact himp _ _ _ h
  | lock m k ih => exact ih h
  | unlock k ih => exact ih h
  | loc f k ih => exact ih _ h
  | act o k ih => exact ih _ h
  | ask k ih => exact fun x => ih x (h x)
  | halt => exact h.elim

theorem wp_bind' (p : Prog τ Op β) (f : β → Prog τ Op α) :
    (p.bind f).Wp t s Q = p.Wp t s fun b t s => (f b).Wp t s Q := by
  induction p generalizing t s with
  | ret a => rfl
  | lock m k ih => simp only [bind, Wp, ih]
  | unlock k ih => simp only [bind, Wp, ih]
  | loc h k ih => simp only [bind, Wp, ih]
  | act o k ih => simp only [bind, Wp, ih]
  | ask k ih => simp only [bind, Wp, ih]
  | halt => rfl

@[simp]
theorem wp_bind (p : Prog τ Op β) (f : β → Prog τ Op α) :
    (p >>= f).Wp t s Q ↔ p.Wp t s fun b t s => (f b).Wp t s Q :=
  iff_of_eq (wp_bind' p f)

@[simp]
theorem wp_pure (a : α) : (pure a : Prog τ Op α).Wp t s Q ↔ Q a t s := Iff.rfl

@[simp]
theorem wp_lockP {m : Mode} {Q : Unit → τ → σ → Prop} :
    (lockP m : Prog τ Op Unit).Wp t s Q ↔ Q () t s := Iff.rfl

@[simp]
theorem wp_unlockP {Q : Unit → τ → σ → Prop} :
    (unlockP : Prog τ Op Unit).Wp t s Q ↔ Q () t s := Iff.rfl

@[simp]
theorem wp_modifyP {f : τ → τ} {Q : Unit → τ → σ → Prop} :
    (modifyP f : Prog τ Op Unit).Wp t s Q ↔ Q () (f t) s := Iff.rfl

@[simp]
theorem wp_readP (f : τ → α) : (readP f : Prog τ Op α).Wp t s Q ↔ Q (f t) t s := Iff.rfl

@[simp]
theorem wp_actP (o : Op α) :
    (actP o : Prog τ Op α).Wp t s Q ↔ Q (perform o t s).1 t (perform o t s).2 := Iff.rfl

@[simp]
theorem wp_askP {Q : ℤ → τ → σ → Prop} :
    (askP : Prog τ Op ℤ).Wp t s Q ↔ ∀ x, Q x t s := Iff.rfl

@[simp]
theorem wp_assert {b : Bool} {Q : Unit → τ → σ → Prop} :
    (assert b : Prog τ Op Unit).Wp t s Q ↔ b = true ∧ Q () t s := by
  cases b <;> simp [assert, Wp]

end Prog

variable {σ τ α β : Type*}

/-- What a system answers to a sequence of requests, and its state after them. -/
def serveAll (serve : α → σ → Option (β × σ)) : List α → σ → Option (List β × σ)
  | [], s => some ([], s)
  | a :: as, s => (serve a s).bind fun r => (serveAll serve as r.2).map fun q => (r.1 :: q.1, q.2)

/-- An abstract system may answer a sequence of requests in this way. -/
inductive Answers (spec : τ → α → β → τ → Prop) : τ → List α → List β → τ → Prop
  | nil (t : τ) : Answers spec t [] [] t
  | cons {t t' t'' : τ} {a : α} {b : β} {as : List α} {bs : List β} (h : spec t a b t')
      (hs : Answers spec t' as bs t'') : Answers spec t (a :: as) (b :: bs) t''

/-- The state satisfies `B` before and after each of the requests, whatever the answers are. -/
def Throughout (spec : τ → α → β → τ → Prop) (B : τ → Prop) : τ → List α → Prop
  | t, [] => B t
  | t, a :: as => B t ∧ ∀ b t', spec t a b t' → Throughout spec B t' as

variable {spec : τ → α → β → τ → Prop} {t : τ}

theorem Throughout.head {B : τ → Prop} {as : List α} (h : Throughout spec B t as) : B t := by
  cases as with
  | nil => exact h
  | cons a as => exact h.1

/-- `R as s t`: the system in state `s` stands for `t`, and the requests `as` may come. -/
theorem answers_of_simulation {serve : α → σ → Option (β × σ)}
    {R : List α → σ → τ → Prop} (hsim : ∀ a as s t, R (a :: as) s t →
      ∃ b s' t', serve a s = some (b, s') ∧ spec t a b t' ∧ R as s' t')
    (as : List α) {s : σ} (h : R as s t) :
    ∃ bs s' t', serveAll serve as s = some (bs, s') ∧ Answers spec t as bs t' ∧ R [] s' t' := by
  induction as generalizing s t with
  | nil => exact ⟨[], s, t, rfl, .nil t, h⟩
  | cons a as ih =>
    obtain ⟨b, s1, t1, hserve, hspec, hr⟩ := hsim a as s t h
    obtain ⟨bs, s2, t2, hserves, hspecs, hr'⟩ := ih hr
    exact ⟨b :: bs, s2, t2, by simp [serveAll, hserve, hserves], .cons hspec hspecs, hr'⟩

/-- A system that may stop for good at a request, but only where `Stops` says so: the requests
before it are answered. -/
theorem answers_until_stop {serve : α → σ → Option (β × σ)}
    {R : σ → τ → Prop} {Stops : τ → α → Prop} (hsim : ∀ a s t, R s t →
      (∃ b s' t', serve a s = some (b, s') ∧ spec t a b t' ∧ R s' t') ∨ Stops t a ∧
        serve a s = none)
    (as : List α) {s : σ} (h : R s t) :
    (∃ bs s' t', serveAll serve as s = some (bs, s') ∧ Answers spec t as bs t' ∧ R s' t') ∨
      ∃ pre a post bs s' t', as = pre ++ a :: post ∧ serveAll serve pre s = some (bs, s') ∧
        Answers spec t pre bs t' ∧ R s' t' ∧ Stops t' a ∧ serve a s' = none := by
  induction as generalizing s t with
  | nil => exact .inl ⟨[], s, t, rfl, .nil t, h⟩
  | cons a as ih =>
    rcases hsim a s t h with ⟨b, s1, t1, hserve, hspec, hr⟩ | ⟨hstop, hnone⟩
    · rcases ih hr with ⟨bs, s2, t2, hserves, hspecs, hr'⟩ |
        ⟨pre, a', post, bs, s2, t2, rfl, hserves, hspecs, hr', hstop, hnone⟩
      · exact .inl ⟨b :: bs, s2, t2, by simp [serveAll, hserve, hserves], .cons hspec hspecs, hr'⟩
      · exact .inr ⟨a :: pre, a', post, b :: bs, s2, t2, rfl, by simp [serveAll, hserve, hserves],
          .cons hspec hspecs, hr', hstop, hnone⟩
    · exact .inr ⟨[], a, as, [], s, t, rfl, rfl, .nil t, h, hstop, hnone⟩

end Vire.Logic
