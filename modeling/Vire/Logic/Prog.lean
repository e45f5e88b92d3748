import Mathlib.Data.Int.Notation
import Mathlib.Tactic.Common

/-!
# Programs that work under locks

A thread's program is a tree: it takes and releases the lock its registers point to, changes its
registers, performs operations on the shared state, and asks the outside world for a number.
-/

namespace Vire.Logic

inductive Mode
  | read
  | write
  deriving DecidableEq

inductive Prog (τ : Type) (Op : Type → Type) (α : Type) : Type 1
  | ret (a : α)
  | lock (m : Mode) (k : Prog τ Op α)
  | unlock (k : Prog τ Op α)
  | loc {β : Type} (f : τ → β × τ) (k : β → Prog τ Op α)
  | act {β : Type} (o : Op β) (k : β → Prog τ Op α)
  | ask (k : ℤ → Prog τ Op α)
  /-- The thread takes no further step: an assertion failed. -/
  | halt

namespace Prog

variable {τ : Type} {Op : Type → Type} {α β γ : Type}

def bind : Prog τ Op α → (α → Prog τ Op β) → Prog τ Op β
  | ret a, f => f a
  | lock m k, f => lock m (k.bind f)
  | unlock k, f => unlock (k.bind f)
  | loc g k, f => loc g fun b => (k b).bind f
  | act o k, f => act o fun b => (k b).bind f
  | ask k, f => ask fun x => (k x).bind f
  | halt, _ => halt

instance : Monad (Prog τ Op) where
  pure := ret
  bind := bind

/-! The operations as programs of their own. -/

def lockP (m : Mode) : Prog τ Op Unit := lock m (ret ())

def unlockP : Prog τ Op Unit := unlock (ret ())

def modifyP (f : τ → τ) : Prog τ Op Unit := loc (fun t => ((), f t)) ret

def readP (f : τ → α) : Prog τ Op α := loc (fun t => (f t, t)) ret

def actP (o : Op α) : Prog τ Op α := act o ret

def askP : Prog τ Op ℤ := ask ret

def assert (b : Bool) : Prog τ Op Unit := if b then ret () else halt

end Prog

/-- What the operations do to the shared state. -/
class Machine (τ : Type) (σ : outParam Type) (Op : Type → Type) where
  perform : {β : Type} → Op β → τ → σ → β × σ

end Vire.Logic
