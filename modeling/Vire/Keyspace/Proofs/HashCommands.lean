import Mathlib.Data.Finset.Card
import Vire.Keyspace.Handler.Hash
import Vire.Keyspace.Proofs.Handler
import Vire.Keyspace.Proofs.Hash

/-!
# Hash commands and finite maps

The answers are those of a finite map from byte strings to byte strings, up to the order in which
the pairs are listed, whatever the encoding of the hash, a field or a value is.
-/

namespace Vire

open Function List Option Logic Prog

inductive HashCmd
  | hset (field value : Sds)
  | hsetnx (field value : Sds)
  | hmset (field value : Sds) (rest : List Sds)
  | hdel (field : Sds) (fields : List Sds)
  | hget (field : Sds)
  | hmget (field : Sds) (fields : List Sds)
  | hexists (field : Sds)
  | hlen
  | hstrlen (field : Sds)
  | hkeys
  | hvals
  | hgetall

def HashCmd.argv (key : Sds) : HashCmd → List Sds
  | hset f x => [ascii "hset".toList, key, f, x]
  | hsetnx f x => [ascii "hsetnx".toList, key, f, x]
  | hmset f x rest => ascii "hmset".toList :: key :: f :: x :: rest
  | hdel f fs => ascii "hdel".toList :: key :: f :: fs
  | hget f => [ascii "hget".toList, key, f]
  | hmget f fs => ascii "hmget".toList :: key :: f :: fs
  | hexists f => [ascii "hexists".toList, key, f]
  | hlen => [ascii "hlen".toList, key]
  | hstrlen f => [ascii "hstrlen".toList, key, f]
  | hkeys => [ascii "hkeys".toList, key]
  | hvals => [ascii "hvals".toList, key]
  | hgetall => [ascii "hgetall".toList, key]

def setPairs (m : Sds → Option Sds) (ps : List (Sds × Sds)) : Sds → Option Sds :=
  ps.foldl (fun m p => Function.update m p.1 (some p.2)) m

/-- `Spec m cmd out m'`: asked `cmd`, the map `m` may answer `out` and become `m'`. -/
inductive HashCmd.Spec (m : Sds → Option Sds) : HashCmd → List Reply → (Sds → Option Sds) → Prop
  | hset (f x : Sds) :
    Spec m (.hset f x) [.int (if (m f).isSome then 0 else 1)] (Function.update m f (some x))
  | hsetnx_new {f : Sds} (x : Sds) (hf : m f = none) :
    Spec m (.hsetnx f x) [.int 1] (Function.update m f (some x))
  | hsetnx_old {f : Sds} (x : Sds) (hf : m f ≠ none) : Spec m (.hsetnx f x) [.int 0] m
  | hmset {f x : Sds} {rest : List Sds} {ps : List (Sds × Sds)}
      (hps : f :: x :: rest = ps.flatMap fun p => [p.1, p.2]) :
    Spec m (.hmset f x rest) [Handler.ok] (setPairs m ps)
  | hmset_odd (f x : Sds) {rest : List Sds} (hodd : rest.length % 2 = 1) :
    Spec m (.hmset f x rest) [Handler.err "wrong number of arguments for HMSET"] m
  | hdel (f : Sds) (fs : List Sds) :
    Spec m (.hdel f fs) [.int ((f :: fs).toFinset.filter fun k => (m k).isSome = true).card]
      fun k => if k ∈ f :: fs then none else m k
  | hget (f : Sds) : Spec m (.hget f) [bulkOrNil (m f)] m
  | hmget (f : Sds) (fs : List Sds) :
    Spec m (.hmget f fs) (.multi (f :: fs).length :: (f :: fs).map fun f => bulkOrNil (m f)) m
  | hexists (f : Sds) : Spec m (.hexists f) [.int (if (m f).isSome then 1 else 0)] m
  | hlen {l : List (Sds × Sds)} (hl : Enumerates l m) : Spec m .hlen [.int l.length] m
  | hstrlen (f : Sds) : Spec m (.hstrlen f) [.int (((m f).map length).getD 0 : ℕ)] m
  | hkeys {l : List (Sds × Sds)} (hl : Enumerates l m) :
    Spec m .hkeys (.multi l.length :: l.map fun p => .bulk p.1) m
  | hvals {l : List (Sds × Sds)} (hl : Enumerates l m) :
    Spec m .hvals (.multi l.length :: l.map fun p => .bulk p.2) m
  | hgetall {l : List (Sds × Sds)} (hl : Enumerates l m) :
    Spec m .hgetall (.multi (2 * l.length) :: l.flatMap fun p => [.bulk p.1, .bulk p.2]) m

section

variable [Host]

def HashCmd.proc : HashCmd → Cmd Unit
  | hset _ _ => Handler.hsetCommand
  | hsetnx _ _ => Handler.hsetnxCommand
  | hmset _ _ _ => Handler.hmsetCommand
  | hdel _ _ => Handler.hdelCommand
  | hget _ => Handler.hgetCommand
  | hmget _ _ => Handler.hmgetCommand
  | hexists _ => Handler.hexistsCommand
  | hlen => Handler.hlenCommand
  | hstrlen _ => Handler.hstrlenCommand
  | hkeys => Handler.hkeysCommand
  | hvals => Handler.hvalsCommand
  | hgetall => Handler.hgetallCommand

/-- The key holds the map; there is no key for the empty one. -/
inductive HashAt (dbs : ℕ → Db Value) (i : ℕ) (key : Sds) (m : Sds → Option Sds) : Prop
  | missing (hm : m = fun _ => none) (h : KeyIs dbs i key none)
  | holds {v : HashVal} (hm : m ≠ fun _ => none) (h : KeyIs dbs i key (some (.hash v)))
      (hv : v.Holds m)

def HashCmd.Done (dictid : ℕ) (key : Sds) (m : Sds → Option Sds) (cmd : HashCmd) (out : List Reply)
    (dbs : ℕ → Db Value) : Prop :=
  ∃ m', HashCmd.Spec m cmd out m' ∧ HashAt dbs (home dictid key) key m'

namespace Handler

variable {c : Client} {s : Server} {key : Sds} {argv : List Sds}
  {m : Sds → Option Sds} {v : HashVal} {f x : Sds}

omit [Host] in
theorem update_ne_none (m : Sds → Option Sds) (f x : Sds) :
    Function.update m f (some x) ≠ fun _ => none := by
  intro h
  have := congrFun h f
  rw [update_self] at this
  cases this

theorem wp_getField {field : Robj} {Q : Post (Option HashItem)} (hv : v.Has m)
    (hf : field.Denotes f)
    (hQ : ∀ item heap, item.map HashItem.text = m f → Q item c { s with heap := heap }) :
    (getField v field).Wp c s Q := by
  obtain ⟨item, heap', hget, htext, -⟩ := hv.hashTypeGet hf s.heap
  rw [getField, wp_bind, wp_inMemory, hget]
  exact hQ item _ htext

theorem wp_tryConversion {Q : Post HashVal} (hlimit : Host.hashMaxZiplistValue ≤ 64)
    (h : KeyIs s.dbs c.db key (some (.hash v))) (hv : v.Holds m) (hroom : HashRoom m)
    (args : List Robj) (hQ : ∀ v' s', KeyIs s'.dbs c.db key (some (.hash v')) → v'.Holds m →
      (∀ a ∈ args, ∀ s, a.Denotes s → v'.Takes s) → Q v' c s') :
    (tryConversion key v args).Wp c s Q := by
  obtain ⟨v', heap', hconv, hv', htakes, hshorts, hsmall⟩ :=
    hv.has.hashTypeTryConversion hlimit args s.heap
  exact wp_update h (by rw [hconv]; rfl) fun s' h' =>
    hQ v' s' h' ⟨hv', hshorts hv.shorts, hsmall hroom hv.small⟩ htakes

variable {Q : Post Unit}

omit [Host] in
theorem wp_hashTypeTryObjectEncoding {i j : ℕ} (v : HashVal) (hargs : Args c.argv argv)
    (hi : argv[i]? = some f) (hj : argv[j]? = some x)
    (hQ : ∀ os heap, Args os argv → Q () { c with argv := os } { s with heap := heap }) :
    (hashTypeTryObjectEncoding v i j).Wp c s Q := by
  cases v with
  | ziplist zl => exact hQ c.argv s.heap hargs
  | ht d =>
    rw [hashTypeTryObjectEncoding, wp_bind]
    exact wp_encodeArg hargs hi fun _ _ hargs1 => wp_encodeArg hargs1 hj hQ

theorem wp_setField {i j : ℕ} {Q : Post (Bool × HashVal)}
    (h : KeyIs s.dbs c.db key (some (.hash v))) (hv : v.Holds m)
    (hroom : HashRoom (Function.update m f (some x))) (hf : v.Takes f) (hx : v.Takes x)
    (hargs : Args c.argv argv) (hi : argv[i]? = some f) (hj : argv[j]? = some x)
    (hQ : ∀ v' s', KeyIs s'.dbs c.db key (some (.hash v')) →
      v'.Holds (Function.update m f (some x)) → (∀ s, v.Takes s → v'.Takes s) →
        Q ((m f).isSome, v') c s') :
    (setField key v i j).Wp c s Q := by
  have hfield := hargs.getD hi (sharedInteger 0)
  have hvalue := hargs.getD hj (sharedInteger 0)
  rw [setField, wp_arg, wp_arg, wp_bind, wp_assert]
  refine ⟨hv.hasRoom hf hx hfield hvalue hroom, ?_⟩
  obtain ⟨v', heap', hset, hv', -, htakes, hshorts, hsmall⟩ :=
    hv.has.hashTypeSet hfield hvalue s.heap
  exact wp_update h (by rw [hset]; rfl) fun s' h' =>
    hQ v' s' h' ⟨hv', hshorts hf hx hv.shorts, hsmall hroom hv.small⟩ htakes

theorem wp_hashTypeLookupWriteOrCreate {body : HashVal → Cmd Unit} (h : HashAt s.dbs c.db key m)
    (hQ : ∀ v s', KeyIs s'.dbs c.db key (some (.hash v)) → v.Holds m → (body v).Wp c s' Q) :
    (hashTypeLookupWriteOrCreate key body).Wp c s Q := by
  rw [hashTypeLookupWriteOrCreate, wp_bind]
  cases h with
  | missing hm h =>
    rw [wp_lookupKeyWrite h, withSome, wp_bind]
    exact wp_dbAdd h fun s' h' => hQ _ s' h' (hm ▸ createHashObject_holds)
  | holds hm h hv =>
    rw [wp_lookupKeyWrite h]
    exact hQ _ s h hv

omit [Host] in
theorem setPairs_ne_none (hm : m ≠ fun _ => none) (ps : List (Sds × Sds)) :
    setPairs m ps ≠ fun _ => none := by
  induction ps generalizing m with
  | nil => exact hm
  | cons p ps ih => exact ih (update_ne_none m p.1 p.2)

omit [Host] in
theorem isSome_setPairs {k : Sds} (h : (m k).isSome = true) (ps : List (Sds × Sds)) :
    (setPairs m ps k).isSome = true := by
  induction ps generalizing m with
  | nil => exact h
  | cons p ps ih => exact ih (isSome_update h p.1 p.2)

omit [Host] in
theorem exists_pairs : ∀ l : List Sds, l.length % 2 = 0 →
    ∃ ps : List (Sds × Sds), l = (ps.flatMap fun p => [p.1, p.2]) ∧ l.length = 2 * ps.length
  | [], _ => ⟨[], rfl, rfl⟩
  | [_], h => by cases h
  | f :: x :: l, h => by
    simp only [length_cons] at h
    obtain ⟨ps, rfl, hlen⟩ := exists_pairs l (by omega)
    exact ⟨(f, x) :: ps, rfl, by simp only [length_cons, hlen]; omega⟩

theorem hmsetLoop_wp {ps : List (Sds × Sds)} {i : ℕ}
    (hps : argv.drop i = ps.flatMap fun p => [p.1, p.2]) (hargs : Args c.argv argv)
    (h : KeyIs s.dbs c.db key (some (.hash v))) (hv : v.Holds m)
    (hroom : HashRoom (setPairs m ps)) (htakes : ∀ p ∈ ps, v.Takes p.1 ∧ v.Takes p.2)
    (hQ : ∀ os s' v', KeyIs s'.dbs c.db key (some (.hash v')) → v'.Holds (setPairs m ps) →
      Q () { c with argv := os } s') :
    (hmsetLoop key ps.length i v).Wp c s Q := by
  induction ps generalizing c s v m i with
  | nil => exact hQ c.argv s v h hv
  | cons p ps ih =>
    have hi : argv[i]? = some p.1 := by
      have := congrArg (·[0]?) hps
      simpa using this
    have hj : argv[i + 1]? = some p.2 := by
      have := congrArg (·[1]?) hps
      simpa using this
    rw [length_cons, hmsetLoop, wp_bind]
    refine wp_hashTypeTryObjectEncoding v hargs hi hj fun os heap hargs1 => ?_
    rw [wp_bind]
    obtain ⟨hp, hrest⟩ := forall_mem_cons.mp htakes
    obtain ⟨l, hl, -⟩ := hv.has.pairs
    obtain ⟨l', hl', -⟩ := hl.exists_update p.1 p.2
    have hone := HashRoom.mono hroom hl' fun k hk => isSome_setPairs hk ps
    refine wp_setField h hv hone hp.1 hp.2 hargs1 hi hj fun v2 s2 h2 hv2 htakes2 => ?_
    refine ih ?_ hargs1 h2 hv2 hroom (fun q hq => (hrest q hq).imp (htakes2 _) (htakes2 _)) hQ
    rw [← drop_drop, hps]
    rfl

omit [Host] in
theorem card_filter_cons (f : Sds) (fs : List Sds) (m : Sds → Option Sds) :
    ((f :: fs).toFinset.filter fun k => (m k).isSome = true).card =
      (if (m f).isSome then 1 else 0) +
      (fs.toFinset.filter fun k => (Function.update m f none k).isSome = true).card := by
  rw [toFinset_cons, Finset.filter_insert]
  split_ifs with hf
  · have hinsert : insert f (fs.toFinset.filter fun k => (m k).isSome = true) =
        insert f (fs.toFinset.filter fun k => (Function.update m f none k).isSome = true) := by
      ext x
      by_cases hx : x = f <;> simp [hx]
    rw [hinsert, Finset.card_insert_of_notMem (by simp), Nat.add_comm]
  · rw [not_isSome_iff_eq_none] at hf
    rw [← hf, update_eq_self, Nat.zero_add]

omit [Host] in
theorem remove_cons (f : Sds) (fs : List Sds) (m : Sds → Option Sds) :
    (fun k => if k ∈ f :: fs then none else m k) =
      fun k => if k ∈ fs then none else Function.update m f none k := by
  funext k
  by_cases hk : k = f <;> simp [hk]

theorem hdelLoop_wp {fields : List Robj} {fs : List Sds} {Q : Post ℕ}
    (hfields : Forall₂ Robj.Denotes fields fs) (h : KeyIs s.dbs c.db key (some (.hash v)))
    (hv : v.Holds m) (hm : m ≠ fun _ => none) (deleted : ℕ)
    (hQ : ∀ s', HashAt s'.dbs c.db key (fun k => if k ∈ fs then none else m k) →
      Q (deleted + (fs.toFinset.filter fun k => (m k).isSome = true).card) c s') :
    (hdelLoop key fields v deleted).Wp c s Q := by
  induction hfields generalizing s v m deleted with
  | nil =>
    rw [hdelLoop, wp_pure]
    simpa using hQ s (by simpa using .holds hm h hv)
  | @cons field f fields fs hfield _ ih =>
    obtain ⟨hflag, hrest, hshorts, hsmall⟩ := hv.has.hashTypeDelete hfield s.heap
    have hshorts := hshorts hv.shorts
    have hsmall := hsmall hv.small
    rw [card_filter_cons, remove_cons] at hQ
    rw [hdelLoop, wp_bind]
    refine wp_update h rfl fun s1 h1 => ?_
    simp only [hflag]
    split_ifs with hf hempty
    · -- the last field is gone, and the key with it
      rw [if_pos hf, hrest.length_eq_zero.mp hempty] at hQ
      rw [wp_bind]
      refine wp_dbDelete h1 fun s2 h2 => ?_
      simpa using hQ s2 (.missing (by simp) h2)
    · rw [if_pos hf] at hQ
      refine ih h1 ⟨hrest, hshorts, hsmall⟩ (mt hrest.length_eq_zero.mpr hempty) _ fun s2 h2 => ?_
      rw [Nat.add_assoc]
      exact hQ s2 h2
    · rw [if_neg hf, Nat.zero_add] at hQ
      have hsame : Function.update m f none = m := by
        rw [← not_isSome_iff_eq_none.mp hf, update_eq_self]
      rw [hsame] at hrest hQ
      exact ih h1 ⟨hrest, hshorts, hsmall⟩ hm _ hQ

/-- What the hash of a handler that treats a missing key as an empty hash stands for. -/
inductive OptIs : Option HashVal → (Sds → Option Sds) → Prop
  | none : OptIs none fun _ => none
  | some {v : HashVal} {m : Sds → Option Sds} (hv : v.Has m) : OptIs (some v) m

theorem wp_addHashFieldToReply {o : Option HashVal} {field : Robj} (ho : OptIs o m)
    (hf : field.Denotes f)
    (hQ : ∀ heap, Q () { c with out := c.out ++ [bulkOrNil (m f)] } { s with heap := heap }) :
    (addHashFieldToReply o field).Wp c s Q := by
  cases ho with
  | none => exact hQ s.heap
  | some hv =>
    rw [addHashFieldToReply, wp_bind]
    refine wp_getField hv hf fun item heap htext => ?_
    rw [← htext] at hQ
    cases item <;> exact hQ heap

theorem hmgetLoop_wp {o : Option HashVal} {fields : List Robj} {fs : List Sds} (ho : OptIs o m)
    (hfields : Forall₂ Robj.Denotes fields fs)
    (hQ : ∀ heap, Q () { c with out := c.out ++ fs.map fun f => bulkOrNil (m f) }
      { s with heap := heap }) :
    (hmgetLoop o fields).Wp c s Q := by
  induction hfields generalizing c s with
  | nil =>
    rw [hmgetLoop, wp_pure]
    simpa using hQ s.heap
  | cons hfield _ ih =>
    rw [hmgetLoop, wp_bind]
    refine wp_addHashFieldToReply ho hfield fun heap => ih fun heap' => ?_
    simpa using hQ heap'

/-- The elements of the reply to HKEYS, HVALS and HGETALL. -/
def hgetallElems (keys values : Bool) (l : List (Sds × Sds)) : List Reply :=
  l.flatMap fun p => (if keys then [.bulk p.1] else []) ++ if values then [.bulk p.2] else []

/-- The header is the number of elements as an `int`. -/
def hgetallReply (keys values : Bool) (l : List (Sds × Sds)) : List Reply :=
  .multi (int32 (l.length * (keys.toNat + values.toNat) : ℕ)) :: hgetallElems keys values l

section

variable {d : ℕ} {os : List Robj} {rest fs : List Sds} (h : HashAt s.dbs (home d key) key m)

include h

section

variable (hlimit : Host.hashMaxZiplistValue ≤ 64)

include hlimit

theorem hsetCommand_wp (hm : HashRoom m) (hroom : HashRoom (Function.update m f (some x)))
    (hargs : Args os ((HashCmd.hset f x).argv key)) :
    hsetCommand.Ends (.called d os) s ((HashCmd.hset f x).Done d key m) := by
  refine wp_lockKey hargs rfl ?_
  refine wp_hashTypeLookupWriteOrCreate h fun v s1 h1 hv => ?_
  rw [wp_arg, wp_arg, wp_bind]
  refine wp_tryConversion hlimit h1 hv hm _ fun v2 s2 h2 hv2 htakes => ?_
  have hf : v2.Takes f := htakes _ mem_cons_self f (hargs.getD rfl _)
  have hx : v2.Takes x := htakes _ (mem_cons_of_mem _ mem_cons_self) x (hargs.getD rfl _)
  rw [wp_bind]
  refine wp_hashTypeTryObjectEncoding v2 hargs rfl rfl fun os' heap hargs' => ?_
  rw [wp_bind]
  refine wp_setField h2 hv2 hroom hf hx hargs' rfl rfl fun v4 s4 h4 hv4 _ => ?_
  rw [wp_replyUnlock]
  refine ⟨_, ?_, .holds (update_ne_none m f x) h4 hv4⟩
  have hspec := HashCmd.Spec.hset (m := m) f x
  cases hm : (m f).isSome <;> rw [hm] at hspec <;> exact hspec

theorem hsetnxCommand_wp (hm : HashRoom m)
    (hroom : m f = none → HashRoom (Function.update m f (some x)))
    (hargs : Args os ((HashCmd.hsetnx f x).argv key)) :
    hsetnxCommand.Ends (.called d os) s ((HashCmd.hsetnx f x).Done d key m) := by
  refine wp_lockKey hargs rfl ?_
  refine wp_hashTypeLookupWriteOrCreate h fun v s1 h1 hv => ?_
  rw [wp_arg, wp_arg, wp_bind]
  refine wp_tryConversion hlimit h1 hv hm _ fun v2 s2 h2 hv2 htakes => ?_
  have hf : v2.Takes f := htakes _ mem_cons_self f (hargs.getD rfl _)
  have hx : v2.Takes x := htakes _ (mem_cons_of_mem _ mem_cons_self) x (hargs.getD rfl _)
  rw [wp_arg, wp_bind]
  refine wp_getField hv2.has (hargs.getD rfl _) fun item heap htext => ?_
  cases item with
  | some item =>
    have hf : m f ≠ none := by rw [← htext]; exact some_ne_none _
    have hm : m ≠ fun _ => none := fun hm => hf (congrFun hm f)
    rw [isSome_some, if_pos rfl, wp_replyUnlock]
    exact ⟨m, .hsetnx_old x hf, .holds hm h2 hv2⟩
  | none =>
    rw [isSome_none, if_neg Bool.false_ne_true, wp_bind]
    refine wp_hashTypeTryObjectEncoding v2 hargs rfl rfl fun os' heap' hargs' => ?_
    rw [wp_bind]
    refine wp_setField h2 hv2 (hroom htext.symm) hf hx hargs' rfl rfl fun v5 s5 h5 hv5 _ => ?_
    rw [wp_replyUnlock]
    exact ⟨_, .hsetnx_new x htext.symm, .holds (update_ne_none m f x) h5 hv5⟩

theorem hmsetCommand_wp (hm : HashRoom m)
    (hroom : ∀ ps, (f :: x :: rest = ps.flatMap fun p => [p.1, p.2]) → HashRoom (setPairs m ps))
    (hargs : Args os ((HashCmd.hmset f x rest).argv key)) :
    hmsetCommand.Ends (.called d os) s ((HashCmd.hmset f x rest).Done d key m) := by
  have hlen : (Client.called d os).argv.length = rest.length + 4 := hargs.length_eq
  rw [Cmd.Ends, hmsetCommand, wp_argc]
  split_ifs with hodd
  · exact ⟨m, .hmset_odd f x (by omega), h⟩
  · obtain ⟨ps, hps, hcount⟩ := exists_pairs (f :: x :: rest) (by simp only [length_cons]; omega)
    have hdrop : ((HashCmd.hmset f x rest).argv key).drop 2 = ps.flatMap fun p => [p.1, p.2] := hps
    have hpairs : ((Client.called d os).argv.length - 2) / 2 = ps.length := by
      simp only [length_cons] at hcount
      omega
    rw [hpairs]
    refine wp_lockKey hargs rfl ?_
    refine wp_hashTypeLookupWriteOrCreate h fun v s1 h1 hv => ?_
    rw [wp_args, wp_bind]
    refine wp_tryConversion hlimit h1 hv hm _ fun v2 s2 h2 hv2 htakes => ?_
    have htakes' : ∀ p ∈ ps, v2.Takes p.1 ∧ v2.Takes p.2 := by
      have hall : ∀ a ∈ ((HashCmd.hmset f x rest).argv key).drop 2, v2.Takes a := fun a ha =>
        have ⟨o, ho, hden⟩ := hargs.exists_of_mem_drop ha
        htakes o ho a hden
      rw [hdrop] at hall
      exact fun p hp => ⟨hall _ (mem_flatMap_of_mem hp (by simp)),
        hall _ (mem_flatMap_of_mem hp (by simp))⟩
    rw [wp_bind]
    refine hmsetLoop_wp hdrop hargs h2 hv2 (hroom ps hps) htakes' fun os' s3 v3 h3 hv3 => ?_
    rw [wp_replyUnlock]
    refine ⟨setPairs m ps, .hmset hps, .holds ?_ h3 hv3⟩
    cases ps with
    | nil => cases hps
    | cons p ps => exact setPairs_ne_none (update_ne_none m p.1 p.2) ps

end

theorem hdelCommand_wp (hargs : Args os ((HashCmd.hdel f fs).argv key)) :
    hdelCommand.Ends (.called d os) s ((HashCmd.hdel f fs).Done d key m) := by
  have hspec := HashCmd.Spec.hdel (m := m) f fs
  cases h with
  | missing hm h =>
    refine wp_writeKey_none hargs rfl h ⟨m, ?_, .missing hm h⟩
    rw [hm] at hspec ⊢
    simpa [czero] using hspec
  | holds hm h hv =>
    refine wp_writeKey_some hargs rfl h rfl ?_
    rw [wp_args, wp_bind]
    refine hdelLoop_wp (forall₂_drop 2 hargs) h hv hm 0 fun s' h' => ?_
    rw [wp_bind, unlockDb, wp_unlockP, wp_addReply, Nat.zero_add]
    exact ⟨_, hspec, h'⟩

variable {argv : List Sds}

theorem wp_readHash {cmd : HashCmd} {missing : Reply} {body : HashVal → Cmd Unit}
    (hargs : Args os argv) (hkey : argv[1]? = some key)
    (hnone : (m = fun _ => none) → HashCmd.Spec m cmd [missing] m)
    (hsome : ∀ {v}, v.Has m → (body v).Wp ((Client.called d os).on key) s fun _ c' s' =>
      s'.dbs = s.dbs ∧ HashCmd.Spec m cmd c'.out m) :
    (readKey Value.hash? missing body).Ends (.called d os) s (cmd.Done d key m) := by
  cases h with
  | missing hm h => exact wp_readKey_none hargs hkey h ⟨m, hnone hm, .missing hm h⟩
  | holds hm h hv =>
    refine wp_readKey_some hargs hkey h rfl ((hsome hv.has).mono ?_)
    rintro _ c1 s1 ⟨hdbs, hspec⟩
    exact ⟨m, hspec, .holds hm (hdbs ▸ h) hv⟩

theorem hgetCommand_wp (hargs : Args os ((HashCmd.hget f).argv key)) :
    hgetCommand.Ends (.called d os) s ((HashCmd.hget f).Done d key m) := by
  refine wp_readHash h hargs rfl (fun hm => hm ▸ .hget f) fun hv => ?_
  rw [wp_arg, wp_bind]
  exact wp_addHashFieldToReply (.some hv) (hargs.getD rfl _) fun _ => ⟨rfl, .hget f⟩

theorem hmgetCommand_wp (hargs : Args os ((HashCmd.hmget f fs).argv key)) :
    hmgetCommand.Ends (.called d os) s ((HashCmd.hmget f fs).Done d key m) := by
  have hlen : (os.length : ℤ) - 2 = (f :: fs).length := by
    rw [show os.length = _ from hargs.length_eq]
    simp only [HashCmd.argv, length_cons]
    omega
  have hloop : ∀ {o : Option HashVal}, OptIs o m →
      (do
        addReply (.multi ((← argc) - 2))
        hmgetLoop o (← args 2)
        unlockDb : Cmd Unit).Ends ((Client.called d os).on key) s
          ((HashCmd.hmget f fs).Done d key m) := by
    intro o ho
    rw [Cmd.Ends, wp_argc, wp_bind, wp_addReply, wp_args, wp_bind]
    refine hmgetLoop_wp ho (forall₂_drop 2 hargs) fun heap => ⟨m, ?_, h⟩
    rw [hlen]
    exact .hmget f fs
  refine wp_lockKey hargs rfl ?_
  rw [wp_bind]
  cases h with
  | missing hm h =>
    rw [wp_lookupKeyRead (c := (Client.called d os).on key) h]
    subst hm
    exact hloop OptIs.none
  | holds hm h hv =>
    rw [wp_lookupKeyRead (c := (Client.called d os).on key) h]
    exact hloop (.some hv.has)

theorem hexistsCommand_wp (hargs : Args os ((HashCmd.hexists f).argv key)) :
    hexistsCommand.Ends (.called d os) s ((HashCmd.hexists f).Done d key m) := by
  have hspec := HashCmd.Spec.hexists (m := m) f
  refine wp_readHash h hargs rfl (fun hm => hm ▸ .hexists f) fun hv => ?_
  rw [wp_arg, wp_bind]
  refine wp_getField hv (hargs.getD rfl _) fun item heap htext => ?_
  rw [← htext] at hspec
  cases item <;> exact ⟨rfl, hspec⟩

theorem hlenCommand_wp (hargs : Args os (HashCmd.hlen.argv key)) :
    hlenCommand.Ends (.called d os) s (HashCmd.hlen.Done d key m) := by
  refine wp_readHash h hargs rfl (fun hm => hm ▸ .hlen .nil) fun hv => ?_
  obtain ⟨l, hl, hlen, -⟩ := hv.pairs
  rw [wp_replyUnlock, hlen]
  exact ⟨rfl, .hlen hl⟩

theorem hstrlenCommand_wp (hargs : Args os ((HashCmd.hstrlen f).argv key)) :
    hstrlenCommand.Ends (.called d os) s ((HashCmd.hstrlen f).Done d key m) := by
  refine wp_readHash h hargs rfl (fun hm => hm ▸ .hstrlen f) fun hv => ?_
  rw [wp_arg, wp_bind]
  refine wp_getField hv (hargs.getD rfl _) fun item heap htext => ?_
  rw [wp_replyUnlock, hashTypeGetValueLength_eq, htext]
  exact ⟨rfl, .hstrlen f⟩

omit h in
theorem genericHgetallCommand_out (hargs : Args os argv)
    (hkey : argv[1]? = some key) (hkv : KeyIs s.dbs (home d key) key (some (.hash v)))
    (hv : v.Has m) (keys values : Bool) :
    (genericHgetallCommand keys values).Ends (.called d os) s fun out dbs =>
      dbs = s.dbs ∧ ∃ l, Enumerates l m ∧ out = hgetallReply keys values l := by
  refine wp_readKey_some hargs hkey hkv rfl ?_
  obtain ⟨l, hl, hlen, ps, hps, rfl⟩ := hv.pairs
  rw [length_map] at hlen
  have hcount : (ps.flatMap (hgetallItems keys values)).length =
      ps.length * (keys.toNat + values.toNat) := by
    cases keys <;> cases values <;> simp [hgetallItems, length_flatMap]
  rw [wp_bind, wp_addReply, wp_bind, hps, wp_orHalt_some, wp_bind, wp_addReplies,
    wp_bind, wp_assert, unlockDb, wp_unlockP, hlen, hcount]
  refine ⟨?_, rfl, _, hl, ?_⟩
  · cases keys <;> cases values <;> exact beq_self_eq_true _
  · cases keys <;> cases values <;>
      simp [hgetallReply, hgetallElems, hgetallItems, flatMap_map, map_flatMap]

theorem genericHgetallCommand_wp (hm : HashRoom m) {cmd : HashCmd}
    (hargs : Args os argv) (hkey : argv[1]? = some key) (keys values : Bool)
    (hspec : ∀ {l}, Enumerates l m →
      HashCmd.Spec m cmd (.multi (l.length * (keys.toNat + values.toNat) : ℕ) ::
        hgetallElems keys values l) m) :
    (genericHgetallCommand keys values).Ends (.called d os) s (cmd.Done d key m) := by
  cases h with
  | missing hnone h =>
    have hnil := hspec (l := []) (hnone ▸ .nil)
    rw [length_nil, Nat.zero_mul] at hnil
    exact wp_readKey_none hargs hkey h ⟨m, hnil, .missing hnone h⟩
  | holds hne h hv =>
    refine (genericHgetallCommand_out hargs hkey h hv.has keys values).mono ?_
    rintro _ c' s' ⟨hdbs, l, hl, hout'⟩
    have hlen := hm.length_lt hl
    have htwo : keys.toNat + values.toNat ≤ 2 := by cases keys <;> cases values <;> decide
    have hmul := Nat.mul_le_mul_left l.length htwo
    rw [hgetallReply, int32_of_lt (by omega) (by omega)] at hout'
    exact ⟨m, hout' ▸ hspec hl, .holds hne (hdbs ▸ h) hv⟩

theorem hkeysCommand_wp (hm : HashRoom m) (hargs : Args os (HashCmd.hkeys.argv key)) :
    hkeysCommand.Ends (.called d os) s (HashCmd.hkeys.Done d key m) :=
  genericHgetallCommand_wp h hm hargs rfl true false fun hl => by
    simpa [hgetallElems, map_eq_flatMap] using HashCmd.Spec.hkeys hl

theorem hvalsCommand_wp (hm : HashRoom m) (hargs : Args os (HashCmd.hvals.argv key)) :
    hvalsCommand.Ends (.called d os) s (HashCmd.hvals.Done d key m) :=
  genericHgetallCommand_wp h hm hargs rfl false true fun hl => by
    simpa [hgetallElems, map_eq_flatMap] using HashCmd.Spec.hvals hl

theorem hgetallCommand_wp (hm : HashRoom m) (hargs : Args os (HashCmd.hgetall.argv key)) :
    hgetallCommand.Ends (.called d os) s (HashCmd.hgetall.Done d key m) :=
  genericHgetallCommand_wp h hm hargs rfl true true fun hl => by
    simpa [hgetallElems, Int.mul_comm] using HashCmd.Spec.hgetall hl

end

end Handler

theorem HashCmd.proc_wp (hlimit : Host.hashMaxZiplistValue ≤ 64) (cmd : HashCmd) {d : ℕ}
    {os : List Robj} {s : Server} {key : Sds} {m : Sds → Option Sds}
    (hargs : Args os (cmd.argv key)) (h : HashAt s.dbs (home d key) key m) (hm : HashRoom m)
    (hroom : ∀ out m', cmd.Spec m out m' → HashRoom m') :
    cmd.proc.Ends (.called d os) s (cmd.Done d key m) := by
  cases cmd with
  | hset f x => exact Handler.hsetCommand_wp h hlimit hm (hroom _ _ (.hset f x)) hargs
  | hsetnx f x =>
    exact Handler.hsetnxCommand_wp h hlimit hm (fun hf => hroom _ _ (.hsetnx_new x hf)) hargs
  | hmset f x rest =>
    exact Handler.hmsetCommand_wp h hlimit hm (fun ps hps => hroom _ _ (.hmset hps)) hargs
  | hdel f fs => exact Handler.hdelCommand_wp h hargs
  | hget f => exact Handler.hgetCommand_wp h hargs
  | hmget f fs => exact Handler.hmgetCommand_wp h hargs
  | hexists f => exact Handler.hexistsCommand_wp h hargs
  | hlen => exact Handler.hlenCommand_wp h hargs
  | hstrlen f => exact Handler.hstrlenCommand_wp h hargs
  | hkeys => exact Handler.hkeysCommand_wp h hm hargs
  | hvals => exact Handler.hvalsCommand_wp h hm hargs
  | hgetall => exact Handler.hgetallCommand_wp h hm hargs

/-- For every sequence of requests on a key that is missing or holds a hash in either encoding,
every limit on the number of entries in a ziplist and every limit of at most 64 bytes on their
length, all answers are those of a finite map of byte strings, and the key holds that map in the
end, as long as there is room for the map. -/
theorem hashes_refine (hlimit : Host.hashMaxZiplistValue ≤ 64) (dictid : ℕ) (key : Sds) {s : Server}
    {m : Sds → Option Sds} (h : HashAt s.dbs (home dictid key) key m)
    (requests : List (Request HashCmd))
    (hroom : Throughout HashCmd.Spec HashRoom m (requests.map Request.cmd)) :
    ∃ outs s' m', serveAll (serve dictid HashCmd.proc (HashCmd.argv key)) requests s =
      some (outs, s') ∧ Answers (fun m r => HashCmd.Spec m r.cmd) m requests outs m' ∧
      HashAt s'.dbs (home dictid key) key m' :=
  serveAll_answers_within HashCmd.Spec (fun d dbs => HashAt dbs (home d key) key) HashRoom
    (fun cmd _ _ _ _ hargs h hm hnext => cmd.proc_wp hlimit hargs h hm hnext) requests h hroom

end

/-- The fields that a command may add. -/
def HashCmd.adds : HashCmd → ℕ
  | hset _ _ => 1
  | hsetnx _ _ => 1
  | hmset _ _ rest => rest.length + 1
  | _ => 0

variable {l : List (Sds × Sds)} {m : Sds → Option Sds}

theorem exists_enumerates_setPairs (hl : Enumerates l m) (ps : List (Sds × Sds)) :
    ∃ l', Enumerates l' (setPairs m ps) ∧ l'.length ≤ l.length + ps.length := by
  induction ps generalizing l m with
  | nil => exact ⟨l, hl, Nat.le_refl _⟩
  | cons p ps ih =>
    obtain ⟨l1, hl1, hlen1⟩ := hl.exists_update p.1 p.2
    obtain ⟨l2, hl2, hlen2⟩ := ih hl1
    exact ⟨l2, hl2, by rw [length_cons]; omega⟩

theorem HashCmd.Spec.enumerates {m' : Sds → Option Sds} {cmd : HashCmd} {out : List Reply}
    (h : cmd.Spec m out m') (hl : Enumerates l m) :
    ∃ l', Enumerates l' m' ∧ l'.length ≤ l.length + cmd.adds := by
  cases h with
  | hset f x => exact hl.exists_update f x
  | hsetnx_new x hf => exact hl.exists_update _ x
  | @hmset f x rest ps hps =>
    obtain ⟨l', hl', hlen⟩ := exists_enumerates_setPairs hl ps
    refine ⟨l', hl', ?_⟩
    have hcount : rest.length + 2 = 2 * ps.length :=
      (congrArg length hps).trans (length_flatPairs ps)
    rw [HashCmd.adds]
    omega
  | hdel f fs =>
    have hmap : (fun k => if k ∈ f :: fs then none else m k) =
        fun k => if decide (k ∉ f :: fs) = true then m k else none := by
      funext k
      by_cases hk : k ∈ f :: fs <;> simp [hk]
    exact ⟨_, hmap ▸ hl.filter _, (length_filter_le _ l).trans (Nat.le_add_right ..)⟩
  | _ => exact ⟨l, hl, Nat.le_add_right ..⟩

theorem throughout_hashRoom [Host] (hl : Enumerates l m) (cmds : List HashCmd)
    (h : 148 * (l.length + (cmds.map HashCmd.adds).sum) + 11 < 2 ^ 32) :
    Throughout HashCmd.Spec HashRoom m cmds := by
  induction cmds generalizing m l with
  | nil => exact ⟨l, hl, by simp at h; omega, .inl h⟩
  | cons cmd cmds ih =>
    rw [map_cons, sum_cons] at h
    refine ⟨⟨l, hl, by omega, .inl (by omega)⟩, fun out m' hspec => ?_⟩
    obtain ⟨l', hl', hlen⟩ := hspec.enumerates hl
    exact ih hl' (by omega)

theorem hashes_refine_converted :
    let _ : Host := { Host.plain 1 1 Nat.one_pos with hashMaxZiplistEntries := 2 }
    let v := HashVal.ziplist (zipFlat [([55], [48]), ([97], [98, 99])])
    let requests : List (Request HashCmd) :=
      [⟨.hexists [48, 48, 55], 1, fun _ => 0⟩,
        ⟨.hmset [55] [49] [[48, 48, 55], [55]], 1, fun _ => 0⟩,
        ⟨.hsetnx [97] [], 2, fun _ => 0⟩, ⟨.hdel [97] [[98]], 2, fun _ => 0⟩,
          ⟨.hgetall, 2, fun _ => 0⟩]
    ∃ outs s' m', serveAll (serve 0 HashCmd.proc (HashCmd.argv [107])) requests
        (Server.single 0 [107] (.hash v)) = some (outs, s') ∧
      Answers (fun m r => HashCmd.Spec m r.cmd)
        (Function.update (Function.update (fun _ => none) [97] (some [98, 99])) [55] (some [48]))
        requests outs m' ∧
      HashAt s'.dbs (home 0 [107]) [107] m' := by
  intro _ v requests
  have hl : Enumerates (K := Sds) (V := Sds) [([55], [48]), ([97], [98, 99])]
      (Function.update (Function.update (fun _ => none) [97] (some [98, 99])) [55] (some [48])) :=
    (Enumerates.nil.cons rfl _).cons rfl _
  refine hashes_refine le_rfl 0 [107] ?_ requests (throughout_hashRoom hl _ (by decide))
  refine .holds (Handler.update_ne_none _ _ _) (Server.single_keyIs 0 [107] _) 
    ⟨.ziplist hl (flat_zipFlat _), ?_, ?_⟩
  · unfold HashVal.Shorts Short
    decide
  · exact show 4 / 2 ≤ 2 by decide

/-- A dictionary with the fields "0", "1" and so on. -/
def numbered [Host] : ℕ → Dict Robj Robj
  | 0 => .create
  | n + 1 => (dictAdd (numbered n) ⟨0, false, .raw (ll2string n)⟩ (sharedInteger 0)).1

theorem numbered_spec [Host] {n : ℕ} (hn : n ≤ 2 ^ 30) :
    (numbered n).WF ∧ (numbered n).size = n ∧ (numbered n).Small ∧
      ∀ f, ((numbered n).get f).isSome = true → ∃ i < n, f = ll2string i := by
  induction n with
  | zero => exact ⟨Dict.wf_create, rfl, Dict.small_create, fun f hf => by simp [numbered] at hf⟩
  | succ n ih =>
    obtain ⟨hw, hsize, hsmall, hkeys⟩ := ih (by omega)
    have hnew : (numbered n).get (ll2string n) = none := by
      rw [← not_isSome_iff_eq_none]
      intro hsome
      obtain ⟨i, hi, heq⟩ := hkeys _ hsome
      have heq := ll2string_injOn (by unfold llongMin llongMax; omega)
        (by unfold llongMin llongMax; omega) heq
      omega
    obtain ⟨hw', -, -, hperm, -⟩ := dictAdd_spec hw ⟨0, false, .raw (ll2string n)⟩ (sharedInteger 0)
    have hperm := hperm (Dict.get_eq_none.mp hnew)
    refine ⟨hw', ?_, hsmall.add hw (by omega) _ _, fun f hf => ?_⟩
    · rw [numbered, hw'.size_eq, hperm.length_eq, length_cons, ← hw.size_eq, hsize]
    · rw [numbered, get_dictAdd hw _ _ hnew] at hf
      by_cases hfn : f = ll2string n
      · exact ⟨n, Nat.lt_succ_self n, hfn⟩
      · rw [show text (⟨0, false, .raw (ll2string n)⟩ : Robj) = ll2string n from rfl,
          update_of_ne hfn] at hf
        obtain ⟨i, hi, rfl⟩ := hkeys f hf
        exact ⟨i, hi.trans (Nat.lt_succ_self n), rfl⟩

/-- The header of the reply to HGETALL is negative from `2 ^ 30` fields on. -/
theorem hgetall_negative_header :
    let _ := Host.plain 1 1 Nat.one_pos
    let v := HashVal.ht (numbered (2 ^ 30))
    let m := fun f => ((numbered (2 ^ 30)).get f).map text
    HashAt (Server.single 0 [107] (.hash v)).dbs (home 0 [107]) [107] m ∧
      ∃ elems s', serve 0 HashCmd.proc (HashCmd.argv [107]) ⟨.hgetall, 1, fun _ => 0⟩
          (Server.single 0 [107] (.hash v)) = some (.multi (-2147483648) :: elems, s') ∧
        elems.length = 2147483648 := by
  obtain ⟨n, hn⟩ : ∃ n, n = 2 ^ 30 := ⟨_, rfl⟩
  rw [← hn]
  intro _ v m
  obtain ⟨hw, hsize, hsmall, -⟩ := numbered_spec hn.le
  have hkey := Server.single_keyIs 0 [107] (.hash v)
  have hv : v.Has m := .ht hw fun _ => rfl
  have hl : Enumerates (dictPairs (numbered n)) m := hw.enumerates
  have hlen : (dictPairs (numbered n)).length = n := by
    rw [dictPairs, length_map, ← hw.size_eq, hsize]
  have hne : m ≠ fun _ => none := fun hm => by
    rw [hl.eq_nil_iff.mpr (congrFun hm), length_nil] at hlen
    omega
  refine ⟨.holds hne hkey ⟨hv, trivial, hsmall⟩, ?_⟩
  obtain ⟨out, s', hserve, -, l, hl', rfl⟩ := call_of_ends (fun hargs =>
    Handler.genericHgetallCommand_out
      (s := .called (HashCmd.hgetall.argv [107]) 1 (.single 0 [107] (.hash v)))
      hargs rfl hkey hv true true) fun _ => 0
  rw [hl.length_eq hl'] at hlen
  have hhead : int32 (l.length * (true.toNat + true.toNat) : ℕ) = -2147483648 := by
    rw [hlen, hn]
    decide
  rw [Handler.hgetallReply, hhead] at hserve
  refine ⟨Handler.hgetallElems true true l, s', hserve, ?_⟩
  have helems : (Handler.hgetallElems true true l).length = l.length * 2 := by
    simp [Handler.hgetallElems, length_flatMap]
  omega

end Vire
