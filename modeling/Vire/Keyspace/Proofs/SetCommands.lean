import Vire.Keyspace.Handler.Set
import Vire.Keyspace.Proofs.Handler
import Vire.Keyspace.Proofs.Set

/-!
# Set commands and finite sets

The answers are those of a finite set of byte strings, up to the order in which the members are
listed and the member that is popped, whatever the encoding of the set is.
-/

namespace Vire

open List Logic Prog

inductive SetCmd
  | sadd (member : Sds) (members : List Sds)
  | srem (member : Sds) (members : List Sds)
  | sismember (member : Sds)
  | scard
  | smembers
  | spop

def SetCmd.argv (key : Sds) : SetCmd → List Sds
  | sadd m ms => ascii "sadd".toList :: key :: m :: ms
  | srem m ms => ascii "srem".toList :: key :: m :: ms
  | sismember m => [ascii "sismember".toList, key, m]
  | scard => [ascii "scard".toList, key]
  | smembers => [ascii "smembers".toList, key]
  | spop => [ascii "spop".toList, key]

/-- `Spec S cmd out S'`: asked `cmd`, the set `S` may answer `out` and become `S'`. -/
inductive SetCmd.Spec (S : Finset Sds) : SetCmd → List Reply → Finset Sds → Prop
  | sadd (m : Sds) (ms : List Sds) :
    Spec S (.sadd m ms) [.int ((m :: ms).toFinset \ S).card] (S ∪ (m :: ms).toFinset)
  | srem (m : Sds) (ms : List Sds) :
    Spec S (.srem m ms) [.int ((m :: ms).toFinset ∩ S).card] (S \ (m :: ms).toFinset)
  | sismember (m : Sds) : Spec S (.sismember m) [.int (if m ∈ S then 1 else 0)] S
  | scard : Spec S .scard [.int S.card] S
  | smembers {l : List Sds} (hnodup : l.Nodup) (hl : l.toFinset = S) :
    Spec S .smembers (.multi S.card :: l.map .bulk) S
  | spop_empty (h : S = ∅) : Spec S .spop [.nil] S
  | spop {m : Sds} (hm : m ∈ S) : Spec S .spop [.bulk m] (S.erase m)

theorem card_cons_sdiff (m : Sds) (ms : List Sds) (S : Finset Sds) :
    ((m :: ms).toFinset \ S).card = (if m ∈ S then 0 else 1) + (ms.toFinset \ insert m S).card := by
  rw [toFinset_cons]
  split_ifs with hm
  · rw [Finset.insert_sdiff_of_mem _ hm, Finset.insert_eq_of_mem hm, Nat.zero_add]
  · have hinsert : insert m (ms.toFinset \ S) = insert m (ms.toFinset \ insert m S) := by
      ext x
      by_cases hx : x = m <;> simp [hx]
    rw [Finset.insert_sdiff_of_notMem _ hm, hinsert, Finset.card_insert_of_notMem (by simp),
      Nat.add_comm]

theorem card_cons_inter (m : Sds) (ms : List Sds) (S : Finset Sds) :
    ((m :: ms).toFinset ∩ S).card = (if m ∈ S then 1 else 0) + (ms.toFinset ∩ S.erase m).card := by
  rw [toFinset_cons]
  split_ifs with hm
  · have hinsert : insert m (ms.toFinset ∩ S) = insert m (ms.toFinset ∩ S.erase m) := by
      ext x
      by_cases hx : x = m <;> simp [hx]
    rw [Finset.insert_inter_of_mem hm, hinsert, Finset.card_insert_of_notMem (by simp),
      Nat.add_comm]
  · rw [Finset.insert_inter_of_notMem hm, Finset.erase_eq_of_notMem hm, Nat.zero_add]

section

variable [Host]

def SetCmd.proc : SetCmd → Cmd Unit
  | sadd _ _ => Handler.saddCommand
  | srem _ _ => Handler.sremCommand
  | sismember _ => Handler.sismemberCommand
  | scard => Handler.scardCommand
  | smembers => Handler.smembersCommand
  | spop => Handler.spopCommand

/-- The key holds the set; there is no key for the empty one. -/
inductive SetAt (dbs : ℕ → Db Value) (i : ℕ) (key : Sds) (S : Finset Sds) : Prop
  | missing (hS : S = ∅) (h : KeyIs dbs i key none)
  | holds {v : SetVal} (hne : S.Nonempty) (h : KeyIs dbs i key (some (.set v))) (hv : v.Holds S)

def SetCmd.Done (dictid : ℕ) (key : Sds) (S : Finset Sds) (cmd : SetCmd) (out : List Reply)
    (dbs : ℕ → Db Value) : Prop :=
  ∃ S', SetCmd.Spec S cmd out S' ∧ SetAt dbs (home dictid key) key S'

namespace Handler

variable {c : Client} {s : Server} {key : Sds} {argv : List Sds} {S : Finset Sds} {v : SetVal}

theorem saddLoop_wp {js : List ℕ} {ms : List Sds} {Q : Post ℕ}
    (hjs : Forall₂ (fun j m => argv[j]? = some m) js ms) (hargs : Args c.argv argv)
    (h : KeyIs s.dbs c.db key (some (.set v))) (hv : v.Holds S) (hroom : SetRoom (S ∪ ms.toFinset))
    (added : ℕ)
    (hQ : ∀ os s' v', KeyIs s'.dbs c.db key (some (.set v')) → v'.Holds (S ∪ ms.toFinset) →
      Q (added + (ms.toFinset \ S).card) { c with argv := os } s') :
    (saddLoop key js v added).Wp c s Q := by
  induction hjs generalizing c s v S added with
  | nil =>
    rw [saddLoop, wp_pure]
    simpa using hQ c.argv s v h (by simpa using hv)
  | @cons j m js ms hj _ ih =>
    rw [saddLoop, wp_bind]
    refine wp_encodeArg hargs hj fun os heap hargs1 => ?_
    rw [toFinset_cons, Finset.union_insert, ← Finset.insert_union] at hroom
    have hone := hroom.mono Finset.subset_union_left
    have ho := hargs1.getD hj (sharedInteger 0)
    rw [wp_arg, wp_bind, wp_assert, wp_bind]
    refine ⟨hv.hasRoom hv.small ho hone, ?_⟩
    obtain ⟨v', h', hadd, hv', -, hsmall⟩ := hv.setTypeAdd ho heap
    refine wp_update h (by rw [hadd]; rfl) fun s2 h2 => ?_
    refine ih hargs1 h2 ⟨hv', hsmall hone.1 hv.small⟩ hroom _ fun os' s3 v3 h3 hv3 => ?_
    have hcount : (if decide (m ∉ S) = true then added + 1 else added) +
        (ms.toFinset \ insert m S).card = added + ((m :: ms).toFinset \ S).card := by
      rw [card_cons_sdiff]
      by_cases hm : m ∈ S
      · simp [hm]
      · simp [hm]
        omega
    rw [hcount]
    refine hQ os' s3 v3 h3 ?_
    rwa [toFinset_cons, Finset.union_insert, ← Finset.insert_union]

theorem saddCommand_add_wp (hargs : Args c.argv argv) (h : KeyIs s.dbs c.db key (some (.set v)))
    (hv : v.Holds S) (hroom : SetRoom (S ∪ (argv.drop 2).toFinset)) :
    (saddCommand.add key v).Ends c s fun out dbs =>
      out = c.out ++ [.int ((argv.drop 2).toFinset \ S).card] ∧
        ∃ v', KeyIs dbs c.db key (some (.set v')) ∧ v'.Holds (S ∪ (argv.drop 2).toFinset) := by
  rw [Cmd.Ends, saddCommand.add, wp_argc, wp_bind, hargs.length_eq]
  refine saddLoop_wp (forall₂_range' argv 2) hargs h hv hroom 0 fun os s' v' h' hv' => ?_
  rw [wp_replyUnlock, Nat.zero_add]
  exact ⟨rfl, v', h', hv'⟩

theorem sremLoop_wp {values : List Robj} {ms : List Sds} {Q : Post ℕ}
    (hvals : Forall₂ Robj.Denotes values ms) (h : KeyIs s.dbs c.db key (some (.set v)))
    (hv : v.Holds S) (hne : S.Nonempty) (deleted : ℕ)
    (hQ : ∀ s', SetAt s'.dbs c.db key (S \ ms.toFinset) →
      Q (deleted + (ms.toFinset ∩ S).card) c s') :
    (sremLoop key values v deleted).Wp c s Q := by
  induction hvals generalizing s v S deleted with
  | nil =>
    rw [sremLoop, wp_pure]
    simpa using hQ s (by simpa using .holds hne h hv)
  | @cons value m values ms hval _ ih =>
    obtain ⟨hflag, hrest, -, hsmall⟩ := hv.setTypeRemove hval s.heap
    have hsmall := hsmall hv.small
    rw [card_cons_inter] at hQ
    rw [sremLoop, wp_bind]
    refine wp_update h rfl fun s1 h1 => ?_
    have hsdiff : S \ (m :: ms).toFinset = S.erase m \ ms.toFinset := by
      rw [toFinset_cons, Finset.sdiff_insert, Finset.erase_sdiff_comm]
    rw [hsdiff] at hQ
    simp only [hflag, hrest.size_eq, decide_eq_true_eq, Finset.card_eq_zero]
    split_ifs with hm hempty
    · -- the last member is gone, and the key with it
      rw [if_pos hm, hempty] at hQ
      rw [wp_bind]
      refine wp_dbDelete h1 fun s2 h2 => ?_
      simpa using hQ s2 (.missing (by simp) h2)
    · rw [if_pos hm] at hQ
      refine ih h1 ⟨hrest, hsmall⟩ (Finset.nonempty_iff_ne_empty.mpr hempty) _ fun s2 h2 => ?_
      rw [Nat.add_assoc]
      exact hQ s2 h2
    · rw [if_neg hm, Nat.zero_add] at hQ
      rw [Finset.erase_eq_of_notMem hm] at hrest hQ
      exact ih h1 ⟨hrest, hsmall⟩ hne _ hQ

section

variable {d : ℕ} {os : List Robj} {m : Sds} {ms : List Sds} (h : SetAt s.dbs (home d key) key S)

include h

theorem saddCommand_wp (hargs : Args os ((SetCmd.sadd m ms).argv key))
    (hroom : SetRoom (S ∪ (m :: ms).toFinset)) :
    saddCommand.Ends (.called d os) s ((SetCmd.sadd m ms).Done d key S) := by
  have hadd : ∀ {s : Server} {v : SetVal}, KeyIs s.dbs (home d key) key (some (.set v)) →
    v.Holds S →
      (saddCommand.add key v).Ends ((Client.called d os).on key) s
        ((SetCmd.sadd m ms).Done d key S) := by
    intro s v h hv
    refine (saddCommand_add_wp (c := (Client.called d os).on key) hargs h hv hroom).mono ?_
    rintro _ c' s' ⟨hout, v', h', hv'⟩
    exact ⟨S ∪ (m :: ms).toFinset, hout ▸ .sadd m ms, .holds ⟨m, by simp⟩ h' hv'⟩
  refine wp_lockKey hargs rfl ?_
  rw [wp_bind]
  cases h with
  | missing hS h =>
    rw [wp_lookupKeyWrite (c := (Client.called d os).on key) h, withSome, wp_arg, wp_bind]
    exact wp_dbAdd h fun s' h' => hadd h' ⟨hS ▸ setTypeCreate_is _, setTypeCreate_small _⟩
  | holds hne h hv =>
    rw [wp_lookupKeyWrite (c := (Client.called d os).on key) h]
    exact hadd h hv

omit h in
theorem saddCommand_fails (hargs : Args os ((SetCmd.sadd m ms).argv key))
    (h : KeyIs s.dbs (home d key) key (some (.set v)))
    (hroom : ∀ o : Robj, o.Denotes m → setTypeHasRoom v o = false) :
    saddCommand.Fails (.called d os) s := by
  refine fails_lockKey hargs rfl (.of_wp ?_)
  rw [wp_lookupKeyWrite (c := (Client.called d os).on key) h]
  refine .of_wp ?_
  rw [argc, wp_readP, hargs.length_eq]
  refine .bind (.of_wp (wp_encodeArg hargs rfl fun os' heap hargs1 => .of_wp ?_))
  rw [arg, wp_readP, hroom _ (hargs1.getD rfl _)]
  exact trivial

theorem sremCommand_wp (hargs : Args os ((SetCmd.srem m ms).argv key)) :
    sremCommand.Ends (.called d os) s ((SetCmd.srem m ms).Done d key S) := by
  have hspec := SetCmd.Spec.srem (S := S) m ms
  cases h with
  | missing hS h =>
    subst hS
    rw [Finset.inter_empty, Finset.empty_sdiff] at hspec
    exact wp_writeKey_none hargs rfl h ⟨∅, hspec, .missing rfl h⟩
  | holds hne h hv =>
    refine wp_writeKey_some hargs rfl h rfl ?_
    rw [wp_args, wp_bind]
    refine sremLoop_wp (forall₂_drop 2 hargs) h hv hne 0 fun s' h' => ?_
    rw [wp_replyUnlock, Nat.zero_add]
    exact ⟨_, hspec, h'⟩

theorem sismemberCommand_wp (hargs : Args os ((SetCmd.sismember m).argv key)) :
    sismemberCommand.Ends (.called d os) s ((SetCmd.sismember m).Done d key S) := by
  have hspec := SetCmd.Spec.sismember (S := S) m
  cases h with
  | missing hS h =>
    rw [if_neg (by simp [hS])] at hspec
    exact wp_readKey_none hargs rfl h ⟨S, hspec, .missing hS h⟩
  | holds hne h hv =>
    refine wp_readKey_some hargs rfl h rfl ?_
    rw [wp_bind]
    refine wp_encodeArg hargs rfl fun os' heap hargs' => ?_
    rw [wp_arg, hv.setTypeIsMember (hargs'.getD rfl _)]
    by_cases hm : m ∈ S
    · rw [if_pos hm] at hspec
      rw [decide_eq_true hm]
      exact ⟨S, hspec, .holds hne h hv⟩
    · rw [if_neg hm] at hspec
      rw [decide_eq_false hm]
      exact ⟨S, hspec, .holds hne h hv⟩

theorem scardCommand_wp (hargs : Args os (SetCmd.scard.argv key)) :
    scardCommand.Ends (.called d os) s (SetCmd.scard.Done d key S) := by
  have hspec := SetCmd.Spec.scard (S := S)
  cases h with
  | missing hS h =>
    subst hS
    exact wp_readKey_none hargs rfl h ⟨∅, hspec, .missing rfl h⟩
  | holds hne h hv =>
    refine wp_readKey_some hargs rfl h rfl ?_
    rw [hv.size_eq, wp_replyUnlock]
    exact ⟨S, hspec, .holds hne h hv⟩

theorem smembersCommand_wp (hargs : Args os (SetCmd.smembers.argv key)) :
    smembersCommand.Ends (.called d os) s (SetCmd.smembers.Done d key S) := by
  cases h with
  | missing hS h =>
    subst hS
    exact wp_readKey_none hargs rfl h ⟨∅, .smembers nodup_nil rfl, .missing rfl h⟩
  | @holds v hne h hv =>
    refine wp_readKey_some hargs rfl h rfl ?_
    rw [wp_bind, smembersGenericCommand, wp_bind, wp_addReply, wp_addReplies, unlockDb,
      wp_unlockP, hv.size_eq]
    have hspec := SetCmd.Spec.smembers hv.ok.nodup hv.toFinset_eq
    rw [SetVal.texts, map_map] at hspec
    exact ⟨S, hspec, .holds hne h hv⟩

omit h in
theorem spopElement_some (hv : v.Holds S) (hne : S.Nonempty) (r : ℕ) (heap : Heap) :
    ∃ o v' heap', spopElement v r heap = some (o, v', heap') ∧ text o ∈ S ∧
      v'.Holds (S.erase (text o)) := by
  obtain ⟨e, he, hmem, hv1, -, hsmall1⟩ := hv.setTypeRandomElement hne r
  have htext := hv.text_mem hmem
  have hrandom : setTypeRandomElement v r = (some e, (setTypeRandomElement v r).2) :=
    Prod.ext he rfl
  cases v with
  | intset is =>
    obtain ⟨i, hi, rfl⟩ := mem_map.mp hmem
    obtain ⟨ele, hele⟩ : ∃ ele, ele = createStringObjectFromLongLong i heap := ⟨_, rfl⟩
    have hok : is.Ok := hv.ok
    have hrange := hok.range hi
    have hnum : text ele.1 = ll2string i := by rw [hele, createStringObjectFromLongLong_text]
    refine ⟨ele.1, .intset (intsetRemove is i).1, ele.2, ?_, hnum ▸ htext, ?_⟩
    · rw [spopElement, hrandom, hele]
      rfl
    · rw [hnum]
      exact ⟨(hv.intsetRemove (string2ll_ll2string hrange.1 hrange.2)).2,
        (intsetRemove_len_le hok i).trans hv.small⟩
  | ht d =>
    obtain ⟨e, -, rfl⟩ := mem_map.mp hmem
    obtain ⟨ele, hele⟩ : ∃ ele, ele = dupStringObjectUnconstant e.1 heap := ⟨_, rfl⟩
    have hdup : text ele.1 = text e.1 := by
      rw [hele, dupStringObjectUnconstant]
      split_ifs <;> rfl
    obtain ⟨rest, hrest⟩ :
        ∃ rest, rest = setTypeRemove (setTypeRandomElement (.ht d) r).2 ele.1 ele.2 :=
      ⟨_, rfl⟩
    obtain ⟨-, hv2, -, hsmall2⟩ := hv1.setTypeRemove_ht ele.1 ele.2
    refine ⟨ele.1, rest.2.1, rest.2.2, ?_, hdup ▸ htext, ?_⟩
    · rw [spopElement, hrandom, hrest, hele]
    · exact hrest ▸ ⟨hv2, hsmall2 (hsmall1 hv.small)⟩

theorem spopCommand_wp (hargs : Args os (SetCmd.spop.argv key)) :
    spopCommand.Ends (.called d os) s (SetCmd.spop.Done d key S) := by
  cases h with
  | missing hS h => exact wp_writeKey_none hargs rfl h ⟨S, .spop_empty hS, .missing hS h⟩
  | holds hne h hv =>
    refine wp_writeKey_some hargs rfl h rfl ?_
    rw [wp_bind, someNat, wp_bind, wp_askP]
    intro random
    rw [wp_pure, wp_bind]
    obtain ⟨o, v', heap', hpop, hmem, hv'⟩ := spopElement_some hv hne random.toNat s.heap
    refine wp_update h (by rw [hpop]; rfl) fun s1 h1 => ?_
    -- the copy of the key in the rewritten command
    have haux : text (dupStringObjectUnconstant (os.getD 1 (sharedInteger 0))
        (createStringObject (ascii "SREM".toList) s1.heap).2).1 = key :=
      ((hargs.getD rfl _).dupStringObjectUnconstant _).text_eq
    rw [wp_bind, wp_inMemory, wp_arg, wp_bind, wp_inMemory, wp_bind,
      rewriteClientCommandVector, wp_args, wp_bind, wp_inMemory, wp_modifyP, wp_bind,
      wp_addReply, hv'.size_eq]
    split_ifs with hempty
    · rw [wp_arg, wp_bind]
      simp only [getD_cons_succ, getD_cons_zero, haux]
      exact wp_dbDelete h1 fun s2 h2 => ⟨_, .spop hmem, .missing (Finset.card_eq_zero.mp hempty) h2⟩
    · exact ⟨_, .spop hmem, .holds (Finset.card_ne_zero.mp hempty) h1 hv'⟩

end

end Handler

theorem SetCmd.proc_wp (cmd : SetCmd) {d : ℕ} {os : List Robj} {s : Server} {key : Sds}
    {S : Finset Sds} (hargs : Args os (cmd.argv key)) (h : SetAt s.dbs (home d key) key S)
    (hroom : ∀ out S', cmd.Spec S out S' → SetRoom S') :
    cmd.proc.Ends (.called d os) s (cmd.Done d key S) := by
  cases cmd with
  | sadd m ms => exact Handler.saddCommand_wp h hargs (hroom _ _ (.sadd m ms))
  | srem m ms => exact Handler.sremCommand_wp h hargs
  | sismember m => exact Handler.sismemberCommand_wp h hargs
  | scard => exact Handler.scardCommand_wp h hargs
  | smembers => exact Handler.smembersCommand_wp h hargs
  | spop => exact Handler.spopCommand_wp h hargs

/-- For every sequence of requests on a key that is missing or holds a set in either encoding, and
every limit on intsets, all answers are those of a finite set of byte strings, and the key holds
that set in the end, as long as there is room for the set. -/
theorem sets_refine (dictid : ℕ) (key : Sds) {s : Server} {S : Finset Sds}
    (h : SetAt s.dbs (home dictid key) key S) (requests : List (Request SetCmd))
    (hroom : Throughout SetCmd.Spec SetRoom S (requests.map Request.cmd)) :
    ∃ outs s' S', serveAll (serve dictid SetCmd.proc (SetCmd.argv key)) requests s =
      some (outs, s') ∧ Answers (fun S r => SetCmd.Spec S r.cmd) S requests outs S' ∧
      SetAt s'.dbs (home dictid key) key S' :=
  serveAll_answers_within SetCmd.Spec (fun d dbs => SetAt dbs (home d key) key) SetRoom
    (fun cmd _ _ _ _ hargs h _ hnext => cmd.proc_wp hargs h hnext) requests h hroom

end

/-- The members that a command may add. -/
def SetCmd.adds : SetCmd → ℕ
  | sadd _ ms => ms.length + 1
  | _ => 0

theorem SetCmd.Spec.card_le {S S' : Finset Sds} {cmd : SetCmd} {out : List Reply}
    (h : cmd.Spec S out S') : S'.card ≤ S.card + cmd.adds := by
  cases h with
  | sadd m ms =>
    have hlen := toFinset_card_le (m :: ms)
    exact (Finset.card_union_le _ _).trans (Nat.add_le_add_left hlen _)
  | srem m ms => exact Finset.card_le_card Finset.sdiff_subset
  | spop hm => exact Finset.card_erase_le
  | _ => exact Nat.le_refl _

theorem throughout_setRoom [Host] {S : Finset Sds} (cmds : List SetCmd)
    (h : S.card + (cmds.map SetCmd.adds).sum < 2 ^ 29) : Throughout SetCmd.Spec SetRoom S cmds := by
  induction cmds generalizing S with
  | nil => exact ⟨by simp at h; omega, .inl h⟩
  | cons cmd cmds ih =>
    rw [map_cons, sum_cons] at h
    refine ⟨⟨by omega, .inl (by omega)⟩, fun out S' hspec => ih ?_⟩
    have := hspec.card_le
    omega

/-- Over a stored intset, which SADD of "007" converts. -/
theorem sets_refine_converted :
    let _ := Host.plain 1 1 Nat.one_pos
    let s := Server.single 0 [107] (.set (.intset ⟨.int16, [-3, 7, 300]⟩))
    let requests : List (Request SetCmd) :=
      [⟨.sismember [48, 48, 55], 1, fun _ => 0⟩,
        ⟨.sadd [55] [[48, 48, 55], [45, 48]], 1, fun _ => 0⟩,
        ⟨.srem [45, 51] [[43, 55]], 2, fun _ => 0⟩, ⟨.spop, 2, fun _ => 3⟩,
          ⟨.smembers, 2, fun _ => 0⟩]
    ∃ outs s' S', serveAll (serve 0 SetCmd.proc (SetCmd.argv [107])) requests s = some (outs, s') ∧
      Answers (fun S r => SetCmd.Spec S r.cmd) {[45, 51], [55], [51, 48, 48]} requests outs S' ∧
      SetAt s'.dbs (home 0 [107]) [107] S' := by
  intro _ s requests
  have hok : Intset.Ok ⟨.int16, [-3, 7, 300]⟩ := ⟨by decide, by decide⟩
  refine sets_refine 0 [107] ?_ requests (throughout_setRoom _ (by decide))
  refine .holds ⟨[55], by decide⟩ (Server.single_keyIs 0 [107] _) ⟨⟨hok, fun x => ?_⟩, ?_⟩
  swap
  · exact show 3 ≤ 512 by decide
  rw [SetVal.texts_intset]
  simp [show ll2string (-3) = [45, 51] by decide, show ll2string 7 = [55] by decide,
    show ll2string 300 = [51, 48, 48] by decide]

/-- An intset of 64-bit integers. -/
def wideIntset (n : ℕ) : Intset := ⟨.int64, (range n).map fun i : ℕ => (2 ^ 32 + i : ℤ)⟩

theorem wideIntset_ok {n : ℕ} (hn : n ≤ 2 ^ 32) : (wideIntset n).Ok := by
  refine ⟨?_, fun v hv => ?_⟩
  · exact pairwise_map.mpr (pairwise_lt_range.imp fun h => by omega)
  · obtain ⟨i, hi, rfl⟩ := mem_map.mp hv
    rw [mem_range] at hi
    change -2 ^ 63 ≤ _ ∧ _ < 2 ^ 63
    omega

theorem wideIntset_len (n : ℕ) : intsetLen (wideIntset n) = n := by
  rw [intsetLen, wideIntset, length_map, length_range]

theorem wideIntset_full [Host] {n : ℕ} (hn : 2 ^ 29 ≤ n + 1) (hle : n ≤ 2 ^ 32) {o : Robj}
    (ho : o.Denotes [55]) : setTypeHasRoom (.intset (wideIntset n)) o = false := by
  have hfind : intsetFind (wideIntset n) 7 = false := by
    rw [Bool.eq_false_iff, ne_eq, intsetFind_iff (wideIntset_ok hle)]
    intro hmem
    obtain ⟨i, -, hi⟩ := mem_map.mp hmem
    omega
  have hbytes : ¬(n + 1) * 8 < 2 ^ 32 := by omega
  simp only [setTypeHasRoom, ho.representable, show string2ll [55] = some 7 by decide, hfind,
    wideIntset_len, Bool.false_or, decide_eq_false_iff_not]
  exact hbytes

/-- The byte count of an intset of `2 ^ 29 - 1` integers is right, but there is no room for one
more. -/
theorem sadd_full_intset :
    let _ : Host := { Host.plain 1 1 Nat.one_pos with setMaxIntsetEntries := 2 ^ 29 }
    let v := SetVal.intset (wideIntset (2 ^ 29 - 1))
    SetAt (Server.single 0 [107] (.set v)).dbs (home 0 [107]) [107] v.texts.toFinset ∧
      serve 0 SetCmd.proc (SetCmd.argv [107]) ⟨.sadd [55] [], 1, fun _ => 0⟩
        (Server.single 0 [107] (.set v)) = none := by
  obtain ⟨n, hn⟩ : ∃ n, n = 2 ^ 29 - 1 := ⟨_, rfl⟩
  rw [← hn]
  intro _ v
  have hkey := Server.single_keyIs 0 [107] (.set v)
  have hv : v.Holds v.texts.toFinset := by
    refine ⟨⟨wideIntset_ok (by omega), fun x => mem_toFinset.symm⟩, ?_⟩
    exact (wideIntset_len n).trans_le (show n ≤ 2 ^ 29 by omega)
  have hne : v.texts.toFinset.Nonempty := by
    have hsize : n = v.texts.toFinset.card := (wideIntset_len n).symm.trans hv.size_eq
    exact Finset.card_pos.mp (by omega)
  refine ⟨.holds hne hkey hv, call_of_fails (fun hargs => ?_) _⟩
  exact Handler.saddCommand_fails hargs hkey fun o ho => wideIntset_full (by omega) (by omega) ho

end Vire
