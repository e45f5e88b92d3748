import Vire.Jump.Place

/-!
# The steps, one by one

`Steps` lists what the step function can do, with the guard of each step.  Every invariant is proved
by cases on it.
-/

namespace Vire.Jump

inductive Steps (n : ℕ) (s : Sys) : Act → Sys → Prop
  | acceptFail {sd : ℤ} (hm : s.master = .idle) : Steps n s (.accept sd false) s
  | accept {sd : ℤ} (hm : s.master = .idle) (hsd : 0 < sd) :
      Steps n s (.accept sd true) (dispatchConnNew n s sd)
  | masterWrite {w : ℕ} {tag : Tag} {ok : Bool} (hm : s.master = .notify w tag) :
      Steps n s (.masterWrite ok) (masterWrite s w tag ok)
  | masterRead {w : ℕ} {tag : Tag} {rest : List Tag} (hm : s.master = .idle)
      (hr : s.toMaster w = tag :: rest) :
      Steps n s (.masterRead w true)
        { s with toMaster := Function.update s.toMaster w rest, master := .gotByte w tag true }
  | masterReadFail {w : ℕ} (hm : s.master = .idle) (hw : w < n) :
      Steps n s (.masterRead w false) { s with master := .gotByte w .b false }
  | masterPop {w : ℕ} {tag : Tag} {real : Bool} (hm : s.master = .gotByte w tag real) :
      Steps n s .masterPop (masterPop s w tag)
  | masterPush {idx : ℤ} {su : ConnSwapUnit} (hm : s.master = .hold idx su) :
      Steps n s .masterPush (masterPush n s idx su)
  | read {i : ℕ} {tag : Tag} {rest : List Tag} (hw : s.worker i = .idle)
      (hr : s.toWorker i = tag :: rest) :
      Steps n s (.read i true)
        { s.setWorker i (.gotByte tag true) with toWorker := Function.update s.toWorker i rest }
  | readFail {i : ℕ} (hw : s.worker i = .idle) (hi : i < n) :
      Steps n s (.read i false) (s.setWorker i (.gotByte .c false))
  | pop {i : ℕ} {tag : Tag} {real : Bool} {conn : NewConn} {ae : Bool}
      (hw : s.worker i = .gotByte tag real) :
      Steps n s (.pop i conn ae) (workerPop n s i tag conn ae)
  | dispatch {i : ℕ} {c : Cid} {alloc : Bool} (hw : s.worker i = .dispatch c) :
      Steps n s (.dispatch i alloc) (dispatchConnExist s i c alloc)
  | readCuridx {i : ℕ} {c : Cid} {junk : ℤ} (hw : s.worker i = .pushed c) :
      Steps n s (.readCuridx i junk)
        (s.setWorker i (.notify (((s.client c).map Client.curidx).getD junk)))
  | write {i : ℕ} {idx : ℤ} {ok : Bool} (hw : s.worker i = .notify idx) :
      Steps n s (.write i ok) (workerWrite n s i idx ok)
  | readQuery {i : ℕ} {c : Cid} {inp : Input} (hw : s.worker i = .idle)
      (hc : c ∈ (s.loop i).clients) :
      Steps n s (.readQuery i c inp) (readQueryFromClient s i c inp)
  | input {i : ℕ} {c : Cid} {linked ae : Bool} (hw : s.worker i = .input c linked) :
      Steps n s (.input i ae) (processInput n s i c linked ae)
  | sendReply {i : ℕ} {c : Cid} {res : WriteResult} (hw : s.worker i = .idle)
      (hc : c ∈ (s.loop i).clients) :
      Steps n s (.sendReply i c res) (writeToClient s i c res).1
  | beforeSleep {i : ℕ} {res : Cid → WriteResult} {ae : Cid → Bool} (hi : i < n)
      (hw : s.worker i = .idle) :
      Steps n s (.beforeSleep i res ae) (handleClientsWithPendingWrites s i res ae)
  | cron {i : ℕ} (hi : i < n) (hw : s.worker i = .idle) :
      Steps n s (.cron i) (freeClientsInAsyncFreeQueue s i)

theorem step_cases {n : ℕ} {s s' : Sys} {a : Act} (h : step n s a = some s') : Steps n s a s' := by
  cases a with
  | accept sd alloc =>
    simp only [step] at h
    split at h
    · next hm =>
      split_ifs at h with hsd ha
      · cases h
        subst ha
        exact .accept hm hsd
      · cases h
        cases alloc
        · exact .acceptFail hm
        · exact absurd rfl ha
    · cases h
  | masterRead w ok =>
    simp only [step] at h
    split at h
    · next hm hr =>
      cases h
      exact .masterRead hm hr
    · next hm =>
      split_ifs at h with hw
      cases h
      exact .masterReadFail hm hw
    · cases h
  | read i ok =>
    simp only [step] at h
    split at h
    · next hw hr =>
      cases h
      exact .read hw hr
    · next hw =>
      split_ifs at h with hi
      cases h
      exact .readFail hw hi
    · cases h
  | readQuery | sendReply | beforeSleep | cron =>
    simp only [step] at h
    split_ifs at h with hg
    cases h
    constructor
    exacts [hg.1, hg.2]
  | masterWrite | masterPop | masterPush | pop | dispatch | readCuridx | write | input =>
    simp only [step] at h
    split at h
    · next hpc =>
      cases h
      constructor
      exact hpc
    · cases h

end Vire.Jump
