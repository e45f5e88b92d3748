import Vire.Keyspace.Handler.SetOps
import Vire.Keyspace.Proofs.SetCommands
import Vire.Logic.Interference

/-!
# The loops of SINTER, SUNION and SDIFF

`Sees` says what the handlers find: `look n key` is what is at `key` when a lock is taken for the
`n`-th time.  What every loop leads to is a function of that and of the order in which an iterator
visits a set (`seenSizes`, `seenMembers` and so on).
-/

namespace Vire

open List Option Logic Prog Handler

variable {e : Elem}

theorem Elem.Proper.object (he : e.Proper) (h : Heap) :
    (e.object h).1.Denotes e.text := by
  cases e with
  | num i => exact (Made.createStringObjectFromLongLong he.1 he.2 rfl h).denotes
  | obj o => exact he

variable [Host]

/-- The value stands for the set, and so does every object in it for its text. -/
structure SetVal.Sound (v : SetVal) (S : Finset Sds) : Prop extends v.Is S where
  proper : v.Proper

variable {v : SetVal} {S : Finset Sds} {es : List Elem}

theorem SetVal.Sound.elems (h : v.Sound S) : ∀ e ∈ setTypeElems v, e.Proper := h.proper.elems h.ok

theorem createIntsetObject_sound : createIntsetObject.Sound ∅ where
  ok := intsetNew_ok
  mem_iff s := by simp [createIntsetObject, SetVal.texts_intset, intsetNew]
  proper := trivial

theorem intset_sound {is : Intset} (hok : is.Ok) :
    (SetVal.intset is).Sound (is.contents.map ll2string).toFinset where
  ok := hok
  mem_iff s := by rw [SetVal.texts_intset, List.mem_toFinset]
  proper := trivial

theorem createSetObject_sound : createSetObject.Sound ∅ where
  ok := Dict.wf_create
  mem_iff s := by simp [createSetObject, SetVal.texts_ht, texts, Dict.entries_create]
  proper := fun e he => by cases he

section

variable {o : Robj} {s : Sds} (ho : o.Denotes s)

include ho

theorem SetVal.Sound.dictAdd {d : Dict Robj Unit} (hv : (SetVal.ht d).Sound S) :
    (SetVal.ht (Vire.dictAdd d o ()).1).Sound (insert s S) :=
  ⟨(hv.toIs.dictAdd ho).2, hv.proper.dictAdd hv.ok ho⟩

theorem SetVal.Sound.setTypeAdd (hv : v.Sound S) (h : Heap) :
    ∃ v' h', Vire.setTypeAdd v o h = some (decide (s ∉ S), v', h') ∧ v'.Sound (insert s S) := by
  obtain ⟨v', h', hrun, hv', hproper, -⟩ := hv.toIs.setTypeAdd ho h
  exact ⟨v', h', hrun, hv', hproper hv.proper⟩

theorem SetVal.Sound.setTypeRemove (hv : v.Sound S) (h : Heap) :
    (Vire.setTypeRemove v o h).1 = decide (s ∈ S) ∧
      (Vire.setTypeRemove v o h).2.1.Sound (S.erase s) := by
  obtain ⟨hflag, hv', hproper, -⟩ := hv.toIs.setTypeRemove ho h
  exact ⟨hflag, hv', hproper hv.proper⟩

end

theorem SetVal.Sound.setTypeRandomElement (hv : v.Sound S) (hne : S.Nonempty) (r : ℕ) :
    ∃ e v', Vire.setTypeRandomElement v r = (some e, v') ∧ e ∈ setTypeElems v ∧ v'.Sound S := by
  obtain ⟨e, he, hmem, hv', hproper, -⟩ := hv.toIs.setTypeRandomElement hne r
  exact ⟨e, _, Prod.ext he rfl, hmem, hv', hproper hv.proper⟩

/-- The integers 1, 2 and 300, and the strings "2" and "x". -/
def numbersSet : SetVal := .intset ⟨.int16, [1, 2, 300]⟩

def wordsSet : SetVal :=
  .ht (dictAdd (dictAdd .create (sharedInteger 2) ()).1 ⟨0, false, .raw [120]⟩ ()).1

theorem numbersSet_sound : numbersSet.Sound {[49], [50], [51, 48, 48]} :=
  intset_sound ⟨by decide, by decide⟩

theorem wordsSet_sound : wordsSet.Sound {[50], [120]} := by
  have hempty := createSetObject_sound
  have hnum : (sharedInteger 2).Denotes [50] := ⟨by decide, by decide, rfl⟩
  have hword : Robj.Denotes ⟨0, false, .raw [120]⟩ [120] := rfl
  rw [Finset.pair_comm]
  exact (hempty.dictAdd hnum).dictAdd hword

/-- Two sets and nothing at any other key. -/
def holdingTwo (v : SetVal) : Server :=
  (Server.single 0 [97] (.set numbersSet)).hold 0 [98] (.set v)

theorem holdingTwo_keyIs (v : SetVal) :
    KeyIs (holdingTwo v).dbs (home 0 [97]) [97] (some (.set numbersSet)) ∧
      KeyIs (holdingTwo v).dbs (home 0 [98]) [98] (some (.set v)) ∧
      ∀ key, key ≠ [97] → key ≠ [98] → KeyIs (holdingTwo v).dbs (home 0 key) key none := by
  have hinit := fun key => Server.init_keyIs 0 (home 0 key) key
  have hnone := fun key hne => (hinit key).hold_other (hinit [97]) hne (.set numbersSet)
  have hb := hnone [98] (by decide)
  exact ⟨(Server.single_keyIs 0 [97] _).hold_other hb (by decide) _, hb.hold _,
    fun key ha hb' => (hnone key ha).hold_other hb hb' _⟩

theorem SetVal.Sound.addElems (hv : v.Sound S) (hes : ∀ e ∈ es, e.Proper) (n : ℤ) (h : Heap) :
    ∃ v' h', Vire.addElems es v (int32 n) h =
        some ((v', int32 (n + ((es.map Elem.text).toFinset \ S).card)), h') ∧
      v'.Sound (S ∪ (es.map Elem.text).toFinset) := by
  induction es generalizing v S n h with
  | nil => exact ⟨v, h, by simp [Vire.addElems], by simpa using hv⟩
  | cons e es ih =>
    obtain ⟨he, hes⟩ := forall_mem_cons.mp hes
    obtain ⟨v1, h1, hadd, hv1⟩ := hv.setTypeAdd (he.object h) (e.object h).2
    obtain ⟨v', h', hrun, hv'⟩ := ih hv1 hes (if e.text ∈ S then n else n + 1)
      (e.release (e.object h).1 h1)
    refine ⟨v', h', ?_, ?_⟩
    · rw [Vire.addElems]
      simp only [hadd, bind_some]
      rw [map_cons, card_cons_sdiff]
      by_cases hmem : e.text ∈ S
      · simp only [hmem, if_true, not_true_eq_false, decide_false, Bool.false_eq_true,
          if_false] at hrun ⊢
        rw [hrun, Nat.zero_add]
      · simp only [hmem, if_false, not_false_eq_true, decide_true, if_true] at hrun ⊢
        rw [int32_int32_add, hrun, Nat.cast_add, Nat.cast_one, Int.add_assoc]
    · rwa [map_cons, toFinset_cons, Finset.union_insert, ← Finset.insert_union]

theorem SetVal.Sound.removeElems (hv : v.Sound S) (hes : ∀ e ∈ es, e.Proper) (n : ℤ) (h : Heap) :
    ∃ v' h', Vire.removeElems es v (int32 n) h =
        ((v', int32 (n - ((es.map Elem.text).toFinset ∩ S).card)), h') ∧
      v'.Sound (S \ (es.map Elem.text).toFinset) := by
  induction es generalizing v S n h with
  | nil => exact ⟨v, h, by simp [Vire.removeElems], by simpa using hv⟩
  | cons e es ih =>
    obtain ⟨he, hes⟩ := forall_mem_cons.mp hes
    obtain ⟨hflag, hv1⟩ := hv.setTypeRemove (he.object h) (e.object h).2
    obtain ⟨v', h', hrun, hv'⟩ := ih hv1 hes (if e.text ∈ S then n - 1 else n)
      (e.release (e.object h).1 (Vire.setTypeRemove v (e.object h).1 (e.object h).2).2.2)
    refine ⟨v', h', ?_, ?_⟩
    · rw [Vire.removeElems]
      simp only [hflag]
      rw [map_cons, card_cons_inter]
      by_cases hmem : e.text ∈ S
      · simp only [hmem, if_true, decide_true] at hrun ⊢
        rw [Int.sub_eq_add_neg, int32_int32_add, ← Int.sub_eq_add_neg, hrun,
          Nat.cast_add, Nat.cast_one, Int.sub_sub]
      · simp only [hmem, if_false, decide_false, Bool.false_eq_true] at hrun ⊢
        rw [hrun, Nat.zero_add]
    · rwa [map_cons, toFinset_cons, Finset.sdiff_insert, ← Finset.erase_sdiff_comm]

theorem SetVal.Is.sinterTest (hv : v.Is S) (he : e.Proper) (h : Heap) :
    (Vire.sinterTest v e h).1 = decide (e.text ∈ S) := by
  cases e with
  | num i =>
    cases v with
    | intset is =>
      have hi : string2ll (ll2string i) = some i := string2ll_ll2string he.1 he.2
      refine Bool.eq_iff_iff.mpr (Iff.trans ?_ decide_eq_true_iff.symm)
      exact (intsetFind_iff hv.ok i).trans (hv.mem_num hi)
    | ht d => exact hv.setTypeIsMember (Elem.Proper.object he h)
  | obj o =>
    cases v with
    | intset is =>
      rcases henc :
        o.enc with t | t | i | _ <;> simp only [Vire.sinterTest, henc, hv.setTypeIsMember he]
      · rfl
      · rfl
      · -- the integer of the object is that of its text
        have hi := he.representable
        rw [isObjectRepresentableAsLongLong, henc] at hi
        have hfind : intsetFind is i = decide (Text.text o ∈ S) :=
          Bool.eq_iff_iff.mpr ((intsetFind_iff hv.ok i).trans
            ((hv.mem_num hi.symm).trans decide_eq_true_iff.symm))
        rw [hfind]
        split_ifs with hmem
        · rfl
        · exact (Bool.eq_false_iff.mpr hmem).symm
      · rfl
    | ht d => exact hv.setTypeIsMember he

namespace Handler

def Found.ofValue : Option Value → Found SetVal
  | none => .missing
  | some v =>
    match v.set? with
    | none => .wrongtype
    | some w => .found w

def Found.map {α β : Type} (f : α → β) : Found α → Found β
  | .missing => .missing
  | .wrongtype => .wrongtype
  | .found a => .found (f a)

def Found.replies {α : Type} : Found α → List Reply
  | .wrongtype => [wrongtypeerr]
  | _ => []

variable {w : SetVal}

omit [Host] in
theorem Found.ofValue_eq_found {o : Option Value} :
    Found.ofValue o = .found w ↔ o = some (.set w) := by
  cases o with
  | none => simp [Found.ofValue]
  | some v => cases v <;> simp [Found.ofValue, Value.set?]

/-- Other threads change the server as `Rely` says, and `look n key` is what is at a key when the
`n`-th lock is taken.  `Inv` is what is known of the server in between. -/
structure Sees (dictid : ℕ) (Rely : ℕ → Server → Server → Prop) (Inv : Server → Prop)
    (look : ℕ → Sds → Option Value) : Prop where
  lock : ∀ {n s s'}, Inv s → Rely n s s' → Inv s' ∧
    ∀ key, Vire.lookupKeyRead (s'.dbs (home dictid key)) key s'.now = look n key
  heap : ∀ {s} (h : Heap), Inv s → Inv { s with heap := h }

/-- The handler has sent `out`, and the server is as `Inv` says. -/
structure Reached (dictid : ℕ) (Inv : Server → Prop) (out : List Reply) (c : Client) (s : Server) :
    Prop where
  dictid : c.dictid = dictid
  out : c.out = out
  inv : Inv s

def Sound (look : ℕ → Sds → Option Value) (keys : List Sds) : Prop :=
  ∀ n, ∀ key ∈ keys, ∀ w, look n key = some (.set w) → w.Ok ∧ w.Proper

variable {dictid : ℕ} {Rely : ℕ → Server → Server → Prop} {Inv : Server → Prop}
  {look : ℕ → Sds → Option Value} {n : ℕ} {c : Client} {s : Server} {key : Sds} {keys : List Sds}
  {out : List Reply} {α : Type}

omit [Host] in
theorem Reached.silent (h : Reached dictid Inv (out ++ []) c s) : Reached dictid Inv out c s :=
  append_nil out ▸ h

theorem Reached.heap (h : Reached dictid Inv out c s) (hsees : Sees dictid Rely Inv look)
    (heap : Heap) :
    Reached dictid Inv out c { s with heap := heap } :=
  { h with inv := hsees.heap heap h.inv }

omit [Host] in
theorem wpAmong_inMemory {f : Heap → α × Heap} {Q : α → ℕ → Client → Server → Prop} :
    (inMemory f).WpAmong Rely n c s Q ↔ Q (f s.heap).1 n c { s with heap := (f s.heap).2 } :=
      Iff.rfl

omit [Host] in
theorem wpAmong_build {f : Heap → Option (α × Heap)} {a : α} {h : Heap}
    (hf : f s.heap = some (a, h))
    {Q : α → ℕ → Client → Server → Prop} (hQ : Q a n c { s with heap := h }) :
    (build f).WpAmong Rely n c s Q := by
  rw [build, wpAmong_bind, wpAmong_inMemory, hf]
  exact hQ

theorem Sound.found (hsound : Sound look keys) (hkey : key ∈ keys)
    (hw : Found.ofValue (look n key) = .found w) : w.Sound w.texts.toFinset := by
  obtain ⟨hok, hp⟩ := hsound n key hkey w (Found.ofValue_eq_found.mp hw)
  exact ⟨⟨hok, fun s => List.mem_toFinset.symm⟩, hp⟩

/-- The smallest of the sets.  The `j`-th key is looked at under the `j`-th lock. -/
def seenSizes (look : ℕ → Sds → Option Value) : List Sds → ℕ → Option ℕ → ℕ → Found ℕ
  | [], _, _, idx => .found idx
  | key :: keys, j, len, idx =>
    match Found.ofValue (look j key) with
    | .missing => .missing
    | .wrongtype => .wrongtype
    | .found w =>
      if len.all fun len => setTypeSize w <
        len then seenSizes look keys (j + 1) (some (setTypeSize w)) j
      else seenSizes look keys (j + 1) len idx

/-- Whether all sets have `x`, and the number of locks taken by then. -/
def seenIn (look : ℕ → Sds → Option Value) (x : Sds) : List Sds → ℕ → Found Bool × ℕ
  | [], n => (.found true, n)
  | key :: keys, n =>
    match Found.ofValue (look n key) with
    | .missing => (.missing, n + 1)
    | .wrongtype => (.wrongtype, n + 1)
    | .found w => if x ∈ w.texts then seenIn look x keys (n + 1) else (.found false, n + 1)

/-- The members that all sets have, or those there are before a key is missing (`false`). -/
def seenMembers (look : ℕ → Sds → Option Value) (others : List Sds) :
    List Sds → ℕ → Option (Bool × List Sds)
  | [], _ => some (true, [])
  | x :: xs, n =>
    match seenIn look x others n with
    | (.missing, _) => some (false, [])
    | (.wrongtype, _) => none
    | (.found false, n) => seenMembers look others xs n
    | (.found true, n) => (seenMembers look others xs n).map fun r => (r.1, x :: r.2)

omit [Host] in
theorem seenSizes_lt {len : Option ℕ} {idx i : ℕ} (h : seenSizes look keys n len idx = .found i)
    (hidx : idx < n ∨ idx = n ∧ keys ≠ []) : i < n + keys.length := by
  induction keys generalizing n len idx with
  | nil =>
    rw [seenSizes, Found.found.injEq] at h
    rcases hidx with hlt | ⟨-, hne⟩
    · rwa [← h]
    · exact absurd rfl hne
  | cons key keys ih =>
    rw [seenSizes] at h
    rw [length_cons, Nat.add_comm keys.length, ← Nat.add_assoc]
    split at h
    · cases h
    · cases h
    · split_ifs at h
      · exact ih h (.inl (Nat.lt_succ_self n))
      · exact ih h (.inl (by omega))

omit [Host] in
theorem seenMembers_sublist {others xs ys : List Sds} {b : Bool}
    (h : seenMembers look others xs n = some (b, ys)) : ys.Sublist xs := by
  induction xs generalizing n b ys with
  | nil =>
    rw [seenMembers, some.injEq, Prod.mk.injEq] at h
    rw [← h.2]
  | cons x xs ih =>
    rw [seenMembers] at h
    split at h
    · rw [some.injEq, Prod.mk.injEq] at h
      rw [← h.2]
      exact nil_sublist _
    · cases h
    · exact (ih h).cons x
    · obtain ⟨⟨b', r⟩, hr, heq⟩ := map_eq_some_iff.mp h
      rw [Prod.mk.injEq] at heq
      rw [← heq.2]
      exact (ih hr).cons_cons x

section

variable (hsees : Sees dictid Rely Inv look) (hat : Reached dictid Inv out c s)

include hsees hat

theorem wpAmong_fetchSet {Q : Found SetVal → ℕ → Client → Server → Prop}
    (hQ : ∀ c' s', Reached dictid Inv (out ++ (Found.ofValue (look n key)).replies) c' s' →
      Rely n s s' → Q (Found.ofValue (look n key)) (n + 1) c' s') :
    (fetchSet key).WpAmong Rely n c s Q := by
  rw [fetchSet, wpAmong_bind, fetchInternalDbByKey, wpAmong_modifyP, wpAmong_bind, lockDbRead,
    wpAmong_lockP]
  intro s' hs'
  obtain ⟨hinv', hlook⟩ := hsees.lock hat.inv hs'
  have hsilent : c.out = out ++ [] := hat.out.trans (append_nil _).symm
  rw [wpAmong_bind, lookupKeyRead, reading, wpAmong_actP]
  simp only [Machine.perform, Function.update_eq_self, hat.dictid, hlook key]
  cases hv : look n key with
  | none =>
    rw [hv] at hQ
    exact hQ _ s' ⟨rfl, hsilent, hinv'⟩ hs'
  | some v =>
    rw [hv] at hQ
    simp only [Found.ofValue] at hQ ⊢
    cases hset : v.set? with
    | none =>
      rw [hset] at hQ
      exact hQ _ s' ⟨rfl, congrArg (· ++ _) hat.out, hinv'⟩ hs'
    | some w =>
      rw [hset] at hQ
      exact hQ _ s' ⟨rfl, hsilent, hinv'⟩ hs'

theorem sinterSizes_wp (j : ℕ) (len : Option ℕ) (idx : ℕ) {Q : Found ℕ → ℕ → Client → Server → Prop}
    (hQ : ∀ n' c' s', (∀ i, seenSizes look keys j len idx = .found i → n' = j + keys.length) →
      Reached dictid Inv (out ++ (seenSizes look keys j len idx).replies) c' s' →
      Q (seenSizes look keys j len idx) n' c' s') :
    (sinterSizes keys j len idx).WpAmong Rely j c s Q := by
  induction keys generalizing j len idx c s with
  | nil => exact hQ j c s (fun _ _ => rfl) ((append_nil out).symm ▸ hat)
  | cons key keys ih =>
    rw [sinterSizes, wpAmong_bind]
    refine wpAmong_fetchSet hsees hat fun c1 s1 hat1 _ => ?_
    rw [seenSizes] at hQ
    cases hfound : Found.ofValue (look j key) with
    | missing =>
      rw [hfound] at hQ hat1
      exact hQ _ c1 s1 (fun i hi => by cases hi) hat1
    | wrongtype =>
      rw [hfound] at hQ hat1
      exact hQ _ c1 s1 (fun i hi => by cases hi) hat1
    | found w =>
      rw [hfound] at hQ hat1
      dsimp only at hQ ⊢
      have hlen : ∀ n', n' = j + 1 + keys.length → n' = j + (key :: keys).length := fun n' h => by
        rw [h, length_cons, Nat.add_assoc, Nat.add_comm 1]
      split_ifs at hQ ⊢
      all_goals
        refine ih hat1.silent _ _ _ fun n' c' s' hn => ?_
        exact hQ n' c' s' fun i hi => hlen n' (hn i hi)

theorem sinterCheck_wp (hsound : Sound look keys) (he : e.Proper)
    {Q : Found Bool → ℕ → Client → Server → Prop}
    (hQ : ∀ c' s', Reached dictid Inv (out ++ (seenIn look e.text keys n).1.replies) c' s' →
      Q (seenIn look e.text keys n).1 (seenIn look e.text keys n).2 c' s') :
    (sinterCheck e keys).WpAmong Rely n c s Q := by
  induction keys generalizing n c s with
  | nil => exact hQ c s ((append_nil out).symm ▸ hat)
  | cons key keys ih =>
    rw [sinterCheck, wpAmong_bind]
    refine wpAmong_fetchSet hsees hat fun c1 s1 hat1 _ => ?_
    rw [seenIn] at hQ
    cases hfound : Found.ofValue (look n key) with
    | missing =>
      rw [hfound] at hQ hat1
      exact hQ c1 s1 hat1
    | wrongtype =>
      rw [hfound] at hQ hat1
      exact hQ c1 s1 hat1
    | found w =>
      rw [hfound] at hQ hat1
      dsimp only at hQ ⊢
      have htest := (hsound.found mem_cons_self hfound).toIs.sinterTest he s1.heap
      rw [wpAmong_bind, wpAmong_inMemory, htest, wpAmong_bind, unlockDb, wpAmong_unlockP]
      simp only [List.mem_toFinset, decide_eq_true_eq]
      have hat2 := hat1.heap hsees (Vire.sinterTest w e s1.heap).2
      split_ifs at hQ ⊢
      · have hkeys : Sound look keys := fun n k hk => hsound n k (mem_cons_of_mem _ hk)
        exact ih hat2.silent hkeys hQ
      · exact hQ c1 _ hat2

theorem sinterMembers_wp {others : List Sds} (hsound : Sound look others) (hes : ∀ e ∈ es, e.Proper)
    (hv : v.Sound S) (card : ℕ) {Q : Option (Option SetVal × ℕ) → ℕ → Client → Server → Prop}
    (hnone : ∀ n' c' s', seenMembers look others (es.map Elem.text) n = none →
      Reached dictid Inv (out ++ [wrongtypeerr]) c' s' → Q none n' c' s')
    (hgone : ∀ xs n' c' s', seenMembers look others (es.map Elem.text) n = some (false, xs) →
      Reached dictid Inv out c' s' → Q (some (none, card + xs.length)) n' c' s')
    (hall : ∀ xs v' n' c' s', seenMembers look others (es.map Elem.text) n = some (true, xs) →
      v'.Sound (S ∪ xs.toFinset) → Reached dictid Inv out c' s' →
      Q (some (some v', card + xs.length)) n' c' s') :
    (sinterMembers others es v card).WpAmong Rely n c s Q := by
  induction es generalizing n c s v S card with
  | nil => exact hall [] v n c s rfl (by simpa using hv) hat
  | cons e es ih =>
    obtain ⟨he, hes⟩ := forall_mem_cons.mp hes
    rw [sinterMembers, wpAmong_bind]
    refine sinterCheck_wp hsees hat hsound he fun c1 s1 hat1 => ?_
    rw [map_cons, seenMembers] at hnone hgone hall
    rcases hseen :
      seenIn look e.text others n with ⟨_ | _ | _ | _, n1⟩ <;> rw [hseen] at hnone hgone hall hat1
    · -- a key is gone
      exact hgone [] n1 c1 _ rfl (hat1.silent.heap hsees _)
    · exact hnone n1 c1 _ rfl (hat1.heap hsees _)
    · exact ih hat1.silent hes hv card hnone hgone hall
    · obtain ⟨v1, h1, hadd, hv1⟩ := hv.addElems (forall_mem_singleton.mpr he) 0 s1.heap
      dsimp only at hnone hgone hall ⊢
      rw [wpAmong_bind]
      refine wpAmong_build hadd (ih (hat1.silent.heap hsees _) hes hv1 (card + 1) ?_ ?_ ?_)
      · intro n' c' s' hxs
        exact hnone n' c' s' (by rw [hxs]; rfl)
      · intro xs n' c' s' hxs
        rw [Nat.add_assoc, Nat.add_comm 1, ← length_cons]
        exact hgone (e.text :: xs) n' c' s' (by rw [hxs]; rfl)
      · intro xs v' n' c' s' hxs hv'
        rw [Nat.add_assoc, Nat.add_comm 1, ← length_cons]
        refine hall (e.text :: xs) v' n' c' s' (by rw [hxs]; rfl) ?_
        rwa [toFinset_cons, ← Finset.singleton_union, ← Finset.union_assoc]

end

def copyOf (w : SetVal) (h : Heap) : SetVal :=
  ((addElems (setTypeElems w) createIntsetObject 0 h).map fun r => r.1.1).getD createIntsetObject

theorem addElems_copyOf (hw : w.Sound S) (h : Heap) :
    ∃ k h', addElems (setTypeElems w) createIntsetObject 0 h = some ((copyOf w h, k), h') ∧
      (copyOf w h).Sound S := by
  obtain ⟨v', h', hadd, hv'⟩ := createIntsetObject_sound.addElems hw.elems 0 h
  have hadd : addElems (setTypeElems w) createIntsetObject 0 h = _ := hadd
  have hcopy : copyOf w h = v' := by rw [copyOf, hadd]; rfl
  have hS : ((setTypeElems w).map Elem.text).toFinset = S := hw.toFinset_eq
  rw [Finset.empty_union, hS] at hv'
  exact ⟨_, h', by rw [hadd, hcopy], hcopy ▸ hv'⟩

inductive SinterEnd
  /-- A key is missing at the first look. -/
  | missing
  | wrongtype
  /-- A key is missing later, with so many members found. -/
  | gone (cardinality : ℕ)
  | all (members : List Sds)

/-- How SINTER ends.  `heap` is memory at the time the smallest set is copied. -/
def sinterSeen (look : ℕ → Sds → Option Value) (keys : List Sds) (heap : Heap) : SinterEnd :=
  match seenSizes look keys 0 none 0 with
  | .missing => .missing
  | .wrongtype => .wrongtype
  | .found idx =>
    match Found.ofValue (look keys.length (keys.getD idx [])) with
    | .missing => .gone 0
    | .wrongtype => .wrongtype
    | .found w =>
      match seenMembers look (keys.eraseIdx idx) (copyOf w heap).texts (keys.length + 1) with
      | none => .wrongtype
      | some (false, xs) => .gone xs.length
      | some (true, xs) => .all xs

section

variable (hsees : Sees dictid Rely Inv look) (hat : Reached dictid Inv out c s)

include hsees hat

theorem copySet_wp (hsound : Sound look keys) (hkey : key ∈ keys)
    {Q : Found SetVal → ℕ → Client → Server → Prop}
    (hQ : ∀ c' s1 s', Reached dictid Inv (out ++ (Found.ofValue (look n key)).replies) c' s' →
      Rely n s s1 → Q ((Found.ofValue (look n key)).map (copyOf · s1.heap)) (n + 1) c' s') :
    (copySet key).WpAmong Rely n c s Q := by
  rw [copySet, wpAmong_bind]
  refine wpAmong_fetchSet hsees hat fun c1 s1 hat1 hrely => ?_
  cases hfound : Found.ofValue (look n key) with
  | missing =>
    rw [hfound] at hQ hat1
    exact hQ c1 s1 s1 hat1 hrely
  | wrongtype =>
    rw [hfound] at hQ hat1
    exact hQ c1 s1 s1 hat1 hrely
  | found w =>
    rw [hfound] at hQ hat1
    obtain ⟨k, h', hcopy, -⟩ := addElems_copyOf (hsound.found hkey hfound) s1.heap
    rw [wpAmong_bind]
    exact wpAmong_build hcopy (hQ c1 s1 _ (hat1.heap hsees _) hrely)

theorem sinterGenericCommand_wp (hsound : Sound look keys) (hne : keys ≠ []) {dstkey : Option Sds}
    {P : Heap → Prop} (h0 : Heap) (h₀P : P h0) (hP : ∀ s0 s1, Rely keys.length s0 s1 → P s1.heap)
    {Q : Unit → ℕ → Client → Server → Prop}
    (hmissing : ∀ heap n' c' s', P heap → sinterSeen look keys heap = .missing →
      Reached dictid Inv out c' s' → (sinterGenericCommand.missing dstkey).WpAmong Rely n' c' s' Q)
    (hwrong : ∀ heap n' c' s', P heap → sinterSeen look keys heap = .wrongtype →
      Reached dictid Inv (out ++ [wrongtypeerr]) c' s' → Q () n' c' s')
    (hgone : ∀ heap k n' c' s', P heap → sinterSeen look keys heap = .gone k →
      Reached dictid Inv out c' s' → (sinterDone dstkey none k).WpAmong Rely n' c' s' Q)
    (hall : ∀ heap xs v n' c' s', P heap → sinterSeen look keys heap = .all xs → xs.Nodup →
      v.Sound xs.toFinset → Reached dictid Inv out c' s' →
      (sinterDone dstkey (some v) xs.length).WpAmong Rely n' c' s' Q) :
    (sinterGenericCommand keys dstkey).WpAmong Rely 0 c s Q := by
  rw [sinterGenericCommand, wpAmong_bind]
  refine sinterSizes_wp hsees hat 0 none 0 fun n1 c1 s1 hn hat1 => ?_
  cases hsizes : seenSizes look keys 0 none 0 with
  | missing =>
    rw [hsizes] at hat1
    exact hmissing h0 n1 c1 s1 h₀P (by rw [sinterSeen, hsizes]) hat1.silent
  | wrongtype =>
    rw [hsizes] at hat1
    exact hwrong h0 n1 c1 s1 h₀P (by rw [sinterSeen, hsizes]) hat1
  | found idx =>
    rw [hsizes] at hat1
    have hn : n1 = keys.length := (hn idx hsizes).trans (Nat.zero_add _)
    subst hn
    have hkey : keys.getD idx [] ∈ keys := by
      have hlt := seenSizes_lt hsizes (.inr ⟨rfl, hne⟩)
      rw [Nat.zero_add] at hlt
      rw [getD_eq_getElem?_getD, getElem?_eq_getElem hlt, getD_some]
      exact getElem_mem hlt
    rw [wpAmong_bind]
    refine copySet_wp hsees hat1.silent hsound hkey fun c2 s2 s3 hat2 hrely => ?_
    have hheap := hP s1 s2 hrely
    cases hfound : Found.ofValue (look keys.length (keys.getD idx [])) with
    | missing =>
      rw [hfound] at hat2
      refine hgone s2.heap 0 _ c2 s3 hheap ?_ hat2.silent
      rw [sinterSeen, hsizes]
      simp only [hfound]
    | wrongtype =>
      rw [hfound] at hat2
      refine hwrong s2.heap _ c2 s3 hheap ?_ hat2
      rw [sinterSeen, hsizes]
      simp only [hfound]
    | found w =>
      rw [hfound] at hat2
      obtain ⟨-, -, -, hcopy⟩ := addElems_copyOf (hsound.found hkey hfound) s2.heap
      have hseen : sinterSeen look keys s2.heap =
          match seenMembers look (keys.eraseIdx idx) (copyOf w s2.heap).texts (keys.length + 1) with
          | none => .wrongtype
          | some (false, xs) => .gone xs.length
          | some (true, xs) => .all xs := by
        rw [sinterSeen, hsizes]
        simp only [hfound]
      dsimp only [Found.map]
      rw [wpAmong_bind]
      have hothers : Sound look (keys.eraseIdx idx) :=
        fun n k hk => hsound n k (mem_of_mem_eraseIdx hk)
      refine sinterMembers_wp hsees hat2.silent hothers hcopy.elems
        createIntsetObject_sound 0 ?_ ?_ ?_
      · intro n' c' s' hxs hat'
        rw [SetVal.texts, hxs] at hseen
        exact hwrong _ n' c' _ hheap hseen (hat'.heap hsees _)
      · intro xs n' c' s' hxs hat'
        rw [SetVal.texts, hxs] at hseen
        rw [Nat.zero_add]
        exact hgone _ _ n' c' _ hheap hseen (hat'.heap hsees _)
      · intro xs v' n' c' s' hxs hv' hat'
        rw [SetVal.texts, hxs] at hseen
        rw [Nat.zero_add]
        exact hall _ xs v' n' c' _ hheap hseen ((seenMembers_sublist hxs).nodup hcopy.ok.nodup) hv'
          (hat'.heap hsees _)

end

end Handler

end Vire
