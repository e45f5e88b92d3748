import Mathlib.Data.List.GetD
import Vire.Keyspace.Handler.String
import Vire.Keyspace.Proofs.Handler

/-!
# Strings that are changed

A key holds a byte string, in any encoding and with or without a deadline.  SETRANGE and APPEND are
compared with what they should do to the bytes.
-/

namespace Vire

open List Option Logic Prog

inductive StrIs : Option Value → Option Sds → Prop
  | missing : StrIs none none
  | holds {o : Robj} {x : Sds} (h : o.Denotes x) : StrIs (some (.str o)) (some x)

theorem createRawStringObject_denotes (x : Sds) (h : Heap) :
    (createRawStringObject x h).1.Denotes x := rfl

def stringLimit : ℕ := 512 * 1024 * 1024

/-- The bytes of `v` in the place of those from `offset` on, with zeros in between where there are
none. -/
def overwritten (x : Sds) (offset : ℕ) (v : Sds) : Sds :=
  (range (max x.length (offset + v.length))).map fun i =>
    if offset ≤ i ∧ i < offset + v.length then v.getD (i - offset) 0 else x.getD i 0

def setrangeExact (x : Option Sds) (offset : ℕ) (v : Sds) : Reply × Option Sds :=
  if v = [] then (.int (x.getD []).length, x)
  else if stringLimit < offset + v.length then (Handler.stringTooLong, x)
  else
    let y := overwritten (x.getD []) offset v
    (.int y.length, some y)

def appendExact (x : Option Sds) (v : Sds) : Reply × Option Sds :=
  let y := x.getD [] ++ v
  if stringLimit < y.length then (Handler.stringTooLong, x) else (.int y.length, some y)

theorem length_sdsgrowzero (x : Sds) (len : ℕ) :
    (Handler.sdsgrowzero x len).length = max x.length len := by
  rw [Handler.sdsgrowzero, length_append, length_replicate]
  omega

theorem getElem?_sdsgrowzero (x : Sds) (len : ℕ) {i : ℕ} (hi : i < max x.length len) :
    (Handler.sdsgrowzero x len)[i]? = some (x.getD i 0) := by
  rw [Handler.sdsgrowzero, getD_eq_getElem?_getD]
  by_cases hx : i < x.length
  · rw [getElem?_append_left hx, getElem?_eq_getElem hx]
    rfl
  · rw [getElem?_append_right (by omega), getElem?_replicate, if_pos (by omega),
      getElem?_eq_none (by omega)]
    rfl

theorem setrange_eq (x : Sds) (offset : ℕ) (v : Sds) :
    Handler.setrange x offset v = overwritten x offset v := by
  have hlen := length_sdsgrowzero x (offset + v.length)
  have htake : ((Handler.sdsgrowzero x (offset + v.length)).take offset).length = offset := by
    rw [length_take, hlen]
    omega
  have hmid : ((Handler.sdsgrowzero x (offset + v.length)).take offset ++ v).length =
      offset + v.length := by
    rw [length_append, htake]
  refine ext_getElem? fun i => ?_
  rw [Handler.setrange]
  by_cases hi : i < max x.length (offset + v.length)
  · have hright : (overwritten x offset v)[i]? =
        some (if offset ≤ i ∧ i < offset + v.length then v.getD (i - offset) 0
          else x.getD i 0) := by
      rw [overwritten, getElem?_map, getElem?_range hi]
      rfl
    rw [hright]
    rcases Nat.lt_or_ge i offset with hlo | hlo
    · rw [if_neg (by omega), append_assoc, getElem?_append_left (by omega),
        getElem?_take_of_lt hlo, getElem?_sdsgrowzero x _ hi]
    · rcases Nat.lt_or_ge i (offset + v.length) with hhi | hhi
      · rw [if_pos ⟨hlo, hhi⟩, getElem?_append_left (by omega),
          getElem?_append_right (by omega), htake,
          getElem?_eq_getElem (by omega), getD_eq_getElem _ _ (by omega)]
      · rw [if_neg (by omega), getElem?_append_right (by omega), hmid, getElem?_drop,
          Nat.add_sub_cancel' hhi, getElem?_sdsgrowzero x _ hi]
  · rw [getElem?_eq_none, getElem?_eq_none]
    · rw [overwritten, length_map, length_range]
      omega
    · rw [length_append, hmid, length_drop, hlen]
      omega

theorem overwritten_replicate {n offset : ℕ} {v : Sds} (hn : n ≤ offset + v.length) :
    overwritten (replicate n 0) offset v = overwritten [] offset v := by
  have hzero : ∀ i, (replicate n (0 : UInt8)).getD i 0 = 0 := fun i => by
    rw [getD_eq_getElem?_getD, getElem?_replicate]
    split_ifs <;> rfl
  have hlen : max n (offset + v.length) = max 0 (offset + v.length) := by omega
  simp only [overwritten, length_replicate, hlen, hzero, length_nil, getD_nil]

theorem length_overwritten (x : Sds) (offset : ℕ) (v : Sds) :
    (overwritten x offset v).length = max x.length (offset + v.length) := by
  rw [overwritten, length_map, length_range]

section

variable [Host]

/-- `dbs'` is `dbs` but for the key, which has these bytes and this deadline. -/
def StrPut (dbs : ℕ → Db Value) (i : ℕ) (key : Sds) (x : Option Sds) (t : Option ℤ)
    (dbs' : ℕ → Db Value) : Prop :=
  ∃ v, KeyPut dbs i key v t dbs' ∧ StrIs v x

/-- The key has these bytes and this deadline when a command that writes comes at `now`. -/
structure StrFound (dbs : ℕ → Db Value) (i : ℕ) (key : Sds) (now : ℕ) (x : Option Sds)
    (t : Option ℤ) :
    Prop where
  ok : (dbs i).Ok
  value : StrIs ((dbs i).found key now).1 x
  deadline : ((dbs i).found key now).2 = t

variable {key : Sds}

theorem KeyIs.strFound {dbs : ℕ → Db Value} {i : ℕ} {o : Robj} {x : Sds}
    (h : KeyIs dbs i key (some (.str o))) (ho : o.Denotes x) (now : ℕ) :
    StrFound dbs i key now (some x) none where
  ok := h.ok
  value := by
    rw [h.found]
    exact .holds ho
  deadline := by rw [h.found]

/-- After the replies `out` comes `r.1`, and the key has the bytes `r.2`. -/
def StrSent (out : List Reply) (dbs : ℕ → Db Value) (i : ℕ) (key : Sds) (t : Option ℤ)
    (r : Reply × Option Sds) (out' : List Reply) (dbs' : ℕ → Db Value) : Prop :=
  out' = out ++ [r.1] ∧ StrPut dbs i key r.2 t dbs'

namespace Handler

variable {c : Client} {s : Server} {key : Sds} {dbs : ℕ → Db Value} {t : Option ℤ} {o : Robj}
  {x y : Sds}

theorem wp_lookupKeyWrite_str {x : Option Sds} {Q : Post (Option Value)}
    (h : StrFound s.dbs c.db key s.now x t)
    (hQ : ∀ v s', KeyPut s.dbs c.db key v t s'.dbs → StrIs v x → Q v c s') :
    (lookupKeyWrite key).Wp c s Q :=
  wp_lookupKeyWrite_found h.ok fun s' h' => hQ _ s' (h.deadline ▸ h') h.value

variable {Q : Post Unit}

theorem wp_readKey_str {argv : List Sds} {x : Option Sds} {missing : Reply} {body : Robj → Cmd Unit}
    (hargs : Args c.argv argv) (hkey : argv[1]? = some key)
    (h : StrIs (Vire.lookupKeyRead (s.dbs (home c.dictid key)) key s.now) x)
    (hnone : x = none → Q () { c.on key with out := c.out ++ [missing] } s)
    (hsome : ∀ y o, x = some y → o.Denotes y → (body o).Wp (c.on key) s Q) :
    (readKey Value.str? missing body).Wp c s Q := by
  refine wp_lockKey hargs hkey ?_
  rw [wp_bind, wp_lookupKeyRead_eq]
  generalize Vire.lookupKeyRead (s.dbs (home c.dictid key)) key s.now = v at h
  cases h with
  | missing => exact hnone rfl
  | holds ho => exact hsome _ _ rfl ho

section

variable (h : KeyPut dbs c.db key (some (.str o)) t s.dbs)

include h

theorem wp_setString {Q : Post Robj} (y : Sds)
    (hQ : ∀ o' s', KeyPut dbs c.db key (some (.str o')) t s'.dbs → o'.Denotes y → Q o' c s') :
    (setString key o y).Wp c s Q := by
  unfold setString
  refine wp_update_put h rfl fun s' h' => hQ _ s' h' ?_
  rfl

theorem wp_dbUnshareStringValue {Q : Post Robj} (ho : o.Denotes x)
    (hQ : ∀ o' s', KeyPut dbs c.db key (some (.str o')) t s'.dbs → o'.Denotes x → Q o' c s') :
    (dbUnshareStringValue key o).Wp c s Q := by
  have hcopy : (do return strOf (← dbOverwrite key (rawValue (text o))) : Cmd Robj).Wp c s Q := by
    rw [wp_bind]
    refine wp_dbOverwrite_put h fun s' h' => hQ _ s' h' ?_
    rw [ho.text_eq]
    rfl
  unfold dbUnshareStringValue
  split
  · exact hQ o s h ho
  · exact hcopy

end

section

omit [Host]

theorem wp_allocString {len : ℕ} (h : len < 2 ^ 63) :
    (allocString len).Wp c s Q ↔ Q () c s := by
  rw [allocString, wp_assert, decide_eq_true_eq]
  exact and_iff_right h

theorem fails_allocString {len : ℕ} (h : ¬len < 2 ^ 63) {α : Type} (f : Unit → Cmd α) :
    (allocString len >>= f).Fails c s := by
  rw [allocString, decide_eq_false h]
  exact trivial

theorem checkStringLength_eq (size : ℤ) : checkStringLength size = decide (size ≤ stringLimit) := by
  rw [checkStringLength]
  rfl

theorem lt_of_le_limit {n : ℕ} (h : n ≤ stringLimit) : n < 2 ^ 63 := by
  unfold stringLimit at h
  omega

theorem wrap_of_le_limit {n : ℕ} (h : n ≤ stringLimit) : wrap n = n :=
  wrap_eq_self_iff.mpr
    ⟨by unfold llongMin; omega, by unfold stringLimit at h; unfold llongMax; omega⟩

end

section

variable {argv : List Sds} {name a v : Sds} {x : Option Sds} {offset : ℕ}

def LengthSeen (total : ℕ) : Prop := total ≤ stringLimit ∨ (stringLimit : ℤ) < wrap total

omit [Host] in
theorem wp_checkStringLength {total : ℕ} {long short : Cmd Unit} (hseen : LengthSeen total)
    (hlong : stringLimit < total → long.Wp c s Q) (hshort : total ≤ stringLimit → short.Wp c s Q) :
    (if !checkStringLength (wrap total) then long else short).Wp c s Q := by
  rcases hseen with hle | hlt
  · rw [checkStringLength_eq, wrap_of_le_limit hle, decide_eq_true (Int.ofNat_le.mpr hle)]
    exact hshort hle
  · rw [checkStringLength_eq, decide_eq_false (not_le.mpr hlt)]
    refine hlong (not_le.mp fun hle => ?_)
    rw [wrap_of_le_limit hle] at hlt
    omega

omit [Host] in
theorem fails_checkStringLength {total : ℕ} {long short : Cmd Unit} (hseen : ¬LengthSeen total)
    (hshort : ¬total < 2 ^ 63 → short.Fails c s) :
    (if !checkStringLength (wrap total) then long else short).Fails c s := by
  obtain ⟨hlong, hwrap⟩ := not_or.mp hseen
  rw [checkStringLength_eq, decide_eq_true (not_lt.mp hwrap)]
  refine hshort fun hlt => ?_
  have hself : wrap total = total :=
    wrap_eq_self_iff.mpr ⟨by unfold llongMin; omega, by unfold llongMax; omega⟩
  omega

theorem setrangeCommand.finish_wp (h : KeyPut dbs c.db key (some (.str o)) t s.dbs)
    (ho : o.Denotes y) :
    (finish key v offset o).Ends c s (StrSent c.out dbs c.db key t
      (.int (overwritten y offset v).length, some (overwritten y offset v))) := by
  rw [Cmd.Ends, finish, wp_bind]
  refine wp_setString h _ fun o' s' h' ho' => ?_
  rw [ho.text_eq, Int.toNat_natCast, setrange_eq] at ho'
  rw [wp_replyUnlock, ho'.text_eq]
  exact ⟨rfl, _, h', .holds ho'⟩

theorem setrangeCommand.create_wp (h : KeyPut dbs c.db key none t s.dbs)
    (hseen : v = [] ∨ LengthSeen (offset + v.length)) :
    (create key v offset).Ends c s
      (StrSent c.out dbs c.db key t (setrangeExact none offset v)) := by
  unfold create setrangeExact
  by_cases hv : v = []
  · rw [if_pos hv, if_pos hv]
    exact ⟨rfl, none, h, .missing⟩
  · rw [if_neg hv, if_neg hv, setrangeLength, ← Nat.cast_add]
    refine wp_checkStringLength (hseen.resolve_left hv) (fun hlong => ?_) fun hle => ?_
    · rw [if_pos hlong]
      exact ⟨rfl, none, h, .missing⟩
    · rw [if_neg (not_lt.mpr hle), wp_bind, Int.toNat_natCast, wp_allocString (lt_of_le_limit hle),
        wp_bind, getD_none, ← overwritten_replicate le_rfl]
      exact wp_dbAdd_put h fun s' h' => finish_wp h' (createRawStringObject_denotes _ _)

theorem setrangeCommand.change_wp (h : KeyPut dbs c.db key (some (.str o)) t s.dbs)
    (ho : o.Denotes y) (hseen : v = [] ∨ LengthSeen (offset + v.length)) :
    (change key v offset o).Ends c s
      (StrSent c.out dbs c.db key t (setrangeExact (some y) offset v)) := by
  unfold change setrangeExact
  by_cases hv : v = []
  · rw [if_pos hv, if_pos hv, ho.stringObjectLen_eq]
    exact ⟨rfl, _, h, .holds ho⟩
  · rw [if_neg hv, if_neg hv, setrangeLength, ← Nat.cast_add]
    refine wp_checkStringLength (hseen.resolve_left hv) (fun hlong => ?_) fun hle => ?_
    · rw [if_pos hlong]
      exact ⟨rfl, _, h, .holds ho⟩
    · rw [if_neg (not_lt.mpr hle), wp_bind]
      refine wp_dbUnshareStringValue h ho fun o' s' h' ho' => ?_
      rw [wp_bind, Int.toNat_natCast, wp_allocString (lt_of_le_limit hle)]
      exact finish_wp h' ho'

theorem setrangeCommand_wp (hargs : Args c.argv [name, key, a, v])
    (h : StrFound s.dbs (home c.dictid key) key s.now x t) (ha : getLongLong a = some (offset : ℤ))
    (hseen : v = [] ∨ LengthSeen (offset + v.length)) :
    setrangeCommand.Ends c s
      (StrSent c.out s.dbs (home c.dictid key) key t (setrangeExact x offset v)) := by
  rw [Cmd.Ends, setrangeCommand, wp_arg, (hargs.getD rfl _).text_eq]
  refine wp_withLong hargs rfl (fun hnone => by cases ha.symm.trans hnone) fun i hi => ?_
  obtain rfl : (offset : ℤ) = i := some.inj (ha.symm.trans hi)
  rw [if_neg (by omega)]
  refine wp_lockKey hargs rfl ?_
  rw [wp_bind]
  refine wp_lookupKeyWrite_str h fun v' s' hput his => ?_
  cases his with
  | missing => exact setrangeCommand.create_wp hput hseen
  | holds ho => exact setrangeCommand.change_wp hput ho hseen

theorem setrangeCommand_fails (hargs : Args c.argv [name, key, a, v])
    (h : StrFound s.dbs (home c.dictid key) key s.now x t)
    (ha : getLongLong a = some (offset : ℤ)) (hv : v ≠ [])
    (hseen : ¬LengthSeen (offset + v.length)) : setrangeCommand.Fails c s := by
  refine .of_wp ?_
  rw [arg, wp_readP, (hargs.getD rfl _).text_eq]
  refine fails_withLong hargs rfl ha ?_
  rw [if_neg (by omega)]
  refine fails_lockKey hargs rfl (.of_wp ?_)
  refine wp_lookupKeyWrite_str h fun v' s' hput his => ?_
  cases his with
  | missing =>
    change (setrangeCommand.create key v offset).Fails (c.on key) s'
    rw [setrangeCommand.create, if_neg hv, setrangeLength, ← Nat.cast_add, Int.toNat_natCast]
    exact fails_checkStringLength hseen fun hlong => fails_allocString hlong _
  | holds ho =>
    change (setrangeCommand.change key v offset _).Fails (c.on key) s'
    rw [setrangeCommand.change, if_neg hv, setrangeLength, ← Nat.cast_add, Int.toNat_natCast]
    refine fails_checkStringLength hseen fun hlong => ?_
    exact .of_wp (wp_dbUnshareStringValue hput ho fun o' s'' _ _ => fails_allocString hlong _)

/-- APPEND to a key that is missing does not look at the length. -/
def AppendSeen (x : Option Sds) (v : Sds) : Prop :=
  match x with
  | none => v.length ≤ stringLimit
  | some y => LengthSeen (y.length + v.length)

section

variable (hargs : Args c.argv [name, key, v])

include hargs

theorem appendCommand.change_wp (h : KeyPut dbs c.db key (some (.str o)) t s.dbs) (ho : o.Denotes y)
    (hseen : LengthSeen (y.length + v.length)) :
    (change key o).Ends c s (StrSent c.out dbs c.db key t (appendExact (some y) v)) := by
  rw [Cmd.Ends, change, wp_arg, (hargs.getD rfl _).text_eq, ho.stringObjectLen_eq]
  dsimp only [appendExact, getD_some]
  rw [← length_append] at hseen
  rw [← Nat.cast_add, ← length_append]
  refine wp_checkStringLength hseen (fun hlong => ?_) fun hle => ?_
  · rw [if_pos hlong]
    exact ⟨rfl, _, h, .holds ho⟩
  · rw [if_neg (not_lt.mpr hle), wp_bind]
    refine wp_dbUnshareStringValue h ho fun o' s' h' ho' => ?_
    rw [wp_bind, ho'.text_eq, ← length_append, wp_allocString (lt_of_le_limit hle), wp_bind]
    refine wp_setString h' _ fun o'' s'' h'' ho'' => ?_
    rw [wp_replyUnlock, ho''.text_eq]
    exact ⟨rfl, _, h'', .holds ho''⟩

theorem appendCommand.create_wp (h : KeyPut dbs c.db key none t s.dbs) :
    (create key).Ends c s (StrSent c.out dbs c.db key t (.int v.length, some v)) := by
  rw [Cmd.Ends, create, wp_bind]
  refine wp_encodeArg hargs rfl fun os heap hargs1 => ?_
  have hval : (os.getD 2 (sharedInteger 0)).Denotes v := hargs1.getD rfl _
  rw [wp_arg, wp_bind]
  refine wp_dbAdd_put h fun s2 h2 => ?_
  rw [wp_replyUnlock, hval.stringObjectLen_eq]
  exact ⟨rfl, _, h2, .holds (hval.dupStringObjectUnconstant _)⟩

theorem appendCommand_wp_missing (h : StrFound s.dbs (home c.dictid key) key s.now none t) :
    appendCommand.Ends c s
      (StrSent c.out s.dbs (home c.dictid key) key t (.int v.length, some v)) := by
  refine wp_lockKey hargs rfl ?_
  rw [wp_bind]
  refine wp_lookupKeyWrite_str h fun v' s' hput his => ?_
  cases his with
  | missing => exact appendCommand.create_wp hargs hput

theorem appendCommand_wp (h : StrFound s.dbs (home c.dictid key) key s.now x t)
    (hseen : AppendSeen x v) :
    appendCommand.Ends c s (StrSent c.out s.dbs (home c.dictid key) key t (appendExact x v)) := by
  cases x with
  | none =>
    rw [appendExact, getD_none, nil_append, if_neg (not_lt.mpr hseen)]
    exact appendCommand_wp_missing hargs h
  | some y =>
    refine wp_lockKey hargs rfl ?_
    rw [wp_bind]
    refine wp_lookupKeyWrite_str h fun v' s' hput his => ?_
    cases his with
    | holds ho => exact appendCommand.change_wp hargs hput ho hseen

theorem appendCommand_fails {y : Sds} (h : StrFound s.dbs (home c.dictid key) key s.now (some y) t)
    (hseen : ¬LengthSeen (y.length + v.length)) : appendCommand.Fails c s := by
  refine fails_lockKey hargs rfl (.of_wp ?_)
  refine wp_lookupKeyWrite_str h fun v' s' hput his => ?_
  cases his with
  | @holds o _ ho =>
    refine .of_wp ?_
    rw [arg, wp_readP, (hargs.getD rfl _).text_eq, ho.stringObjectLen_eq]
    dsimp only
    rw [← Nat.cast_add]
    refine fails_checkStringLength hseen fun hlong => ?_
    refine .of_wp (wp_dbUnshareStringValue hput ho fun o' s'' _ ho' => ?_)
    rw [ho'.text_eq]
    exact fails_allocString hlong _

end

end

end Handler

/-- The request is answered with `r.1`, and leaves the bytes `r.2` at the key and the deadline as it
was.  Nothing else is changed. -/
def Answered (dictid : ℕ) (proc : Cmd Unit) (argv : List Sds) (now : ℕ) (world : ℕ → ℤ) (s : Server)
    (key : Sds) (t : Option ℤ) (r : Reply × Option Sds) : Prop :=
  ∃ s', call dictid proc argv now world s = some ([r.1], s') ∧
    StrPut s.dbs (home dictid key) key r.2 t s'.dbs

theorem StrPut.unique {dbs dbs' : ℕ → Db Value} {i : ℕ} {x x' : Option Sds}
    {t : Option ℤ} (h : StrPut dbs i key x t dbs') (h' : StrPut dbs i key x' t dbs') : x = x' := by
  obtain ⟨v, hput, hv⟩ := h
  obtain ⟨v', hput', hv'⟩ := h'
  obtain rfl : v = v' := hput.value.symm.trans hput'.value
  cases hv with
  | missing => cases hv'; rfl
  | holds ho =>
    cases hv' with
    | holds ho' => rw [← ho.text_eq, ho'.text_eq]

variable {proc : Cmd Unit} {argv : List Sds}

theorem Answered.unique {dictid : ℕ} {now : ℕ} {world : ℕ → ℤ} {s : Server} {t : Option ℤ}
    {r r' : Reply × Option Sds} (h : Answered dictid proc argv now world s key t r)
    (h' : Answered dictid proc argv now world s key t r') : r = r' := by
  obtain ⟨s1, hcall, hput⟩ := h
  obtain ⟨s2, hcall', hput'⟩ := h'
  rw [hcall, some.injEq, Prod.mk.injEq, cons.injEq] at hcall'
  obtain ⟨⟨hreply, -⟩, rfl⟩ := hcall'
  exact Prod.ext hreply (hput.unique hput')

section

variable {s : Server} {dictid : ℕ} {key : Sds} {now : ℕ} {x : Option Sds} {t : Option ℤ}
  (h : StrFound s.dbs (home dictid key) key now x t) {world : ℕ → ℤ}

include h

theorem StrFound.answered {r : Reply × Option Sds}
    (hwp : ∀ {os}, Args os argv → StrFound s.dbs (home dictid key) key now x t →
      proc.Ends (.called dictid os) (.called argv now s)
        (StrSent [] s.dbs (home dictid key) key t r)) :
    Answered dictid proc argv now world s key t r := by
  obtain ⟨out, s', hcall, rfl, hput⟩ := call_of_ends (fun hargs => hwp hargs h) world
  exact ⟨s', hcall, hput⟩

theorem StrFound.not_answered (r : Reply × Option Sds)
    (hfails : ∀ {os}, Args os argv → StrFound s.dbs (home dictid key) key now x t →
      proc.Fails (.called dictid os) (.called argv now s)) :
        ¬Answered dictid proc argv now world s key t r := by
  rintro ⟨s', hcall, -⟩
  rw [call_of_fails (fun hargs => hfails hargs h) world] at hcall
  cases hcall

theorem StrFound.answered_iff {outcome : Option (Reply × Option Sds)}
    (hwp : ∀ r ∈ outcome, ∀ {os}, Args os argv → StrFound s.dbs (home dictid key) key now x t →
      proc.Ends (.called dictid os) (.called argv now s)
        (StrSent [] s.dbs (home dictid key) key t r))
    (hfails : outcome = none → ∀ {os}, Args os argv → StrFound s.dbs (home dictid key) key now x t →
      proc.Fails (.called dictid os) (.called argv now s)) (r : Reply × Option Sds) :
    Answered dictid proc argv now world s key t r ↔ outcome = some r := by
  cases outcome with
  | none => exact iff_of_false (h.not_answered r (hfails rfl)) (by simp)
  | some r' =>
    have hr' : Answered dictid proc argv now world s key t r' := h.answered (hwp r' rfl)
    refine ⟨fun hr => congrArg some (hr'.unique hr), fun heq => ?_⟩
    obtain rfl := some.inj heq
    exact hr'

theorem setrange_answered_iff {a v : Sds} {offset : ℕ} (ha : getLongLong a = some (offset : ℤ)) :
    Answered dictid Handler.setrangeCommand [ascii "setrange".toList, key, a, v] now world s key t
        (setrangeExact x offset v) ↔ v = [] ∨ Handler.LengthSeen (offset + v.length) := by
  by_cases hseen : v = [] ∨ Handler.LengthSeen (offset + v.length)
  · refine iff_of_true (h.answered fun hargs h' => ?_) hseen
    exact Handler.setrangeCommand_wp hargs h' ha hseen
  · refine iff_of_false (h.not_answered _ fun hargs h' => ?_) hseen
    obtain ⟨hv, hlong⟩ := not_or.mp hseen
    exact Handler.setrangeCommand_fails hargs h' ha hv hlong

theorem append_answered_iff (v : Sds) :
    Answered dictid Handler.appendCommand [ascii "append".toList, key, v] now world s key t
        (appendExact x v) ↔ Handler.AppendSeen x v := by
  by_cases hseen : Handler.AppendSeen x v
  · exact iff_of_true (h.answered fun hargs h' => Handler.appendCommand_wp hargs h' hseen) hseen
  · refine iff_of_false ?_ hseen
    cases x with
    | none =>
      obtain ⟨s', hcall, -⟩ :
        Answered dictid Handler.appendCommand [ascii "append".toList, key, v] now world s
          key t (.int v.length, some v) :=
        h.answered fun hargs h' => Handler.appendCommand_wp_missing hargs h'
      rintro ⟨s'', hcall', -⟩
      rw [hcall, appendExact, getD_none, nil_append, if_pos (not_le.mp hseen)] at hcall'
      cases hcall'
    | some y => exact h.not_answered _ fun hargs h' => Handler.appendCommand_fails hargs h' hseen

omit [Host] h in
theorem length_setrangeExact_le (hx : ∀ y ∈ x, y.length ≤ stringLimit) (offset : ℕ) (v : Sds) :
    ∀ y ∈ (setrangeExact x offset v).2, y.length ≤ stringLimit := by
  have hget : (x.getD []).length ≤ stringLimit := by
    cases x with
    | none => exact Nat.zero_le _
    | some y => exact hx y rfl
  unfold setrangeExact
  split_ifs with hv hlong
  · exact hx
  · exact hx
  · rintro y hy
    cases hy
    rw [length_overwritten]
    omega

omit [Host] h in
theorem length_appendExact_le (hx : ∀ y ∈ x, y.length ≤ stringLimit) (v : Sds) :
    ∀ y ∈ (appendExact x v).2, y.length ≤ stringLimit := by
  dsimp only [appendExact]
  split_ifs with hlong
  · exact hx
  · rintro y hy
    cases hy
    exact not_lt.mp hlong

/-- SETRANGE and APPEND do to a string what they should do, and nothing else, if and only if the
length they look at is that of the result: SETRANGE adds the offset and the length of the value in
64 bits, and APPEND to a missing key does not look at the length.  A string of more than 512 MB
never comes about then. -/
theorem string_sizes_exact_iff (world : ℕ → ℤ) :
    (∀ (a v : Sds) (offset : ℕ), getLongLong a = some (offset : ℤ) →
      (Answered dictid Handler.setrangeCommand [ascii "setrange".toList, key, a, v]
        now world s key t
          (setrangeExact x offset v) ↔
        v = [] ∨ offset + v.length ≤ stringLimit ∨
          (stringLimit : ℤ) < wrap (offset + v.length : ℕ))) ∧
    (∀ v, Answered dictid Handler.appendCommand [ascii "append".toList, key, v] now world s key t
          (appendExact x v) ↔
        (x.getD []).length + v.length ≤ stringLimit ∨
          x ≠ none ∧ (stringLimit : ℤ) < wrap ((x.getD []).length + v.length : ℕ)) ∧
    ((∀ y ∈ x, y.length ≤ stringLimit) → ∀ offset v,
      (∀ y ∈ (setrangeExact x offset v).2, y.length ≤ stringLimit) ∧
        ∀ y ∈ (appendExact x v).2, y.length ≤ stringLimit) := by
  refine ⟨fun a v offset ha => setrange_answered_iff h ha, fun v => ?_,
    fun hx offset v => ⟨length_setrangeExact_le hx offset v, length_appendExact_le hx v⟩⟩
  rw [append_answered_iff h v]
  cases x with
  | none => simp [Handler.AppendSeen]
  | some y => simp [Handler.AppendSeen, Handler.LengthSeen]

end

end

theorem string_sizes_exact_init :
    let _ := Host.plain 1 1 Nat.one_pos
    Answered 0 Handler.setrangeCommand [ascii "setrange".toList, [107], [51], [97, 98]]
      0 (fun _ => 0) (Server.init 0) [107] none (.int 5, some [0, 0, 0, 97, 98]) := by
  intro _
  have h : StrFound (Server.init 0).dbs (home 0 [107]) [107] 0 none none :=
    ⟨redisDbInit_is.ok, .missing, rfl⟩
  exact ((string_sizes_exact_iff h fun _ => 0).1 [51] [97, 98] 3 rfl).mpr (.inr (.inl (by decide)))

/-- One byte at the largest offset: the sum is `2 ^ 63`, which passes for a negative length, and no
memory is left for the string. -/
theorem setrange_overflow_crashes :
    let _ := Host.plain 1 1 Nat.one_pos
    getLongLong (ascii "9223372036854775807".toList) = some ((2 ^ 63 - 1 : ℕ) : ℤ) ∧
      setrangeExact none (2 ^ 63 - 1) [97] = (Handler.stringTooLong, none) ∧
      (call 0 Handler.setrangeCommand
        [ascii "setrange".toList, [107], ascii "9223372036854775807".toList, [97]] 0 (fun _ => 0)
        (Server.init 0)).isNone = true := by
  decide +kernel

end Vire
