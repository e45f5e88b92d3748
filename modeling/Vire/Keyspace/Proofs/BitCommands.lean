import Vire.Keyspace.Proofs.Bits
import Vire.Keyspace.Proofs.String

/-!
# One array of bits

Every session of SET, APPEND, SETRANGE, SETBIT, GETBIT, BITCOUNT and BITPOS is one on a byte string
with a deadline, whose bits are `bitAt`.
-/

namespace Vire

open List Option Logic Prog

structure Cell where
  bytes : Option Sds
  deadline : Option ℤ

namespace Cell

def write (k : Cell) (now : ℕ) : Cell :=
  if 0 ≤ k.deadline.getD (-1) ∧ k.deadline.getD (-1) < now then ⟨none, none⟩ else k

def read (k : Cell) (now : ℕ) : Option Sds :=
  if 0 < k.deadline.getD (-1) ∧ k.deadline.getD (-1) < now then none else k.bytes

end Cell

inductive BitCmd
  | set (v : Sds) (options : List Sds)
  | append (v : Sds)
  | setrange (offset v : Sds)
  | setbit (offset bit : Sds)
  | getbit (offset : Sds)
  | bitcount
  | bitpos (bit : Sds)

/-- SETBIT on these bytes: the reply is the old bit, the string is as long as it has to be, and no
other bit is changed. -/
structure BitSet (y : Sds) (i : ℕ) (on : Bool) (out : List Reply) (z : Sds) : Prop where
  out : out = [.int (if bitAt y i then 1 else 0)]
  length : z.length = max y.length (i / 8 + 1)
  bit : bitAt z i = on
  other : ∀ j, j ≠ i → bitAt z j = bitAt y j

def BitPos (y : Option Sds) (bit : Bool) (out : List Reply) : Prop :=
  match y with
  | none => out = [.int (if bit then -1 else 0)]
  | some [] => out = [.int (-1)]
  | some y => (∃ n : ℕ, IsLeast {i | bitAt y i = bit} n ∧ out = [.int n]) ∨
      bit = true ∧ (∀ i, bitAt y i = false) ∧ out = [.int (-1)]

/-- How a command may be answered at `now`, and what becomes of the key. -/
def BitCmd.Spec (now : ℕ) (k : Cell) (out : List Reply) (k' : Cell) : BitCmd → Prop
  | set v options =>
    (out = [Handler.ok] ∧ k'.bytes = some v ∨ out ≠ [Handler.ok] ∧ (k' = k ∨ k' = k.write now)) ∧
      (options = [] → out = [Handler.ok] ∧ k'.deadline = none)
  | append v =>
    let y := (k.write now).bytes.getD [] ++ v
    k'.deadline = (k.write now).deadline ∧
      (out = [.int y.length] ∧ k'.bytes = some y ∨
        stringLimit < y.length ∧ out = [Handler.stringTooLong] ∧ k'.bytes = (k.write now).bytes)
  | setrange a v =>
    match getLongLong a with
    | none => out = [Handler.notAnInteger] ∧ k' = k
    | some offset =>
      if offset < 0 then out = [Handler.err "offset is out of range"] ∧ k' = k
      else
        let r := setrangeExact (k.write now).bytes offset.toNat v
        out = [r.1] ∧ k' = ⟨r.2, (k.write now).deadline⟩
  | setbit a b =>
    match getBitOffsetFromArgument a with
    | none => out = [Handler.bitOffsetErr] ∧ k' = k
    | some i =>
      if getLongLong b = some 0 ∨ getLongLong b = some 1 then
        k'.deadline = (k.write now).deadline ∧ ∃ z, k'.bytes = some z ∧
          BitSet ((k.write now).bytes.getD []) i (getLongLong b = some 1) out z
      else out = [Handler.bitErr] ∧ k' = k
  | getbit a =>
    k' = k ∧
      match getBitOffsetFromArgument a with
      | none => out = [Handler.bitOffsetErr]
      | some i => out = [.int (if bitAt ((k.read now).getD []) i then 1 else 0)]
  | bitcount => k' = k ∧ out = [.int (ones ((k.read now).getD []))]
  | bitpos b =>
    k' = k ∧
      match getLongLong b with
      | none => out = [Handler.notAnInteger]
      | some bit =>
        if bit = 0 ∨ bit = 1 then BitPos (k.read now) (bit = 1) out
        else out = [Handler.err "The bit argument must be 1 or 0."]

/-- A length of `2 ^ 63` or more is asked for and is taken for a short one: there is no such
memory. -/
def BitCmd.Overlong (now : ℕ) (k : Cell) : BitCmd → Prop
  | append v => ∃ y, (k.write now).bytes = some y ∧ ¬Handler.LengthSeen (y.length + v.length)
  | setrange a v => ∃ offset : ℕ, getLongLong a = some (offset : ℤ) ∧ v ≠ [] ∧
      ¬Handler.LengthSeen (offset + v.length)
  | _ => False

theorem bitAt_sdsgrowzero (y : Sds) (n j : ℕ) : bitAt (Handler.sdsgrowzero y n) j = bitAt y j := by
  have hbyte : (Handler.sdsgrowzero y n).getD (j / 8) 0 = y.getD (j / 8) 0 := by
    by_cases hj : j / 8 < max y.length n
    · rw [getD_eq_getElem?_getD, getElem?_sdsgrowzero y n hj, getD_some]
    · rw [getD_eq_default _ _ (by rw [length_sdsgrowzero]; omega), getD_eq_default _ _ (by omega)]
  rw [bitAt, bitAt, hbyte]

theorem bitSet_setbit (y : Sds) (i : ℕ) (on : Bool) :
    BitSet y i on [if getbit (Handler.sdsgrowzero y (i / 8 + 1)) i then Handler.cone
      else Handler.czero] (setbit (Handler.sdsgrowzero y (i / 8 + 1)) i on) := by
  have hlen := length_sdsgrowzero y (i / 8 + 1)
  have hbit := bitAt_setbit (s := Handler.sdsgrowzero y (i / 8 + 1)) (i := i) (by omega) on
  refine ⟨?_, by rw [length_setbit, hlen], by rw [hbit, if_pos rfl], fun j hj => ?_⟩
  · rw [getbit_eq, bitAt_sdsgrowzero]
    split_ifs <;> rfl
  · rw [hbit, if_neg hj, bitAt_sdsgrowzero]

section

variable [Host]

/-- Database `i` has these bytes, in some encoding, and this deadline at the key. -/
structure CellAt (dbs : ℕ → Db Value) (i : ℕ) (key : Sds) (k : Cell) : Prop where
  ok : (dbs i).Ok
  value : StrIs ((dbs i).dict.get key) k.bytes
  deadline : (dbs i).expires.get key = k.deadline

section

variable {dbs dbs' : ℕ → Db Value} {i : ℕ} {key : Sds} {k : Cell}

theorem CellAt.getExpire_eq (h : CellAt dbs i key k) :
    getExpire (dbs i) key = k.deadline.getD (-1) := by
  rw [h.ok.getExpire_eq, h.deadline]

theorem CellAt.found (h : CellAt dbs i key k) (now : ℕ) :
    StrFound dbs i key now (k.write now).bytes (k.write now).deadline := by
  have hfound : ((dbs i).found key now) = if 0 ≤ k.deadline.getD (-1) ∧
    k.deadline.getD (-1) < now then (none, none)
      else ((dbs i).dict.get key, k.deadline) := by
    rw [Db.found, h.getExpire_eq, h.deadline]
  refine ⟨h.ok, ?_, ?_⟩
  · rw [hfound, Cell.write]
    split_ifs
    · exact .missing
    · exact h.value
  · rw [hfound, Cell.write]
    split_ifs <;> rfl

theorem CellAt.read (h : CellAt dbs i key k) (now : ℕ) :
    StrIs (lookupKeyRead (dbs i) key now) (k.read now) := by
  rw [lookupKeyRead, checkIfExpired, h.getExpire_eq, h.ok.lookupKey_eq, Cell.read]
  simp only [Bool.and_eq_true, decide_eq_true_eq]
  split_ifs
  · exact .missing
  · exact h.value

theorem StrPut.cellAt {x : Option Sds} {t : Option ℤ} (h : StrPut dbs i key x t dbs') :
    CellAt dbs' i key ⟨x, t⟩ := by
  obtain ⟨v, hput, his⟩ := h
  exact ⟨hput.is.ok, hput.value.symm ▸ his, hput.deadline⟩

end

def BitCmd.Done (cmd : BitCmd) (now i : ℕ) (key : Sds) (k : Cell) (out : List Reply)
    (dbs : ℕ → Db Value) :
    Prop :=
  ∃ k', cmd.Spec now k out k' ∧ CellAt dbs i key k'

theorem BitCmd.Done.refused {dbs : ℕ → Db Value} {now i : ℕ} {key v : Sds} {options : List Sds}
    {k : Cell} (h : CellAt dbs i key k) (hopts : options ≠ []) (r : Reply) (hr : r ≠ Handler.ok) :
    (BitCmd.set v options).Done now i key k [r] dbs :=
  ⟨k, ⟨.inr ⟨fun hok => hr (singleton_inj.mp hok), .inl rfl⟩, fun hnil => absurd hnil hopts⟩, h⟩

namespace Handler

theorem wp_lookupStringForBitCommand {c : Client} {s : Server} {key : Sds} {k : Cell} {i : ℕ}
    {body : Robj → Cmd Unit} {Q : Post Unit} (h : CellAt s.dbs c.db key k)
    (hQ : ∀ o s', o.Denotes (sdsgrowzero ((k.write s.now).bytes.getD []) (i / 8 + 1)) →
      KeyPut s.dbs c.db key (some (.str o)) (k.write s.now).deadline s'.dbs → (body o).Wp c s' Q) :
    (lookupStringForBitCommand key i body).Wp c s Q := by
  have hfound := h.found s.now
  rw [lookupStringForBitCommand, wp_bind]
  refine wp_lookupKeyWrite_str hfound fun v' s' hput his => ?_
  cases hx : (k.write s.now).bytes with
  | none =>
    rw [hx] at hQ his
    cases his
    refine (wp_bind ..).mpr (wp_dbAdd_put hput fun s1 h1 => hQ _ s1 ?_ h1)
    exact createRawStringObject_denotes _ _
  | some y =>
    rw [hx] at hQ his
    cases his with
    | holds ho =>
      refine (wp_bind ..).mpr (wp_dbUnshareStringValue hput ho fun o1 s1 h1 ho1 => ?_)
      rw [wp_bind, ho1.text_eq]
      exact wp_setString h1 _ fun o2 s2 h2 ho2 => hQ o2 s2 ho2 h2

variable {d : ℕ} {os : List Robj} {s : Server} {key name a b v : Sds} {k : Cell}
  {Q : List Reply → (ℕ → Db Value) → Prop} (h : CellAt s.dbs (home d key) key k)

include h

theorem setGenericCommand.store_wp {flags : SetFlags} {val : Robj} {milliseconds : Option ℤ}
    (hval : val.Denotes v) (habort : (flags.nx = true ∨ flags.xx = true) →
      ∀ dbs, CellAt dbs (home d key) key (k.write s.now) → Q [.nil] dbs)
    (hstore : ∀ t dbs, (milliseconds = none → t = none) → CellAt dbs (home d key) key ⟨some v, t⟩ →
      Q [ok] dbs) :
    (store flags key val ok .nil milliseconds).Ends (.called d os) s Q := by
  rw [Cmd.Ends, store, wp_bind, wp_fetchInternalDbByKey, wp_bind, lockDbWrite, wp_lockP, wp_bind]
  refine wp_lookupKeyWrite_str (h.found s.now) fun v' s' hput his => ?_
  split_ifs with habs
  · refine habort ?_ _ (StrPut.cellAt ⟨v', hput, his⟩)
    simp only [Bool.or_eq_true, Bool.and_eq_true] at habs
    exact habs.imp And.left And.left
  · rw [wp_bind]
    refine wp_setKey_put hput fun s1 h1 => ?_
    have hdup : StrIs (some (dupValue val s'.heap).1) (some v) :=
      .holds (hval.dupStringObjectUnconstant _)
    rw [wp_bind]
    cases milliseconds with
    | none => exact hstore none _ (fun _ => rfl) (StrPut.cellAt ⟨_, h1, hdup⟩)
    | some ms =>
      refine wp_setExpire_put h1 _ fun s2 h2 => ?_
      exact hstore _ _ (fun hms => by cases hms) (StrPut.cellAt ⟨_, h2, hdup⟩)

theorem setCommand_wp {options : List Sds} (hargs : Args os (name :: key :: v :: options)) :
    setCommand.Ends (.called d os) s ((BitCmd.set v options).Done s.now (home d key) key k) := by
  rw [Cmd.Ends, setCommand, wp_args, hargs.map_text_drop 3, drop_succ_cons, drop_succ_cons,
    drop_succ_cons, drop_zero]
  cases hparse : parseSetOptions options ⟨.none, none, .seconds⟩ with
  | none =>
    have hopts : options ≠ [] := fun hnil => by rw [hnil] at hparse; cases hparse
    exact .refused h hopts syntaxerr (by decide)
  | some o =>
    rw [withSome, wp_bind]
    refine wp_encodeArg hargs rfl fun os' heap hargs1 => ?_
    have hval : (os'.getD 2 (sharedInteger 0)).Denotes v := hargs1.getD rfl _
    rw [wp_arg, text_arg_one hargs1 rfl, wp_arg, setGenericCommand]
    have hstore : ∀ ms, (options = [] → ms = none) →
        (setGenericCommand.store o.flags key (os'.getD 2 (sharedInteger 0)) ok .nil ms).Ends
          (.called d os') { s with heap := heap }
          ((BitCmd.set v options).Done s.now (home d key) key k) := by
      intro ms hms
      refine setGenericCommand.store_wp (s := { s with heap := heap }) h hval
        (fun hflags dbs h' => ?_) fun t dbs ht h' => ?_
      · refine ⟨_, ⟨.inr ⟨by decide, .inr rfl⟩, fun hnil => ?_⟩, h'⟩
        subst hnil
        cases hparse
        rcases hflags with hflag | hflag <;> cases hflag
      · exact ⟨_, ⟨.inl ⟨rfl, rfl⟩, fun hnil => ⟨rfl, ht (hms hnil)⟩⟩, h'⟩
    have hopts : ∀ e, o.expire = some e → options ≠ [] := by
      rintro e he rfl
      cases hparse
      cases he
    cases hexpire : o.expire with
    | none => exact hstore none fun _ => rfl
    | some e =>
      rw [map_some]
      cases expireMillis (ascii "set".toList) e o.unit with
      | error m => exact .refused h (hopts e hexpire) (.error m) (by simp [ok])
      | ok ms => exact hstore (some ms) fun hnil => absurd hnil (hopts e hexpire)

theorem appendCommand_done (hargs : Args os [name, key, v])
    (hseen : ¬(BitCmd.append v).Overlong s.now k) :
    appendCommand.Ends (.called d os) s ((BitCmd.append v).Done s.now (home d key) key k) := by
  have hfound := h.found s.now
  cases hx : (k.write s.now).bytes with
  | none =>
    rw [hx] at hfound
    refine (appendCommand_wp_missing (c := .called d os) hargs hfound).mono fun _ c' s'
      ⟨hsent, hput⟩ => ?_
    refine ⟨⟨some v, _⟩, ⟨rfl, .inl ?_⟩, hput.cellAt⟩
    rw [hx, getD_none, nil_append]
    exact ⟨hsent, rfl⟩
  | some y =>
    have hlen : LengthSeen (y.length + v.length) := not_not.mp fun hlen => hseen ⟨y, hx, hlen⟩
    rw [hx] at hfound
    refine (appendCommand_wp (c := .called d os) hargs hfound hlen).mono fun _ c' s'
      ⟨hsent, hput⟩ => ?_
    refine ⟨⟨(appendExact (some y) v).2, _⟩, ⟨rfl, ?_⟩, hput.cellAt⟩
    rw [hsent, nil_append, hx, getD_some]
    dsimp only [appendExact, getD_some]
    by_cases hlong : stringLimit < (y ++ v).length
    · rw [if_pos hlong]
      exact .inr ⟨hlong, rfl, rfl⟩
    · rw [if_neg hlong]
      exact .inl ⟨rfl, rfl⟩

theorem setrangeCommand_done (hargs : Args os [name, key, a, v])
    (hseen : ¬(BitCmd.setrange a v).Overlong s.now k) :
    setrangeCommand.Ends (.called d os) s
      ((BitCmd.setrange a v).Done s.now (home d key) key k) := by
  rcases ha : getLongLong a with _ | offset
  · rw [Cmd.Ends, setrangeCommand, wp_arg, wp_arg, withLong,
      (hargs.getD rfl _).getLongLongFromObject, ha]
    refine ⟨k, ?_, h⟩
    rw [BitCmd.Spec, ha]
    exact ⟨rfl, rfl⟩
  · rcases lt_or_ge offset 0 with hneg | hpos
    · rw [Cmd.Ends, setrangeCommand, wp_arg, wp_arg, withLong,
        (hargs.getD rfl _).getLongLongFromObject, ha, withSome, if_pos hneg]
      refine ⟨k, ?_, h⟩
      rw [BitCmd.Spec, ha]
      dsimp only
      rw [if_pos hneg]
      exact ⟨rfl, rfl⟩
    · obtain ⟨offset, rfl⟩ := Int.eq_ofNat_of_zero_le hpos
      have hlen : v = [] ∨ LengthSeen (offset + v.length) := by
        by_contra hno
        obtain ⟨hv, hlong⟩ := not_or.mp hno
        exact hseen ⟨offset, ha, hv, hlong⟩
      refine (setrangeCommand_wp (c := .called d os) hargs (h.found s.now) ha hlen).mono
        fun _ c' s' hdone => ?_
      refine ⟨_, ?_, hdone.2.cellAt⟩
      rw [BitCmd.Spec, ha]
      exact ⟨hdone.1, rfl⟩

theorem setbitCommand_done (hargs : Args os [name, key, a, b]) :
    setbitCommand.Ends (.called d os) s ((BitCmd.setbit a b).Done s.now (home d key) key k) := by
  rw [Cmd.Ends, setbitCommand, wp_arg, wp_arg, withBitOffset, (hargs.getD rfl _).text_eq]
  cases hi : getBitOffsetFromArgument a with
  | none =>
    refine ⟨k, ?_, h⟩
    rw [BitCmd.Spec, hi]
    exact ⟨rfl, rfl⟩
  | some i =>
    rw [withSome, (hargs.getD rfl _).getLongLongFromObject]
    have herr : ¬(getLongLong b = some 0 ∨ getLongLong b = some 1) →
        (addReply bitErr).Ends (.called d os) s
          ((BitCmd.setbit a b).Done s.now (home d key) key k) := by
      intro hb
      refine ⟨k, ?_, h⟩
      rw [BitCmd.Spec, hi]
      dsimp only
      rw [if_neg hb]
      exact ⟨rfl, rfl⟩
    cases hb : getLongLong b with
    | none => exact herr (by simp [hb])
    | some on =>
      rw [withSome]
      by_cases hon : on ≠ 0 ∧ on ≠ 1
      · rw [if_pos hon]
        exact herr (by simp [hb, hon])
      · rw [if_neg hon]
        refine wp_lockKey hargs rfl ?_
        refine wp_lookupStringForBitCommand h fun o s1 ho h1 => ?_
        rw [wp_bind, ho.text_eq]
        refine wp_setString h1 _ fun o2 s2 h2 ho2 => ?_
        have hset := bitSet_setbit ((k.write s.now).bytes.getD []) i (decide (on = 1))
        refine ⟨⟨some _, (k.write s.now).deadline⟩, ?_, StrPut.cellAt ⟨_, h2, .holds ho2⟩⟩
        rw [BitCmd.Spec, hi]
        dsimp only
        rw [if_pos (by rw [hb]; simp only [some.injEq]; omega), hb]
        refine ⟨rfl, _, rfl, ?_⟩
        simp only [some.injEq]
        exact hset

theorem getbitCommand_done (hargs : Args os [name, key, a]) :
    getbitCommand.Ends (.called d os) s ((BitCmd.getbit a).Done s.now (home d key) key k) := by
  rw [Cmd.Ends, getbitCommand, wp_arg, withBitOffset, (hargs.getD rfl _).text_eq]
  cases hi : getBitOffsetFromArgument a with
  | none =>
    refine ⟨k, ⟨rfl, ?_⟩, h⟩
    rw [hi]
    rfl
  | some i =>
    refine wp_readKey_str hargs rfl (h.read s.now) (fun hx => ⟨k, ⟨rfl, ?_⟩, h⟩)
      fun y o hx ho => ⟨k, ⟨rfl, ?_⟩, h⟩
    · rw [hi]
      dsimp only
      rw [hx, getD_none, bitAt_of_ge (Nat.zero_le _)]
      rfl
    · rw [hi, hx, ho.text_eq, getbit_eq, getD_some]
      dsimp only
      split_ifs <;> rfl

omit [Host] h in
theorem bytesOf_whole (y : Sds) : bytesOf y (0, y.length - 1) = y := by
  rw [bytesOf, Int.toNat_zero, drop_zero, take_of_length_le (by omega)]

theorem bitcountCommand_done (hargs : Args os [name, key]) :
    bitcountCommand.Ends (.called d os) s (BitCmd.bitcount.Done s.now (home d key) key k) := by
  refine wp_readKey_str hargs rfl (h.read s.now) (fun hx => ⟨k, ⟨rfl, ?_⟩, h⟩) fun y o hx ho => ?_
  · rw [hx, getD_none, ones_nil]
    rfl
  · rw [wp_argc, wp_bind, hargs.length_eq]
    refine wp_someNat fun p => ⟨k, ⟨rfl, ?_⟩, h⟩
    change [_] = _
    rw [hx, ho.text_eq, redisPopcount_eq, bytesOf_whole, getD_some]
    split_ifs with hempty
    · have hnil : y = [] := eq_nil_of_length_eq_zero (by omega)
      rw [hnil, ones_nil]
      rfl
    · rfl

omit h in
omit [Host] in
theorem bitposCommand.find_wp {c : Client} {y : Sds} {bit : Bool} (hout : c.out = []) (p : ℕ)
    (hQ : ∀ out, BitPos (some y) bit out → Q out s.dbs) :
    (find p y bit (0, y.length - 1) false).Ends c s Q := by
  rw [Cmd.Ends, find, bytesOf_whole]
  split_ifs with hempty
  · obtain rfl : y = [] := eq_nil_of_length_eq_zero (by dsimp only at hempty; omega)
    exact hQ _ (congrArg (· ++ [Reply.int (-1)]) hout)
  · obtain ⟨b, t, rfl⟩ :=
      exists_cons_of_length_pos (show 0 < y.length by dsimp only at hempty; omega)
    rw [wp_bind]
    rcases redisBitpos_eq (p + (0 : ℤ).toNat) (b :: t)
      bit with ⟨n, hleast, hpos⟩ | ⟨hbit, hall, hpos⟩
    · rw [hpos, wp_orHalt_some]
      refine hQ _ (.inl ⟨n, hleast, ?_⟩)
      change c.out ++ [Reply.int (if (n : ℤ) = -1 then -1 else (n : ℤ) + 0 * 8)] = _
      rw [if_neg (by omega), hout, Int.zero_mul, Int.add_zero, nil_append]
    · rw [hpos, wp_orHalt_some]
      exact hQ _ (.inr ⟨hbit, hall, congrArg (· ++ [Reply.int (-1)]) hout⟩)

theorem bitposCommand_done (hargs : Args os [name, key, b]) :
    bitposCommand.Ends (.called d os) s ((BitCmd.bitpos b).Done s.now (home d key) key k) := by
  refine wp_withLong hargs rfl (fun hb => ⟨k, ⟨rfl, ?_⟩, h⟩) fun bit hb => ?_
  · rw [hb]
    rfl
  · have hdone : ∀ out, (if bit = 0 ∨ bit = 1 then BitPos (k.read s.now) (bit = 1) out
          else out = [err "The bit argument must be 1 or 0."]) →
        (BitCmd.bitpos b).Done s.now (home d key) key k out s.dbs := fun out hspec => by
      refine ⟨k, ⟨rfl, ?_⟩, h⟩
      rw [hb]
      exact hspec
    by_cases hbit : bit = 0 ∨ bit = 1
    · rw [if_neg (by omega)]
      refine wp_readKey_str hargs rfl (h.read s.now) (fun hx => hdone _ ?_) fun y o hx ho => ?_
      · rw [if_pos hbit, hx]
        simp [BitPos]
      · have hargc : os.length = 3 := hargs.length_eq
        rw [wp_argc, wp_bind, hargc]
        refine wp_someNat fun p => ?_
        rw [if_neg (by omega), if_pos rfl, ho.text_eq]
        refine bitposCommand.find_wp rfl p fun out hpos => hdone _ ?_
        rw [if_pos hbit, hx]
        exact hpos
    · rw [if_pos (by omega)]
      refine hdone _ ?_
      rw [if_neg hbit]
      rfl

end Handler

def BitCmd.proc : BitCmd → Cmd Unit
  | set _ _ => Handler.setCommand
  | append _ => Handler.appendCommand
  | setrange _ _ => Handler.setrangeCommand
  | setbit _ _ => Handler.setbitCommand
  | getbit _ => Handler.getbitCommand
  | bitcount => Handler.bitcountCommand
  | bitpos _ => Handler.bitposCommand

omit [Host] in
def BitCmd.argv (key : Sds) : BitCmd → List Sds
  | set v options => ascii "set".toList :: key :: v :: options
  | append v => [ascii "append".toList, key, v]
  | setrange offset v => [ascii "setrange".toList, key, offset, v]
  | setbit offset bit => [ascii "setbit".toList, key, offset, bit]
  | getbit offset => [ascii "getbit".toList, key, offset]
  | bitcount => [ascii "bitcount".toList, key]
  | bitpos bit => [ascii "bitpos".toList, key, bit]

section

variable {key : Sds} {k : Cell} {s : Server}

theorem BitCmd.proc_wp (cmd : BitCmd) {d : ℕ} {os : List Robj} (hargs : Args os (cmd.argv key))
    (h : CellAt s.dbs (home d key) key k) (hlong : ¬cmd.Overlong s.now k) :
    cmd.proc.Ends (.called d os) s (cmd.Done s.now (home d key) key k) := by
  cases cmd with
  | set v options => exact Handler.setCommand_wp h hargs
  | append v => exact Handler.appendCommand_done h hargs hlong
  | setrange offset v => exact Handler.setrangeCommand_done h hargs hlong
  | setbit offset bit => exact Handler.setbitCommand_done h hargs
  | getbit offset => exact Handler.getbitCommand_done h hargs
  | bitcount => exact Handler.bitcountCommand_done h hargs
  | bitpos bit => exact Handler.bitposCommand_done h hargs

theorem BitCmd.proc_fails (cmd : BitCmd) {c : Client} (hargs : Args c.argv (cmd.argv key))
    (h : CellAt s.dbs (home c.dictid key) key k) (hlong : cmd.Overlong s.now k) :
    cmd.proc.Fails c s := by
  have hfound := h.found s.now
  cases cmd with
  | append v =>
    obtain ⟨y, hy, hlen⟩ := hlong
    exact Handler.appendCommand_fails hargs (hy ▸ hfound) hlen
  | setrange a v =>
    obtain ⟨offset, ha, hv, hlen⟩ := hlong
    exact Handler.setrangeCommand_fails hargs hfound ha hv hlen
  | _ => exact hlong.elim

theorem BitCmd.serve_cases (dictid : ℕ) (r : Request BitCmd)
    (h : CellAt s.dbs (home dictid key) key k) :
    (∃ out s' k', serve dictid BitCmd.proc (BitCmd.argv key) r s = some (out, s') ∧
        r.cmd.Spec r.now k out k' ∧ CellAt s'.dbs (home dictid key) key k') ∨
      r.cmd.Overlong r.now k ∧ serve dictid BitCmd.proc (BitCmd.argv key) r s = none := by
  by_cases hlong : r.cmd.Overlong r.now k
  · exact .inr ⟨hlong, call_of_fails (fun hargs => r.cmd.proc_fails hargs h hlong) r.world⟩
  · obtain ⟨out, s', hcall, k', hspec, h'⟩ :=
      call_of_ends (fun hargs => r.cmd.proc_wp hargs h hlong) r.world
    exact .inl ⟨out, s', k', hcall, hspec, h'⟩

/-- For every session on a string key, or a missing one, in any encoding and with any deadline: the
answers are those of one array of bits.  The only request that is not answered, and the last one
then, asks for a string of `2 ^ 63` bytes or more. -/
theorem bits_one_array (dictid : ℕ) (h : CellAt s.dbs (home dictid key) key k)
    (requests : List (Request BitCmd)) :
    (∃ outs s' k', serveAll (serve dictid BitCmd.proc (BitCmd.argv key)) requests s =
      some (outs, s') ∧ Answers (fun k r out k' => r.cmd.Spec r.now k out k') k requests outs k' ∧
      CellAt s'.dbs (home dictid key) key k') ∨
    ∃ pre r post outs s' k', requests = pre ++ r :: post ∧
      serveAll (serve dictid BitCmd.proc (BitCmd.argv key)) pre s = some (outs, s') ∧
      Answers (fun k r out k' => r.cmd.Spec r.now k out k') k pre outs k' ∧
      CellAt s'.dbs (home dictid key) key k' ∧ r.cmd.Overlong r.now k' ∧
      serve dictid BitCmd.proc (BitCmd.argv key) r s' = none :=
  answers_until_stop (fun r _ _ h => BitCmd.serve_cases dictid r h) requests h

end

end

theorem bits_one_array_init :
    let _ := Host.plain 1 1 Nat.one_pos
    let requests : List (Request BitCmd) :=
      [⟨.setbit [55] [49], 1, fun _ => 0⟩, ⟨.getbit [55], 2, fun _ => 0⟩,
        ⟨.bitcount, 3, fun _ => 0⟩, ⟨.bitpos [49], 4, fun _ => 0⟩]
    ∃ outs s' k', serveAll (serve 0 BitCmd.proc (BitCmd.argv [107])) requests (Server.init 0) =
      some (outs, s') ∧
      Answers (fun k r out k' => r.cmd.Spec r.now k out k') ⟨none, none⟩ requests outs k' ∧
      CellAt s'.dbs (home 0 [107]) [107] k' := by
  intro _ requests
  have h : CellAt (Server.init 0).dbs (home 0 [107]) [107] ⟨none, none⟩ :=
    ⟨redisDbInit_is.ok, .missing, rfl⟩
  rcases bits_one_array 0 h requests with hall | ⟨pre, r, post, _, _, k', heq, _, _, _, hlong, _⟩
  · exact hall
  · have hr : r ∈ requests := by rw [heq]; simp
    simp only [requests, mem_cons, not_mem_nil, or_false] at hr
    rcases hr with rfl | rfl | rfl | rfl <;> exact hlong.elim

end Vire
