import Vire.Keyspace.Proofs.HllCommands

/-!
# Strings that are no HyperLogLog

A string that a client has made up may have the header of a sparse HyperLogLog, but opcodes for more
or fewer than 16384 registers.  PFADD and PFCOUNT look at the number only where everything is
counted, and where the string is promoted to the dense encoding.
-/

namespace Vire

open List Option Logic Prog

attribute [local irreducible] int32

/-- A register is written for every one of a run of values. -/
def HllOp.Inside (n : ℕ) : HllOp → Prop
  | val _ len => 0 ≤ int32 n ∧ int32 n + len ≤ hllRegisters
  | _ => True

/-- From register `n` on, no value is written outside of the registers. -/
def hllInside : ℕ → List HllOp → Prop
  | _, [] => True
  | n, op :: ops => op.Inside n ∧ hllInside (n + op.runlen) ops

section

variable {n : ℕ} {d : Sds}

theorem int32_succ_of_lt (hlo : 0 ≤ int32 n) (hhi : int32 n < hllRegisters) :
    int32 (n + 1 : ℕ) = int32 n + 1 := by
  rw [hllRegisters] at hhi
  rw [Nat.cast_succ, ← int32_int32_add, int32_of_lt (by omega) (by omega)]

theorem hllSetRun_some {value len : ℕ} (h : 0 ≤ int32 n ∧ int32 n + len ≤ hllRegisters) :
    ∃ d', hllSetRun value len (int32 n, d) = some (int32 (n + len : ℕ), d') := by
  induction len generalizing n d with
  | zero => exact ⟨d, rfl⟩
  | succ len ih =>
    have hlt : int32 n < hllRegisters := by omega
    have hsucc := int32_succ_of_lt h.1 hlt
    rw [hllSetRun, if_pos ⟨h.1, hlt⟩, int32_int32_add, ← Nat.cast_succ, ← Nat.add_assoc,
      Nat.add_right_comm]
    exact ih (n := n + 1) (by omega)

theorem hllSetRun_none {value len : ℕ} (hpos : 1 ≤ len)
    (h : ¬(0 ≤ int32 n ∧ int32 n + len ≤ hllRegisters)) :
    hllSetRun value len (int32 n, d) = none := by
  induction len generalizing n d with
  | zero => omega
  | succ len ih =>
    rw [hllSetRun]
    split_ifs with hin
    · have hsucc := int32_succ_of_lt hin.1 hin.2
      rw [int32_int32_add, ← Nat.cast_succ]
      exact ih (n := n + 1) (by omega) (by omega)
    · rfl

theorem hllToDenseStep_some {op : HllOp} (h : op.Inside n) :
    ∃ d', hllToDenseStep (int32 n, d) op = some (int32 (n + op.runlen : ℕ), d') := by
  have hskip : some (int32 (int32 n + op.runlen), d) = some (int32 (n + op.runlen : ℕ), d) := by
    rw [int32_int32_add, Nat.cast_add]
  cases op with
  | zero len => exact ⟨d, hskip⟩
  | xzero len => exact ⟨d, hskip⟩
  | val value len => exact hllSetRun_some h

theorem hllToDenseStep_none {op : HllOp} (hfits : op.Fits) (h : ¬op.Inside n) :
    hllToDenseStep (int32 n, d) op = none := by
  cases op with
  | zero len => exact absurd trivial h
  | xzero len => exact absurd trivial h
  | val value len => exact hllSetRun_none hfits.2.1 h

theorem hllToDense_idx {ops : List HllOp} (hfits : ∀ op ∈ ops, op.Fits)
    [Decidable (hllInside n ops)] :
    (ops.foldlM hllToDenseStep (int32 n, d)).map Prod.fst =
      if hllInside n ops then some (int32 (n + (hllOpsRegs ops).length : ℕ)) else none := by
  induction ops generalizing n d with
  | nil => exact (if_pos trivial).symm
  | cons op ops ih =>
    obtain ⟨hop, hops⟩ := forall_mem_cons.mp hfits
    have hrun : op.regs.length = op.runlen := length_replicate
    rw [foldlM_cons, hllOpsRegs_cons, length_append, hrun, ← Nat.add_assoc]
    by_cases hin : op.Inside n
    · obtain ⟨d', hstep⟩ := hllToDenseStep_some (d := d) hin
      have : Decidable (hllInside (n + op.runlen) ops) := Classical.dec _
      have htail : hllInside n (op :: ops) ↔ hllInside (n + op.runlen) ops := and_iff_right hin
      rw [hstep, if_congr htail rfl rfl]
      exact ih hops
    · rw [hllToDenseStep_none hop hin, if_neg fun h => hin h.1]
      rfl

end

theorem hllSparseToDense_eq_none_iff {x : Sds} :
    hllSparseToDense x = some none ↔ ∃ ops, hllOpcodes (x.drop hllHdrSize) = some ops ∧
      hllInside 0 ops ∧ int32 (hllOpsRegs ops).length ≠ hllRegisters := by
  classical
  rw [hllSparseToDense, hllScan_eq]
  cases hops : hllOpcodes (x.drop hllHdrSize) with
  | none => simp
  | some ops =>
    have hidx := hllToDense_idx (n := 0) (d := hllDenseNew x) (hllOpcodes_fits hops)
    have hzero : int32 (0 : ℕ) = 0 := int32_of_lt (by decide) (by decide)
    rw [hzero, Nat.zero_add] at hidx
    rw [bind_some]
    generalize ops.foldlM hllToDenseStep (0, hllDenseNew x) = r at hidx
    by_cases hin : hllInside 0 ops
    · rw [if_pos hin] at hidx
      obtain ⟨st, rfl, hst⟩ := map_eq_some_iff.mp hidx
      simp [hin, hst]
    · rw [if_neg hin, map_eq_none_iff] at hidx
      subst hidx
      simp [hin]

section

variable [Host]

/-- The element is not added to the opcodes: its pattern is too long for an opcode, or the string
would get too long. -/
def HllPromotes (x ele : Sds) : Prop :=
  32 < (hllPatLen ele).2 ∨
    ∃ l, hllLocate (hllPatLen ele).1 (x.drop hllHdrSize) hllHdrSize 0 none 0 = some (some l) ∧
      l.op.regval < (hllPatLen ele).2 ∧
      l.op.oplen < (hllSplit (hllPatLen ele).1 (hllPatLen ele).2 l.first l.op).length ∧
      Host.hllSparseMaxBytes <
        x.length + ((hllSplit (hllPatLen ele).1 (hllPatLen ele).2 l.first l.op).length - l.op.oplen)

variable {x ele : Sds}

theorem hllPromote_eq_invalid_iff :
    hllPromote x ele = some .invalid ↔ hllSparseToDense x = some none := by
  rw [hllPromote]
  rcases hllSparseToDense x with _ | _ | dense
  · simp
  · simp
  · dsimp only
    cases hllDenseAdd dense ele <;> simp

theorem hllSparseSubstitute_eq_invalid_iff {l : HllPlace} {seq : Sds} :
    hllSparseSubstitute x ele l seq = some .invalid ↔
      (l.op.oplen < seq.length ∧ Host.hllSparseMaxBytes < x.length + (seq.length - l.op.oplen)) ∧
        hllPromote x ele = some .invalid := by
  rw [hllSparseSubstitute]
  split_ifs with hlong
  · rw [and_iff_right hlong]
  · simp [hlong]

omit [Host] in
theorem length_hllSplit_one {index count first : ℕ} {op : HllOp} (hlo : first ≤ index)
    (hhi : index < first + op.runlen)
    (hone : op.runlen = 1) : (hllSplit index count first op).length = 1 := by
  have hbefore : index - first = 0 := by omega
  have hbehind : first + op.runlen - 1 - index = 0 := by omega
  rw [hllSplit.eq_def]
  cases op <;> simp [hbefore, hbehind, hllSeqZeros, hllSeqVals, hllSparseValSet]

theorem hllSparseReplace_eq_invalid_iff {l : HllPlace} {index count : ℕ} (hcount : 1 ≤ count)
    (hlo : l.first ≤ index) (hhi : index < l.first + l.op.runlen) :
    hllSparseReplace x ele index count l = some .invalid ↔
      l.op.regval < count ∧ (l.op.oplen < (hllSplit index count l.first l.op).length ∧
        Host.hllSparseMaxBytes < x.length +
          ((hllSplit index count l.first l.op).length - l.op.oplen)) ∧
        hllPromote x ele = some .invalid := by
  have hone (h1 : l.op.runlen = 1) (hop : 1 ≤ l.op.oplen) :
      ¬l.op.oplen < (hllSplit index count l.first l.op).length := by
    rw [length_hllSplit_one hlo hhi h1]
    omega
  unfold hllSparseReplace
  split
  · next oldcount runlen hop =>
    rw [hop] at hone ⊢
    split_ifs with hkept hlen
    · simp [HllOp.regval, hkept]
    · have := hone hlen le_rfl
      simp [this]
    · rw [← hop, hllSparseSubstitute_eq_invalid_iff, hop, HllOp.regval,
        and_iff_right (Nat.not_le.mp hkept)]
  · next hop =>
    rw [hop] at hone ⊢
    have := hone rfl le_rfl
    simp [this]
  · next hval hzero =>
    have hreg : l.op.regval < count := by
      cases hop : l.op with
      | zero len => exact hcount
      | xzero len => exact hcount
      | val value len => exact absurd hop (hval value len)
    rw [hllSparseSubstitute_eq_invalid_iff, and_iff_right hreg]

theorem hllSparseAdd_eq_invalid_iff {ops : List HllOp}
    (hops : hllOpcodes (x.drop hllHdrSize) = some ops)
    (hbad : int32 (hllOpsRegs ops).length ≠ hllRegisters) :
    hllSparseAdd x ele = some .invalid ↔ ops = [] ∨ HllPromotes x ele ∧ hllInside 0 ops := by
  have hpromote : hllPromote x ele = some .invalid ↔ hllInside 0 ops := by
    rw [hllPromote_eq_invalid_iff, hllSparseToDense_eq_none_iff, hops]
    simp [hbad]
  rw [hllSparseAdd]
  by_cases hbig : 32 < (hllPatLen ele).2
  · have hpro : HllPromotes x ele := .inl hbig
    rw [if_pos hbig, hpromote, and_iff_right hpro]
    refine ⟨.inr, fun h => h.elim (fun hnil => ?_) id⟩
    rw [hnil]
    trivial
  rw [if_neg hbig]
  rcases Nat.lt_or_ge (hllPatLen ele).1 (hllOpsRegs ops).length with hlt | hge
  · obtain ⟨l, a, o, c, pre, post, hlocate, hbytes, hsplit, hf⟩ :=
      hllLocate_found hops (Nat.zero_le (hllPatLen ele).1) (by rwa [Nat.zero_add]) hllHdrSize none 0
    rw [HllPromotes, hlocate]
    rw [hllSparseReplace_eq_invalid_iff (hllPatLen_mem ele).1 hf.first_le hf.lt_last,
      hpromote, hsplit]
    simp [hbig, and_assoc]
  · have hlocate :=
      hllLocate_missing hops (show 0 + _ ≤ (hllPatLen ele).1 by omega) hllHdrSize none 0
    rw [HllPromotes, hlocate]
    by_cases hnil : ops = []
    · simp [hnil]
    · simp [hnil, hbig]

structure HllSparseHeader (x : Sds) : Prop where
  length : hllHdrSize ≤ x.length
  magic : x.take 4 = ascii "HYLL".toList
  encoding : hllEncoding x = hllSparse

namespace Handler

variable {c : Client} {s : Server} {key : Sds} {t : Option ℤ}

theorem wp_hllString {missing : Cmd Unit} {k : Robj → Cmd Unit} {Q : Post Unit}
    (hx : HllSparseHeader x) (h : StrFound s.dbs c.db key s.now (some x) t)
    (hk : ∀ o s', KeyPut s.dbs c.db key (some (.str o)) t s'.dbs → o.Denotes x → (k o).Wp c s' Q) :
    (do withSome (← lookupKeyWrite key) missing fun v =>
      withHLLObject v fun o => do let o ← dbUnshareStringValue key o; k o).Wp c s Q := by
  rw [wp_bind]
  refine wp_lookupKeyWrite_str h fun v s1 hput hv => ?_
  cases hv with
  | holds ho =>
    rw [withSome, withHLLObject, Value.str?, withSome, wp_bind,
      isHLLObject_eq ho hx.length hx.magic (.inr hx.encoding), wp_orHalt_some, if_pos rfl, wp_bind]
    exact wp_dbUnshareStringValue hput ho hk

theorem fails_hllString {missing : Cmd Unit} {k : Robj → Cmd Unit} (hx : HllSparseHeader x)
    (h : StrFound s.dbs c.db key s.now (some x) t) (hk : ∀ o s', o.Denotes x → (k o).Fails c s') :
    (do withSome (← lookupKeyWrite key) missing fun v =>
      withHLLObject v fun o => do let o ← dbUnshareStringValue key o; k o).Fails c s := by
  refine .of_wp (wp_lookupKeyWrite_str h fun v s1 hput hv => ?_)
  cases hv with
  | holds ho =>
    refine .of_wp ?_
    rw [isHLLObject_eq ho hx.length hx.magic (.inr hx.encoding), wp_orHalt_some, if_pos rfl]
    exact .of_wp (wp_dbUnshareStringValue hput ho fun o' s' _ ho' => hk o' s' ho')

/-- The reply to PFADD of one element, and the string that is left. -/
def pfaddResult (x : Sds) : HllAdded → Reply × Option Sds
  | .invalid => (invalidHllErr, some x)
  | .kept => (czero, some x)
  | .grown y => (cone, some (hllInvalidateCache y))

theorem pfaddCommand_result_wp (hargs : Args c.argv ((HllCmd.pfadd [ele]).argv key))
    (hx : HllSparseHeader x)
    (h : StrFound s.dbs (home c.dictid key) key s.now (some x) t) {r : HllAdded}
    (hr : hllAdd x ele = some r) :
    pfaddCommand.Ends c s (StrSent c.out s.dbs (home c.dictid key) key t (pfaddResult x r)) := by
  refine wp_lockKey hargs rfl (wp_hllString hx h fun o s1 hput ho => ?_)
  have heles : ((HllCmd.pfadd [ele]).argv key).drop 2 = [ele] := rfl
  rw [pfaddCommand.add, wp_args, hargs.map_text_drop, heles, wp_bind, pfaddLoop, wp_bind,
    ho.text_eq, hr, wp_orHalt_some]
  cases r with
  | invalid => exact ⟨rfl, _, hput, .holds ho⟩
  | kept => exact ⟨rfl, _, hput, .holds ho⟩
  | grown y =>
    rw [wp_bind]
    refine wp_setString hput _ fun o2 s2 hput2 ho2 => ?_
    rw [pfaddLoop, wp_pure, withSome, ho2.text_eq]
    rw [if_pos (by omega), if_pos (by omega), wp_bind]
    refine wp_setString hput2 _ fun o3 s3 hput3 ho3 => ?_
    exact ⟨rfl, _, hput3, .holds ho3⟩

theorem pfaddCommand_fails (hargs : Args c.argv ((HllCmd.pfadd [ele]).argv key))
    (hx : HllSparseHeader x)
    (h : StrFound s.dbs (home c.dictid key) key s.now (some x) t) (hnone : hllAdd x ele = none) :
    pfaddCommand.Fails c s := by
  refine fails_lockKey hargs rfl (fails_hllString hx h fun o s1 ho => ?_)
  have heles : ((HllCmd.pfadd [ele]).argv key).drop 2 = [ele] := rfl
  refine .of_wp ?_
  rw [args, wp_readP, hargs.map_text_drop, heles]
  dsimp only
  rw [pfaddLoop, ho.text_eq, hnone]
  trivial

def pfcountResult (x : Sds) : Option UInt64 → Reply × Option Sds
  | none => (invalidHllErr, some x)
  | some card => (.int (wrap card.toNat), some (hllSetCard x card))

def pfcountOutcome (x : Sds) : Option (Reply × Option Sds) :=
  if hllValidCache x then some (.int (wrap (hllCard x)), some x)
    else (hllCount x).map (pfcountResult x)

theorem pfcountCommand_result_wp (hargs : Args c.argv (HllCmd.pfcount.argv key))
    (hx : HllSparseHeader x)
    (h : StrFound s.dbs (home c.dictid key) key s.now (some x) t) {r : Reply × Option Sds}
    (hr : pfcountOutcome x = some r) :
    pfcountCommand.Ends c s (StrSent c.out s.dbs (home c.dictid key) key t r) := by
  have hargc : c.argv.length = 2 := hargs.length_eq
  rw [Cmd.Ends, pfcountCommand, wp_argc, hargc, if_neg (by decide)]
  refine wp_lockKey hargs rfl (wp_hllString hx h fun o s1 hput ho => ?_)
  rw [pfcountCommand.count, ho.text_eq]
  unfold pfcountOutcome at hr
  split_ifs at hr ⊢ with hvalid
  · cases hr
    exact ⟨rfl, _, hput, .holds ho⟩
  · obtain ⟨card, hcount, rfl⟩ := map_eq_some_iff.mp hr
    rw [wp_bind, hcount, wp_orHalt_some]
    cases card with
    | none => exact ⟨rfl, _, hput, .holds ho⟩
    | some card =>
      rw [withSome, wp_bind]
      refine wp_setString hput _ fun o2 s2 hput2 ho2 => ?_
      exact ⟨rfl, _, hput2, .holds ho2⟩

theorem pfcountCommand_fails (hargs : Args c.argv (HllCmd.pfcount.argv key))
    (hx : HllSparseHeader x) (h : StrFound s.dbs (home c.dictid key) key s.now (some x) t)
    (hnone : pfcountOutcome x = none) :
    pfcountCommand.Fails c s := by
  have hargc : c.argv.length = 2 := hargs.length_eq
  refine .of_wp ?_
  rw [argc, wp_readP, hargc, if_neg (by decide)]
  refine fails_lockKey hargs rfl (fails_hllString hx h fun o s1 ho => ?_)
  unfold pfcountOutcome at hnone
  split_ifs at hnone with hvalid
  rw [pfcountCommand.count, ho.text_eq, if_neg hvalid, map_eq_none_iff.mp hnone]
  trivial

end Handler

section

variable {s : Server} {dictid : ℕ} {key : Sds} {now : ℕ} {t : Option ℤ} (hx : HllSparseHeader x)
  (h : StrFound s.dbs (home dictid key) key now (some x) t) {world : ℕ → ℤ}

include hx h

theorem pfadd_answered_iff (r : Reply × Option Sds) :
    Answered dictid Handler.pfaddCommand ((HllCmd.pfadd [ele]).argv key) now world s key t r ↔
      (hllAdd x ele).map (Handler.pfaddResult x) = some r := by
  refine h.answered_iff (fun r hr _ hargs h' => ?_) (fun hnone _ hargs h' => ?_) r
  · obtain ⟨added, hadd, rfl⟩ := map_eq_some_iff.mp hr
    exact Handler.pfaddCommand_result_wp hargs hx h' hadd
  · exact Handler.pfaddCommand_fails hargs hx h' (map_eq_none_iff.mp hnone)

theorem pfcount_answered_iff (r : Reply × Option Sds) :
    Answered dictid Handler.pfcountCommand (HllCmd.pfcount.argv key) now world s key t r ↔
      Handler.pfcountOutcome x = some r :=
  h.answered_iff (fun _ hr _ hargs h' => Handler.pfcountCommand_result_wp hargs hx h' hr)
    (fun hnone _ hargs h' => Handler.pfcountCommand_fails hargs hx h' hnone) r

omit h in
theorem pfaddResult_error_iff :
    (∃ e, (hllAdd x ele).map (Handler.pfaddResult x) = some (.error e, some x)) ↔
      hllSparseAdd x ele = some .invalid := by
  have hadd : hllAdd x ele = hllSparseAdd x ele := by
    rw [hllAdd, hx.encoding, if_neg (by decide), if_pos rfl]
  rw [hadd]
  rcases hllSparseAdd x ele with _ | _ | _ | y <;>
    simp [Handler.pfaddResult, Handler.invalidHllErr, Handler.czero, Handler.cone]

omit h in
theorem pfcountOutcome_error_iff :
    (∃ e, Handler.pfcountOutcome x = some (.error e, some x)) ↔ hllValidCache x = false ∧
      ∃ ops, hllOpcodes (x.drop hllHdrSize) = some ops ∧ int32 (hllOpsRegs ops).length ≠
        hllRegisters := by
  have hne : hllEncoding x ≠ hllDense := by
    rw [hx.encoding]
    decide
  rw [Handler.pfcountOutcome, hllCount, if_neg hne]
  cases hllValidCache x with
  | true => simp
  | false =>
    cases hops : hllOpcodes (x.drop hllHdrSize) with
    | none => simp [hllSparseIdx, hllScan_eq, hops]
    | some ops =>
      rw [hllSparseIdx_eq hops]
      by_cases hidx : int32 (hllOpsRegs ops).length = hllRegisters
      · simp [hidx, Handler.pfcountResult]
      · simp [hidx, Handler.pfcountResult, Handler.invalidHllErr]

/-- A string with the header of a sparse HyperLogLog is rejected by PFADD and by PFCOUNT, with an
error and without a change, if and only if no cardinality is cached, no opcode is cut off, the
number of registers is not 16384 as an `int` either, and there are no opcodes at all, or the element
makes for a promotion that writes no value outside of the registers. -/
theorem hll_malformed_rejected_iff (ele : Sds) (world : ℕ → ℤ) :
    (∀ cmd ∈ [HllCmd.pfadd [ele], .pfcount],
      ∃ e, Answered dictid cmd.proc (cmd.argv key) now world s key t (.error e, some x)) ↔
    hllValidCache x = false ∧ ∃ ops, hllOpcodes (x.drop hllHdrSize) = some ops ∧
      int32 (hllOpsRegs ops).length ≠ hllRegisters ∧
        (ops = [] ∨ HllPromotes x ele ∧ hllInside 0 ops) := by
  have hadd :
    (∃ e, Answered dictid (HllCmd.pfadd [ele]).proc ((HllCmd.pfadd [ele]).argv key)
      now world s key t (.error e, some x)) ↔ hllSparseAdd x ele = some .invalid :=
    (exists_congr fun _ => pfadd_answered_iff hx h _).trans (pfaddResult_error_iff hx)
  have hcount :
    (∃ e, Answered dictid HllCmd.pfcount.proc (HllCmd.pfcount.argv key) now world s key t
      (.error e, some x)) ↔ _ :=
    (exists_congr fun _ => pfcount_answered_iff hx h _).trans (pfcountOutcome_error_iff hx)
  rw [forall_mem_cons, forall_mem_singleton, hadd, hcount]
  constructor
  · rintro ⟨hinvalid, hvalid, ops, hops, hbad⟩
    exact ⟨hvalid, ops, hops, hbad, (hllSparseAdd_eq_invalid_iff hops hbad).mp hinvalid⟩
  · rintro ⟨hvalid, ops, hops, hbad, hcond⟩
    exact ⟨(hllSparseAdd_eq_invalid_iff hops hbad).mpr hcond, hvalid, ops, hops, hbad⟩

end

end

/-- A header that a client has made up, with the last byte of the cardinality, and opcodes. -/
def madeUpHll (last : UInt8) (bytes : Sds) : Sds :=
  ascii "HYLL".toList ++ hllSparse :: replicate 10 0 ++ last :: bytes

/-- A run of two values and 64 zeros, and an element with a long pattern. -/
theorem hll_malformed_rejected_short :
    let _ := Host.plain 1 1 Nat.one_pos
    let x := madeUpHll 0x80 [0x89, 0x3f]
    ∀ cmd ∈ [HllCmd.pfadd [[97]], .pfcount],
      ∃ e, Answered 0 cmd.proc (cmd.argv [107]) 0 (fun _ => 0)
        (Server.single 0 [107] (.str ⟨0, false, .raw x⟩)) [107] none (.error e, some x) := by
  intro _ x
  have ho : Robj.Denotes ⟨0, false, .raw x⟩ x := rfl
  have hfound := (Server.single_keyIs 0 [107] _).strFound ho 0
  refine (hll_malformed_rejected_iff ⟨by decide, by decide, by decide⟩ hfound [97] _).mpr
    ⟨by decide, [.val 3 2, .zero 64], by decide +kernel, by decide +kernel, .inr ⟨.inl
      (by decide +kernel), ?_⟩⟩
  simp only [hllInside, HllOp.Inside, and_true]
  decide +kernel

/-- One opcode for 64 registers is enough for PFADD to add to the first one, and no opcode is needed
for PFCOUNT to reply with the number in the header. -/
theorem hll_malformed_accepted :
    let _ := Host.plain 1 1 Nat.one_pos
    hllOpcodes [0x3f] = some [.zero 64] ∧
      (call 0 Handler.pfaddCommand ((HllCmd.pfadd [replicate 64 255 ++ [64]]).argv [107])
        0 (fun _ => 0)
        (Server.single 0 [107] (.str ⟨0, false, .raw (madeUpHll 0x80 [0x3f])⟩))).map Prod.fst =
          some [.int 1] ∧
      (call 0 Handler.pfcountCommand (HllCmd.pfcount.argv [107]) 0 (fun _ => 0)
        (Server.single 0 [107] (.str ⟨0, false, .raw (madeUpHll 0 [0x3f])⟩))).map Prod.fst =
          some [.int 0] := by
  decide +kernel

end Vire
