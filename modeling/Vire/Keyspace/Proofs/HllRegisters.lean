import Vire.Keyspace.Proofs.Hll
import Vire.Keyspace.Proofs.Object
import Vire.Logic.Packed

/-!
# Adding to a HyperLogLog

Adding an element sets its register to the length of its pattern if that is more, through every
split and through the promotion to the dense encoding.
-/

namespace Vire

open List Option Logic

def hllBit (regnum : ℕ) : ℕ := 8 * hllHdrSize + 6 * regnum

theorem hllDenseGetRegister_eq (s : Sds) (regnum : ℕ) :
    hllDenseGetRegister s regnum = getField s (hllBit regnum) 6 := by
  rw [hllDenseGetRegister, getField, hllBit, hllHdrSize, show (8 * 16 + 6 * regnum) / 8 =
    16 + regnum * 6 / 8 by omega,
    show (8 * 16 + 6 * regnum) % 8 = regnum * 6 % 8 by omega]
  rfl

theorem hllDenseSetRegister_eq (s : Sds) (regnum val : ℕ) :
    hllDenseSetRegister s regnum val = setField s (hllBit regnum) 6 val := by
  rw [hllDenseSetRegister, setField, hllBit, hllHdrSize, show (8 * 16 + 6 * regnum) / 8 =
    16 + regnum * 6 / 8 by omega,
    show (8 * 16 + 6 * regnum) % 8 = regnum * 6 % 8 by omega]
  rfl

def hllDenseRegs (s : Sds) : List ℕ := (range hllRegisters).map (hllDenseGetRegister s)

theorem length_hllDenseRegs (s : Sds) : (hllDenseRegs s).length = hllRegisters := by
  rw [hllDenseRegs, length_map, length_range]

theorem getElem?_hllDenseRegs (s : Sds) {i : ℕ} (hi : i < hllRegisters) :
    (hllDenseRegs s)[i]? = some (hllDenseGetRegister s i) := by
  rw [hllDenseRegs, getElem?_map, getElem?_range hi, map_some]

section

variable {s : Sds} {regnum val : ℕ}

theorem length_hllDenseSetRegister : (hllDenseSetRegister s regnum val).length = s.length := by
  rw [hllDenseSetRegister_eq, length_setField]

theorem hllDenseRegs_set (hlen : s.length = hllDenseSize) (hr : regnum < hllRegisters)
    (hv : val < 64) :
    hllDenseRegs (hllDenseSetRegister s regnum val) = (hllDenseRegs s).set regnum val := by
  have hs : hllBit regnum + 6 ≤ 8 * s.length := by
    rw [hlen, hllDenseSize, hllDenseBytes, hllBit, hllHdrSize]
    rw [hllRegisters] at hr
    omega
  refine ext_getElem? fun i => ?_
  rcases Nat.lt_or_ge i hllRegisters with hi | hi
  · rw [getElem?_hllDenseRegs _ hi, hllDenseGetRegister_eq, hllDenseSetRegister_eq, getElem?_set,
      length_hllDenseRegs, if_pos hr]
    split_ifs with heq
    · rw [← heq, getField_setField_self (by decide) hv hs]
    · rw [getField_setField_of_disjoint (by decide) hv hs (by rw [hllBit, hllBit]; omega),
        getElem?_hllDenseRegs _ hi, hllDenseGetRegister_eq]
  · rw [getElem?_eq_none (by rwa [length_hllDenseRegs]),
      getElem?_eq_none (by rwa [length_set, length_hllDenseRegs])]

theorem take_hllDenseSetRegister (s : Sds) (regnum val : ℕ) :
    (hllDenseSetRegister s regnum val).take hllHdrSize = s.take hllHdrSize := by
  rw [hllDenseSetRegister, take_set_of_le (by omega), take_set_of_le (by omega)]

end

theorem int32_natCast {n : ℕ} (h : n ≤ hllRegisters) : int32 n = n := by
  rw [hllRegisters] at h
  exact int32_of_lt (by omega) (by omega)

variable {ops : List HllOp} {s : Sds}

theorem hllSparseIdx_eq (hops : hllOpcodes (s.drop hllHdrSize) = some ops) :
    hllSparseIdx s = some (int32 (hllOpsRegs ops).length) := by
  have hfold (ops : List HllOp) (n : ℕ) :
      ops.foldlM (fun idx op => some (int32 (idx + op.runlen))) (int32 n) =
        some (int32 (n + (hllOpsRegs ops).length : ℕ)) := by
    induction ops generalizing n with
    | nil => rfl
    | cons op ops ih =>
      rw [foldlM_cons, int32_int32_add, ← Nat.cast_add, hllOpsRegs_cons, length_append,
        op.length_regs, ← Nat.add_assoc]
      exact ih _
  rw [hllSparseIdx, hllScan_eq, hops, bind_some]
  exact (hfold ops 0).trans (by rw [Nat.zero_add])

/-- A dense string with this header, whose first registers are `done`, and all others are 0. -/
structure HllFilled (hdr s : Sds) (done : List ℕ) : Prop where
  hdr_eq : s.take hllHdrSize = hdr
  length : s.length = hllDenseSize
  done_le : done.length ≤ hllRegisters
  regs : hllDenseRegs s = done ++ replicate (hllRegisters - done.length) 0

section

variable {hdr s : Sds} {done : List ℕ}

section

variable (h : HllFilled hdr s done)

include h

theorem HllFilled.skip {n : ℕ} (hn : done.length + n ≤ hllRegisters) :
    HllFilled hdr s (done ++ replicate n 0) := by
  refine ⟨h.hdr_eq, h.length, by rwa [length_append, length_replicate], ?_⟩
  rw [h.regs, append_assoc, replicate_append_replicate, length_append, length_replicate]
  congr 2
  omega

theorem HllFilled.set {v : ℕ} (hlt : done.length < hllRegisters) (hv : v < 64) :
    HllFilled hdr (hllDenseSetRegister s done.length v) (done ++ [v]) := by
  refine ⟨by rw [take_hllDenseSetRegister, h.hdr_eq], by rw [length_hllDenseSetRegister, h.length],
    by rw [length_append]; exact hlt, ?_⟩
  obtain ⟨k, hk⟩ : ∃ k, hllRegisters - done.length = k + 1 :=
    ⟨hllRegisters - done.length - 1, by omega⟩
  rw [hllDenseRegs_set h.length hlt hv, h.regs, set_append_right _ _ le_rfl, Nat.sub_self, hk,
    replicate_succ, set_cons_zero, append_assoc, length_append, length_singleton,
    show hllRegisters - (done.length + 1) = k by omega]
  rfl

theorem HllFilled.setRun {v n : ℕ} (hn : done.length + n ≤ hllRegisters) (hv : v < 64) :
    ∃ s', hllSetRun v n ((done.length : ℤ), s) = some (((done.length + n : ℕ) : ℤ), s') ∧
      HllFilled hdr s' (done ++ replicate n v) := by
  induction n generalizing s done with
  | zero => exact ⟨s, rfl, by rwa [replicate_zero, append_nil]⟩
  | succ n ih =>
    have hset := h.set (v := v) (by omega) hv
    have hlen : (done ++ [v]).length = done.length + 1 := by rw [length_append, length_singleton]
    obtain ⟨s', hrun, hs'⟩ := ih hset (by omega)
    refine ⟨s', ?_, by rwa [append_assoc, singleton_append, ← replicate_succ] at hs'⟩
    rw [hllSetRun, if_pos (by omega), ← Int.natCast_succ, int32_natCast (by omega),
      Int.toNat_natCast]
    rw [hlen] at hrun
    rw [hrun, Nat.add_assoc, Nat.add_comm 1 n]

theorem HllFilled.step {op : HllOp} (hfits : op.Fits)
    (hn : done.length + op.runlen ≤ hllRegisters) :
    ∃ s', hllToDenseStep ((done.length : ℤ), s) op =
      some (((done.length + op.runlen : ℕ) : ℤ), s') ∧ HllFilled hdr s' (done ++ op.regs) := by
  cases op with
  | zero len =>
    refine ⟨s, ?_, h.skip hn⟩
    rw [hllToDenseStep, ← Nat.cast_add, int32_natCast hn]
    simp
  | xzero len =>
    refine ⟨s, ?_, h.skip hn⟩
    rw [hllToDenseStep, ← Nat.cast_add, int32_natCast hn]
    simp
  | val value len => exact h.setRun hn (by have := hfits.1.2; omega)

theorem HllFilled.run (hfits : ∀ op ∈ ops, op.Fits)
    (hn : done.length + (hllOpsRegs ops).length ≤ hllRegisters) :
    ∃ s', ops.foldlM hllToDenseStep ((done.length : ℤ), s) =
        some (((done.length + (hllOpsRegs ops).length : ℕ) : ℤ), s') ∧
      HllFilled hdr s' (done ++ hllOpsRegs ops) := by
  induction ops generalizing s done with
  | nil => exact ⟨s, rfl, by rwa [hllOpsRegs_nil, append_nil]⟩
  | cons op ops ih =>
    obtain ⟨hop, hops⟩ := forall_mem_cons.mp hfits
    rw [hllOpsRegs_cons, length_append, op.length_regs] at hn ⊢
    obtain ⟨s1, hstep, h1⟩ := h.step hop (by omega)
    have hlen : (done ++ op.regs).length = done.length + op.runlen := by
      rw [length_append, op.length_regs]
    obtain ⟨s2, hfold, h2⟩ := ih h1 hops (by omega)
    refine ⟨s2, ?_, by rwa [append_assoc] at h2⟩
    rw [hlen] at hfold
    rw [foldlM_cons, hstep, ← Nat.add_assoc]
    exact hfold

end

end

theorem hllFilled_new {hdr : Sds} (hhdr : hdr.length = hllHdrSize) (bytes : Sds) :
    HllFilled (hdr.set 4 hllDense) (hllDenseNew (hdr ++ bytes)) [] := by
  have hlen : (hdr.set 4 hllDense).length = hllHdrSize := by rw [length_set, hhdr]
  have hnew : hllDenseNew (hdr ++ bytes) =
      hdr.set 4 hllDense ++ replicate hllDenseBytes 0 := by
    rw [hllDenseNew, take_left' hhdr]
  have hzero (i : ℕ) :
      (hdr.set 4 hllDense ++ replicate hllDenseBytes 0).getD (hllHdrSize + i) 0 = 0 := by
    rw [getD_append_right _ _ _ _ (by omega), hlen, Nat.add_sub_cancel_left, getD_eq_getElem?_getD,
      getElem?_replicate]
    split_ifs <;> rfl
  rw [hnew]
  refine ⟨take_left' hlen, by rw [length_append, hlen, length_replicate]; rfl, Nat.zero_le _, ?_⟩
  rw [nil_append, length_nil, Nat.sub_zero, hllDenseRegs, eq_replicate_iff]
  refine ⟨by rw [length_map, length_range], fun x hx => ?_⟩
  obtain ⟨i, -, rfl⟩ := List.mem_map.mp hx
  simp only [hllDenseGetRegister, Nat.add_assoc, hzero]
  simp

theorem hllSparseToDense_spec {hdr bytes : Sds} (hhdr : hdr.length = hllHdrSize)
    (hops : hllOpcodes bytes = some ops) (hlen : (hllOpsRegs ops).length = hllRegisters) :
    ∃ d, hllSparseToDense (hdr ++ bytes) = some (some d) ∧ d.take hllHdrSize = hdr.set 4 hllDense ∧
      d.length = hllDenseSize ∧ hllDenseRegs d = hllOpsRegs ops := by
  obtain ⟨d, hfold, hd⟩ := (hllFilled_new hhdr bytes).run (hllOpcodes_fits hops)
    (by rw [hlen, length_nil, Nat.zero_add])
  have hregs := hd.regs
  rw [nil_append, hlen, Nat.sub_self, replicate_zero, append_nil] at hregs
  rw [length_nil, Nat.cast_zero, Nat.zero_add, hlen] at hfold
  refine ⟨d, ?_, hd.hdr_eq, hd.length, hregs⟩
  rw [hllSparseToDense, drop_left' hhdr, hllScan_eq, hops, bind_some, hfold]
  simp

/-- The registers a string stands for; `none` if the last opcode is cut off. -/
def hllRegs (s : Sds) : Option (List ℕ) :=
  if hllEncoding s = hllDense then some (hllDenseRegs s)
    else (hllOpcodes (s.drop hllHdrSize)).map hllOpsRegs

/-- A HyperLogLog with these registers, 16384 of them. -/
structure HllIs (s : Sds) (regs : List ℕ) : Prop where
  magic : s.take 4 = ascii "HYLL".toList
  encoding : hllEncoding s = hllDense ∧ s.length = hllDenseSize ∨ hllEncoding s = hllSparse ∧
    hllHdrSize ≤ s.length
  regs_eq : hllRegs s = some regs
  length : regs.length = hllRegisters

variable {regs : List ℕ}

theorem HllIs.hdrSize_le (h : HllIs s regs) : hllHdrSize ≤ s.length := by
  rcases h.encoding with ⟨-, hlen⟩ | ⟨-, hlen⟩
  · rw [hlen]
    decide
  · exact hlen

variable {s' : Sds}

theorem hllHeader (h : s'.take hllHdrSize = s.take hllHdrSize) :
    s'.take 4 = s.take 4 ∧ hllEncoding s' = hllEncoding s ∧ hllValidCache s' = hllValidCache s := by
  have hget {i : ℕ} (hi : i < hllHdrSize) : s'.getD i 0 = s.getD i 0 := by
    rw [getD_eq_getElem?_getD, getD_eq_getElem?_getD, ← getElem?_take_of_lt hi, h,
      getElem?_take_of_lt hi]
  have htake := congrArg (take 4) h
  rw [take_take, take_take] at htake
  refine ⟨htake, hget (by decide), ?_⟩
  rw [hllValidCache, hllValidCache, hget (by decide)]

theorem hllDenseRegs_congr (h : s'.drop hllHdrSize = s.drop hllHdrSize) :
    hllDenseRegs s' = hllDenseRegs s := by
  have hget (i : ℕ) : s'.getD (hllHdrSize + i) 0 = s.getD (hllHdrSize + i) 0 := by
    rw [getD_eq_getElem?_getD, getD_eq_getElem?_getD, ← getElem?_drop, h, getElem?_drop]
  refine map_congr_left fun i _ => ?_
  simp only [hllDenseGetRegister, Nat.add_assoc, hget]

theorem HllIs.of_drop_eq (h : HllIs s regs)
    (hdrop : s'.drop hllHdrSize = s.drop hllHdrSize) (hlen : s'.length = s.length)
    (htake : s'.take 4 = s.take 4) (henc : hllEncoding s' = hllEncoding s) : HllIs s' regs := by
  refine ⟨by rw [htake, h.magic], by rw [henc, hlen]; exact h.encoding, ?_, h.length⟩
  rw [← h.regs_eq, hllRegs, hllRegs, henc, hdrop, hllDenseRegs_congr hdrop]

theorem HllIs.sparse (h : HllIs s regs) (henc : hllEncoding s ≠ hllDense) :
    ∃ hdr bytes ops, s = hdr ++ bytes ∧ hdr.length = hllHdrSize ∧ hllOpcodes bytes = some ops ∧
      hllOpsRegs ops = regs := by
  have hregs := h.regs_eq
  rw [hllRegs, if_neg henc] at hregs
  obtain ⟨ops, hops, rfl⟩ := map_eq_some_iff.mp hregs
  exact ⟨s.take hllHdrSize, s.drop hllHdrSize, ops, (take_append_drop ..).symm,
    by rw [length_take, Nat.min_eq_left h.hdrSize_le], hops, rfl⟩

theorem HllIs.getElem? (h : HllIs s regs) {i : ℕ} (hi : i < hllRegisters) :
    regs[i]? = some (regs.getD i 0) := by
  rw [getElem?_eq_getElem (by rwa [h.length]), getD_eq_getElem _ _ (by rwa [h.length])]

section

variable [Host]

theorem hllPatLen_index_lt (ele : Sds) : (hllPatLen ele).1 < hllRegisters :=
  Nat.mod_lt _ (by decide)

omit [Host] in
theorem hllPatLoop_le {hash : ℕ} (fuel bit count : ℕ) (hstop : hash.testBit 63 = true)
    (hfuel : bit + fuel = 64) (hbit : bit ≤ 63) : count ≤ hllPatLoop hash fuel bit count ∧
      hllPatLoop hash fuel bit count + 1 ≤ count + fuel := by
  induction fuel generalizing bit count with
  | zero => omega
  | succ fuel ih =>
    rw [hllPatLoop]
    split_ifs with hset
    · omega
    · have hne : bit ≠ 63 := by
        rintro rfl
        exact hset hstop
      have := ih (bit + 1) (count + 1) (by omega) (by omega)
      omega

theorem hllPatLen_mem (ele : Sds) : 1 ≤ (hllPatLen ele).2 ∧ (hllPatLen ele).2 ≤ 50 := by
  have hstop : ((Host.hllHash ele).toNat ||| 2 ^ 63).testBit 63 = true := by
    rw [Nat.testBit_or, Nat.testBit_two_pow_self, Bool.or_true]
  have h := hllPatLoop_le 50 14 1 hstop rfl (by decide)
  exact ⟨h.1, by rw [hllPatLen]; omega⟩

inductive HllAdded.Is (ele : Sds) (regs : List ℕ) : HllAdded → Prop
  | kept (h : (hllPatLen ele).2 ≤ regs.getD (hllPatLen ele).1 0) : Is ele regs .kept
  | grown {s : Sds} (h : regs.getD (hllPatLen ele).1 0 < (hllPatLen ele).2)
      (hs : HllIs s (regs.set (hllPatLen ele).1 (hllPatLen ele).2)) : Is ele regs (.grown s)

variable {s : Sds} {regs : List ℕ}

theorem hllDenseAdd_spec (h : HllIs s regs) (henc : hllEncoding s = hllDense) (ele : Sds) :
    (hllDenseAdd s ele).Is ele regs := by
  have hregs : hllDenseRegs s = regs := by
    have := h.regs_eq
    rwa [hllRegs, if_pos henc, some.injEq] at this
  have hlen : s.length = hllDenseSize := by
    rcases h.encoding with ⟨-, hlen⟩ | ⟨hsparse, -⟩
    · exact hlen
    · rw [henc] at hsparse
      exact absurd hsparse (by decide)
  have hindex := hllPatLen_index_lt ele
  have hget : hllDenseGetRegister s (hllPatLen ele).1 = regs.getD (hllPatLen ele).1 0 := by
    have := getElem?_hllDenseRegs s hindex
    rwa [hregs, h.getElem? hindex, some.injEq, eq_comm] at this
  rw [hllDenseAdd, hget]
  split_ifs with hlt
  · obtain ⟨hmagic, hencoding, -⟩ :=
      hllHeader (take_hllDenseSetRegister s (hllPatLen ele).1 (hllPatLen ele).2)
    have hcount := (hllPatLen_mem ele).2
    rw [henc] at hencoding
    refine .grown hlt
      ⟨by rw [hmagic, h.magic], .inl ⟨hencoding, by rw [length_hllDenseSetRegister, hlen]⟩, ?_, ?_⟩
    · rw [hllRegs, if_pos hencoding, hllDenseRegs_set hlen hindex (by omega), hregs]
    · rw [length_set, h.length]
  · exact .kept (Nat.not_lt.mp hlt)

theorem hllPromote_spec (h : HllIs s regs) (henc : hllEncoding s ≠ hllDense) {ele : Sds}
    (hlt : regs.getD (hllPatLen ele).1 0 < (hllPatLen ele).2) :
    ∃ r, hllPromote s ele = some r ∧ r.Is ele regs := by
  obtain ⟨hdr, bytes, ops, rfl, hhdr, hops, rfl⟩ := h.sparse henc
  obtain ⟨d, hdense, htake, hlen, hregs⟩ := hllSparseToDense_spec hhdr hops h.length
  have hheader : d.take hllHdrSize = ((hdr ++ bytes).set 4 hllDense).take hllHdrSize := by
    rw [htake, set_append_left _ _ (by rw [hhdr]; decide), take_left' (by rw [length_set, hhdr])]
  obtain ⟨hmagic, henc', -⟩ := hllHeader hheader
  have hdenc : hllEncoding d = hllDense := by
    rw [henc', hllEncoding, getD_set,
      if_pos ⟨rfl, by rw [length_append, hhdr]; exact Nat.lt_add_right _ (by decide)⟩]
  have hd : HllIs d (hllOpsRegs ops) := by
    refine ⟨?_, .inl ⟨hdenc, hlen⟩, by rw [hllRegs, if_pos hdenc, hregs], h.length⟩
    rw [hmagic, take_set_of_le le_rfl, h.magic]
  have hadd := hllDenseAdd_spec hd hdenc ele
  rw [hllPromote, hdense]
  dsimp only
  generalize hllDenseAdd d ele = r at hadd
  cases hadd with
  | kept hle => exact absurd hlt (Nat.not_lt.mpr hle)
  | grown hgrown hs => exact ⟨_, rfl, .grown hgrown hs⟩

omit [Host] in
theorem hllOpsRegs_le (hfits : ∀ op ∈ ops, op.Fits) :
    ∀ x ∈ hllOpsRegs ops, x ≤ 32 := by
  intro x hx
  obtain ⟨op, hop, hx⟩ := mem_flatMap.mp hx
  rw [eq_of_mem_replicate hx]
  cases op with
  | zero len => exact Nat.zero_le _
  | xzero len => exact Nat.zero_le _
  | val value len => exact (hfits _ hop).1.2

omit [Host] in
theorem HllIs.updated {hdr a o c seq : Sds} {l : HllPlace} {index count : ℕ}
    {pre post seqops : List HllOp} (hhdr : hdr.length = hllHdrSize)
    (h : HllIs (hdr ++ (a ++ o ++ c)) (hllOpsRegs (pre ++ l.op :: post)))
    (henc : hllEncoding (hdr ++ (a ++ o ++ c)) ≠ hllDense)
    (hf : l.Finds index hllHdrSize 0 none a o c pre post) (hseq : hllOpcodes seq = some seqops)
    (hregs : hllOpsRegs seqops = l.op.regs.set (index - l.first) count) :
    HllIs (hllSparseUpdated (hdr ++ (a ++ o ++ c)) l seq)
      ((hllOpsRegs (pre ++ l.op :: post)).set index count) := by
  obtain ⟨bytes, ops, hupdated, hops, hops'⟩ := hllSparseUpdated_spec hhdr hf hseq
  have hset : (hllOpsRegs (pre ++ l.op :: post)).set index count = hllOpsRegs ops := by
    have hfirst := hf.first_eq
    have hle := hf.first_le
    have hlast := hf.lt_last
    have hrun := l.op.length_regs
    rw [hops', hregs, hllOpsRegs_append, hllOpsRegs_cons, set_append_right _ _ (by omega),
      set_append_left _ _ (by omega), append_assoc, show index - (hllOpsRegs pre).length =
        index - l.first by omega]
  have hlen : (hllInvalidateCache hdr).length = hllHdrSize := by
    rw [hllInvalidateCache, length_set, hhdr]
  have hheader : (hllInvalidateCache hdr ++ bytes).take hllHdrSize =
      (hllInvalidateCache (hdr ++ (a ++ o ++ c))).take hllHdrSize := by
    rw [invalidateCache_append hhdr, take_left' hlen, take_left' hlen]
  obtain ⟨hmagic, hencoding, -⟩ := hllHeader hheader
  have henc' : hllEncoding (hllInvalidateCache (hdr ++ (a ++ o ++ c))) =
      hllEncoding (hdr ++ (a ++ o ++ c)) := by
    rw [hllEncoding, hllInvalidateCache, getD_set, if_neg (by omega), hllEncoding]
  rw [henc'] at hencoding
  rw [hupdated, hset]
  refine ⟨?_, .inr ⟨?_, ?_⟩, ?_, ?_⟩
  · rw [hmagic, hllInvalidateCache, take_set_of_le (by omega), h.magic]
  · rw [hencoding]
    exact (h.encoding.resolve_left fun hdense => henc hdense.1).1
  · rw [length_append, hlen]
    exact Nat.le_add_right ..
  · rw [hllRegs, if_neg (by rwa [hencoding]), drop_left' hlen, hops]
    rfl
  · rw [← hset, length_set, h.length]

theorem hllSparseReplace_spec {hdr a o c ele : Sds} {l : HllPlace} {pre post : List HllOp}
    (hhdr : hdr.length = hllHdrSize)
    (h : HllIs (hdr ++ (a ++ o ++ c)) (hllOpsRegs (pre ++ l.op :: post)))
    (henc : hllEncoding (hdr ++ (a ++ o ++ c)) ≠ hllDense)
    (hf : l.Finds (hllPatLen ele).1 hllHdrSize 0 none a o c pre post)
    (hcount : (hllPatLen ele).2 ≤ 32) :
    ∃ r, hllSparseReplace (hdr ++ (a ++ o ++ c)) ele (hllPatLen ele).1 (hllPatLen ele).2 l =
      some r ∧ r.Is ele (hllOpsRegs (pre ++ l.op :: post)) := by
  have hfirst := hf.first_eq
  have hle := hf.first_le
  have hlast := hf.lt_last
  have hrun := l.op.length_regs
  have hfits : l.op.Fits := hllOpcodes_fits hf.here _ (mem_singleton_self _)
  have hcount' : 1 ≤ (hllPatLen ele).2 ∧ (hllPatLen ele).2 ≤ 32 := ⟨(hllPatLen_mem ele).1, hcount⟩
  have hold : (hllOpsRegs (pre ++ l.op :: post)).getD (hllPatLen ele).1 0 = l.op.regval := by
    rw [hllOpsRegs_append, hllOpsRegs_cons, getD_append_right _ _ _ _ (by omega),
      getD_append _ _ _ _ (by omega), HllOp.regs, getD_replicate _ (by omega)]
  have hgrown {seq : Sds} {seqops : List HllOp} (hlt : l.op.regval < (hllPatLen ele).2)
      (hseq : hllOpcodes seq = some seqops)
      (hregs : hllOpsRegs seqops = l.op.regs.set ((hllPatLen ele).1 - l.first) (hllPatLen ele).2) :
      ∃ r, some (HllAdded.grown (hllSparseUpdated (hdr ++ (a ++ o ++ c)) l seq)) = some r ∧
        r.Is ele (hllOpsRegs (pre ++ l.op :: post)) :=
    ⟨_, rfl, .grown (by rwa [hold]) (h.updated hhdr henc hf hseq hregs)⟩
  -- an opcode for one register is overwritten
  have hone (hlt : l.op.regval < (hllPatLen ele).2) (hlen : l.op.runlen = 1) :=
    hgrown hlt (hllOpcodes_valSet hcount' ⟨le_rfl, by norm_num⟩)
      (by rw [HllOp.regs, hlen, show (hllPatLen ele).1 - l.first = 0 by omega]; rfl)
  -- any other opcode is split, as long as the limit is kept
  have hgeneral (hlt : l.op.regval < (hllPatLen ele).2) :
      ∃ r, hllSparseSubstitute (hdr ++ (a ++ o ++ c)) ele l
          (hllSplit (hllPatLen ele).1 (hllPatLen ele).2 l.first l.op) = some r ∧
        r.Is ele (hllOpsRegs (pre ++ l.op :: post)) := by
    unfold hllSparseSubstitute
    split_ifs
    · exact hllPromote_spec h henc (by rwa [hold])
    · obtain ⟨seqops, hseq, hregs⟩ := hllSplit_spec hfits hcount' hle hlast
      exact hgrown hlt hseq hregs
  unfold hllSparseReplace
  split
  · next oldcount runlen hop =>
    have hval : l.op.regval = oldcount := by rw [hop]; rfl
    split_ifs with hkept hlen
    · exact ⟨_, rfl, .kept (by rwa [hold, hval])⟩
    · exact hone (by omega) (by rw [hop]; exact hlen)
    · exact hgeneral (by omega)
  · next hop => exact hone (by rw [hop]; exact hcount'.1) (by rw [hop]; rfl)
  · next hval hzero =>
    refine hgeneral ?_
    cases hop : l.op with
    | zero len => exact hcount'.1
    | xzero len => exact hcount'.1
    | val value len => exact absurd hop (hval value len)

theorem hllSparseAdd_spec (h : HllIs s regs) (henc : hllEncoding s ≠ hllDense) (ele : Sds) :
    ∃ r, hllSparseAdd s ele = some r ∧ r.Is ele regs := by
  obtain ⟨hdr, bytes, ops, rfl, hhdr, hops, rfl⟩ := h.sparse henc
  have hindex := hllPatLen_index_lt ele
  rw [hllSparseAdd]
  split_ifs with hbig
  · refine hllPromote_spec h henc ?_
    have hmem := hllOpsRegs_le (hllOpcodes_fits hops) _ (mem_of_getElem? (h.getElem? hindex))
    omega
  · obtain ⟨l, a, o, c, pre, post, hlocate, rfl, rfl, hf⟩ :=
      hllLocate_found hops (Nat.zero_le (hllPatLen ele).1)
      (by rwa [h.length, Nat.zero_add]) hllHdrSize none 0
    rw [drop_left' hhdr, hlocate]
    exact hllSparseReplace_spec hhdr h henc hf (Nat.not_lt.mp hbig)

theorem hllAdd_spec (h : HllIs s regs) (ele : Sds) :
    ∃ r, hllAdd s ele = some r ∧ r.Is ele regs := by
  rw [hllAdd]
  split_ifs with hdense hsparse
  · exact ⟨_, rfl, hllDenseAdd_spec h hdense ele⟩
  · exact hllSparseAdd_spec h hdense ele
  · exact absurd (h.encoding.resolve_left fun henc => hdense henc.1).1 hsparse

end

end Vire
