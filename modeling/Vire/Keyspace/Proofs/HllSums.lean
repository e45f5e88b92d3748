import Mathlib.Algebra.BigOperators.Group.List.Basic
import Mathlib.Algebra.Group.Prod
import Mathlib.Tactic.Ring
import Vire.Keyspace.Proofs.HllCommands

/-!
# Three views of the registers

A HyperLogLog is a sparse string, a dense string, or an array of bytes into which others are merged.
Each has a loop of its own that adds up the table entries of the registers: over runs, over sixteen
registers in twelve bytes, and over words of eight bytes.  All of them come to `hllSum`.
-/

namespace Vire

open List Option

/-- The sum of the table entries, and the number of zeros. -/
def hllSum (PE : ℕ → ℚ) (regs : List ℕ) : ℚ × ℕ := ((regs.map PE).sum, regs.count 0)

variable {PE : ℕ → ℚ} {s : Sds} {regs : List ℕ}

theorem hllSum_nil : hllSum PE [] = 0 := rfl

theorem hllSum_append (a b : List ℕ) : hllSum PE (a ++ b) = hllSum PE a + hllSum PE b := by
  rw [hllSum, map_append, sum_append, count_append]
  rfl

theorem hllSum_flatMap {α : Type} (f : α → List ℕ) (l : List α) (st : ℚ × ℕ) :
    l.foldl (fun st x => st + hllSum PE (f x)) st = st + hllSum PE (l.flatMap f) := by
  induction l generalizing st with
  | nil => rw [foldl_nil, flatMap_nil, hllSum_nil, add_zero]
  | cons x l ih => rw [foldl_cons, ih, flatMap_cons, hllSum_append, add_assoc]

theorem flatMap_chunks {α : Type} (l : List α) (k n : ℕ) :
    (range n).flatMap (fun j => (l.drop (k * j)).take k) = l.take (k * n) := by
  induction n with
  | zero => rfl
  | succ n ih => rw [range_succ, flatMap_append, ih, flatMap_singleton, Nat.mul_succ, take_add]

theorem or_shiftLeft_and (x y : ℕ) {k : ℕ} (hk : 6 ≤ k) : (x ||| y <<< k) % 64 = x &&& 63 := by
  refine Nat.eq_of_testBit_eq fun i => ?_
  rw [show 64 = 2 ^ 6 from rfl, show 63 = 2 ^ 6 - 1 from rfl, Nat.testBit_mod_two_pow,
    Nat.testBit_and, Nat.testBit_two_pow_sub_one, Nat.testBit_or, Nat.testBit_shiftLeft]
  by_cases hi : i < 6
  · simp [hi, show ¬ k ≤ i by omega]
  · simp [hi]

theorem hllFour_eq (s : Sds) (q : ℕ) :
    hllFour (s.getD (hllHdrSize + 3 * q) 0).toNat (s.getD (hllHdrSize + (3 * q + 1)) 0).toNat
        (s.getD (hllHdrSize + (3 * q + 2)) 0).toNat =
      (range' (4 * q) 4).map (hllDenseGetRegister s) := by
  have hget (t : ℕ) : hllDenseGetRegister s (4 * q + t) =
      (((s.getD (hllHdrSize + (3 * q + t * 6 / 8)) 0).toNat >>> (t * 6 % 8)) |||
        ((s.getD (hllHdrSize + (3 * q + t * 6 / 8 + 1)) 0).toNat <<< (8 - t * 6 % 8))) % 64 := by
    rw [hllDenseGetRegister, show (4 * q + t) * 6 / 8 = 3 * q + t * 6 / 8 by omega,
      show (4 * q + t) * 6 % 8 = t * 6 % 8 by omega]
    rfl
  have hmod (x : ℕ) : x &&& 63 = x % 64 := Nat.and_two_pow_sub_one_eq_mod x 6
  -- the first and the last register of four lie in one byte each
  have h0 : hllDenseGetRegister s (4 * q) = _ := (hget 0).trans (or_shiftLeft_and _ _ (by decide))
  have h3 : hllDenseGetRegister s (4 * q + 3) = _ :=
    (hget 3).trans (or_shiftLeft_and _ _ (by decide))
  have h1 : hllDenseGetRegister s (4 * q + 1) = _ := (hget 1).trans (hmod _).symm
  have h2 : hllDenseGetRegister s (4 * q + 2) = _ := (hget 2).trans (hmod _).symm
  simp only [range', map_cons, map_nil, h0, Nat.add_assoc, h1, h2, h3]
  rfl

theorem hllSixteen_eq (s : Sds) (j : ℕ) :
    hllSixteen s j = (range' (16 * j) 16).map (hllDenseGetRegister s) := by
  have hfour (i : ℕ) := hllFour_eq s (4 * j + i)
  simp only [show ∀ i, 3 * (4 * j + i) = 12 * j + 3 * i by omega, Nat.mul_add, ← Nat.mul_assoc,
    show 4 * 4 = 16 from rfl] at hfour
  have hquads : hllSixteen s j = (range 4).flatMap fun i =>
      (range' (16 * j + 4 * i) 4).map (hllDenseGetRegister s) := by
    simp only [← hfour]
    simp [range_succ, hllSixteen]
  rw [hquads]
  simp [range_succ, range']

theorem hllSixteen_chunk (s : Sds) {j : ℕ} (hj : j < 1024) :
    hllSixteen s j = ((hllDenseRegs s).drop (16 * j)).take 16 := by
  rw [hllSixteen_eq, hllDenseRegs, hllRegisters, ← map_drop, ← map_take, range_eq_range',
    drop_range', show 16384 - 16 * j = 16 + (16368 - 16 * j) by omega, ← range'_append_1,
    take_left' length_range', Nat.mul_one, Nat.zero_add]

theorem hllDenseSum_eq (PE : ℕ → ℚ) (s : Sds) : hllDenseSum PE s = hllSum PE (hllDenseRegs s) := by
  calc hllDenseSum PE s
      = (range 1024).foldl
        (fun st j => st + hllSum PE (((hllDenseRegs s).drop (16 * j)).take 16)) 0 := by
        refine foldl_ext _ _ _ fun st j hj => ?_
        rw [← hllSixteen_chunk s (mem_range.mp hj)]
        rfl
    _ = hllSum PE (hllDenseRegs s) := by
        rw [hllSum_flatMap, flatMap_chunks, zero_add,
          take_of_length_le (by rw [length_hllDenseRegs]; decide)]

/-! ## Runs and words

These loops leave out the zeros and add their number at the end. -/

def nonzero (PE : ℕ → ℚ) (r : ℕ) : ℚ := if r = 0 then 0 else PE r

theorem hllSum_nonzero (hPE : PE 0 = 1) (regs : List ℕ) :
    (let st := hllSum (nonzero PE) regs; (st.1 + st.2, st.2)) = hllSum PE regs := by
  induction regs with
  | nil => simp [hllSum]
  | cons r regs ih =>
    have hsum : ((regs.map (nonzero PE)).sum + (regs.count 0 : ℚ)) = (regs.map PE).sum :=
      congrArg Prod.fst ih
    by_cases hr : r = 0
    · simp [hllSum, nonzero, hr, hPE, ← hsum]
      ring
    · simp [hllSum, nonzero, hr, ← hsum, add_assoc]

theorem hllSum_replicate (n r : ℕ) :
    hllSum PE (replicate n r) = (PE r * n, if r = 0 then n else 0) := by
  simp [hllSum, count_replicate, mul_comm]

theorem hllSparseSumStep_eq {op : HllOp} (h : op.Fits) (st : ℚ × ℕ) :
    hllSparseSumStep PE st op = st + hllSum (nonzero PE) op.regs := by
  rw [HllOp.regs, hllSum_replicate]
  cases op with
  | zero len => simp [hllSparseSumStep, HllOp.regval, nonzero, Prod.ext_iff]
  | xzero len => simp [hllSparseSumStep, HllOp.regval, nonzero, Prod.ext_iff]
  | val value len =>
    have hne : value ≠ 0 := by have := h.1.1; omega
    simp [hllSparseSumStep, HllOp.regval, HllOp.runlen, nonzero, hne, Prod.ext_iff]

theorem hllSparseSum_eq (hPE : PE 0 = 1) {ops : List HllOp}
    (hops : hllOpcodes (s.drop hllHdrSize) = some ops) :
    hllSparseSum PE s = some (hllSum PE (hllOpsRegs ops)) := by
  have hfold (ops : List HllOp) (hfits : ∀ op ∈ ops, op.Fits) (st : ℚ × ℕ) :
      ops.foldlM (fun st op => some (hllSparseSumStep PE st op)) st =
        some (st + hllSum (nonzero PE) (hllOpsRegs ops)) := by
    rw [hllOpsRegs, ← hllSum_flatMap]
    induction ops generalizing st with
    | nil => rfl
    | cons op ops ih =>
      rw [foldlM_cons, foldl_cons, ← hllSparseSumStep_eq (hfits op mem_cons_self)]
      exact ih (fun op hop => hfits op (mem_cons_of_mem _ hop)) _
  rw [hllSparseSum, hllScan_eq, hops, bind_some, hfold ops (hllOpcodes_fits hops), map_some,
    ← hllSum_nonzero hPE]
  simp

theorem hllRawWord_eq (st : ℚ × ℕ) {bytes : List ℕ} (hlen : bytes.length = 8) :
    hllRawWord PE st bytes = st + hllSum (nonzero PE) bytes := by
  unfold hllRawWord
  split_ifs with hall
  · have hzero : bytes = replicate 8 0 := eq_replicate_iff.mpr ⟨hlen, by simpa using hall⟩
    rw [hzero, hllSum_replicate]
    simp [nonzero, Prod.ext_iff]
  · have hbyte (st : ℚ × ℕ) (b : ℕ) : hllRawByte PE st b = st + hllSum (nonzero PE) [b] := by
      by_cases hb : b = 0 <;> simp [hllRawByte, hllSum, nonzero, hb, Prod.ext_iff]
    simp only [funext₂ hbyte, hllSum_flatMap, flatMap_singleton']

theorem hllRawSum_eq (hPE : PE 0 = 1) (hlen : regs.length = hllRegisters) :
    hllRawSum PE regs = hllSum PE regs := by
  have hword (st : ℚ × ℕ) (j : ℕ) (hj : j ∈ range (hllRegisters / 8)) :
      hllRawWord PE st ((regs.drop (8 * j)).take 8) =
        st + hllSum (nonzero PE) ((regs.drop (8 * j)).take 8) := by
    refine hllRawWord_eq st ?_
    have := mem_range.mp hj
    rw [length_take, length_drop, hlen]
    rw [hllRegisters] at this ⊢
    omega
  have hfold : (range (hllRegisters / 8)).foldl
      (fun st j => hllRawWord PE st ((regs.drop (8 * j)).take 8)) 0 = hllSum (nonzero PE) regs := by
    rw [foldl_ext _ _ _ hword, hllSum_flatMap, flatMap_chunks, zero_add,
      take_of_length_le (by rw [hlen]; decide)]
  rw [hllRawSum, Prod.mk_zero_zero, hfold]
  exact hllSum_nonzero hPE regs

theorem hllMaxRun_eq (v : ℕ) (pre mid post : List ℕ)
    (hle : pre.length + mid.length ≤ hllRegisters) :
    hllMaxRun v mid.length ((pre.length : ℤ), pre ++ (mid ++ post)) =
      some (((pre.length + mid.length : ℕ) : ℤ), pre ++ (mid.map (max · v) ++ post)) := by
  induction mid generalizing pre with
  | nil => rfl
  | cons x mid ih =>
    rw [length_cons] at hle
    have hnext := ih (pre ++ [max x v]) (by rw [length_append, length_singleton]; omega)
    rw [length_append, length_singleton, append_assoc, append_assoc] at hnext
    rw [length_cons, hllMaxRun, if_pos (by omega), Int.toNat_natCast,
      getD_append_right _ _ _ _ le_rfl,
      set_append_right _ _ le_rfl, Nat.sub_self, ← Int.natCast_succ, int32_natCast (by omega),
      Nat.add_comm mid.length, ← Nat.add_assoc]
    exact hnext

theorem zipWith_replicate_self (l : List ℕ) (v : ℕ) :
    zipWith max l (replicate l.length v) = l.map (max · v) := by
  induction l with
  | nil => rfl
  | cons x l ih => rw [length_cons, replicate_succ, zipWith_cons_cons, ih, map_cons]

theorem hllMergeStep_eq {op : HllOp} (pre mid post : List ℕ) (hop : mid.length = op.runlen)
    (hle : pre.length + mid.length ≤ hllRegisters) :
    hllMergeStep ((pre.length : ℤ), pre ++ (mid ++ post)) op =
      some (((pre.length + mid.length : ℕ) : ℤ),
        pre ++ (zipWith max mid op.regs ++ post)) := by
  rw [HllOp.regs, ← hop, zipWith_replicate_self]
  cases op with
  | zero len | xzero len =>
    obtain rfl : mid.length = len := hop
    simp only [hllMergeStep, HllOp.runlen, HllOp.regval, Nat.max_zero, List.map_id', ← Nat.cast_add,
      int32_natCast hle]
  | val value len =>
    obtain rfl : mid.length = len := hop
    exact hllMaxRun_eq value pre mid post hle

theorem hllMerge_run (ops : List HllOp) (pre rest : List ℕ)
    (hlen : rest.length = (hllOpsRegs ops).length) (hle : pre.length + rest.length ≤ hllRegisters) :
    ops.foldlM hllMergeStep ((pre.length : ℤ), pre ++ rest) =
      some (((pre.length + rest.length : ℕ) : ℤ),
        pre ++ zipWith max rest (hllOpsRegs ops)) := by
  induction ops generalizing pre rest with
  | nil =>
    obtain rfl := eq_nil_of_length_eq_zero hlen
    rfl
  | cons op ops ih =>
    have hregs : op.regs.length = op.runlen := length_replicate
    rw [hllOpsRegs_cons, length_append, hregs] at hlen
    obtain ⟨mid, post, rfl, hmid⟩ : ∃ mid post, rest = mid ++ post ∧ mid.length = op.runlen :=
      ⟨rest.take op.runlen, rest.drop op.runlen, (take_append_drop ..).symm,
        by rw [length_take]; omega⟩
    have hpre : (zipWith max mid op.regs).length = mid.length := by
      rw [length_zipWith, hregs, hmid, Nat.min_self]
    rw [length_append] at hlen hle
    have hnext :=
      ih (pre ++ zipWith max mid op.regs) post (by omega) (by rw [length_append]; omega)
    rw [length_append, hpre, append_assoc, append_assoc, Nat.add_assoc] at hnext
    rw [foldlM_cons, hllMergeStep_eq pre mid post hmid (by omega), length_append, hllOpsRegs_cons,
      zipWith_append (by rw [hregs, hmid])]
    exact hnext

theorem hllMerge_eq (h : HllIs s regs) {old : List ℕ} (hold : old.length = hllRegisters) :
    hllMerge old s = some (some (zipWith max old regs)) := by
  by_cases henc : hllEncoding s = hllDense
  · have hregs := h.regs_eq
    rw [hllRegs, if_pos henc, some_inj] at hregs
    rw [hllMerge, if_pos henc, ← hregs]
    refine congrArg (some ∘ some)
      (ext_getElem (by simp [hold, length_hllDenseRegs]) fun i h1 h2 => ?_)
    rw [length_zipWith] at h2
    rw [getElem_map, getElem_range, getElem_zipWith, getD_eq_getElem _ _ (by omega)]
    simp [hllDenseRegs]
  · obtain ⟨hdr, bytes, ops, rfl, hhdr, hops, rfl⟩ := h.sparse henc
    have hrun := hllMerge_run ops [] old (by rw [hold, h.length]) (by rw [hold]; simp)
    rw [length_nil, Nat.zero_add, hold] at hrun
    rw [hllMerge, if_neg henc, drop_left' hhdr, hllScan_eq, hops, bind_some]
    simpa using hrun

theorem hllMerge_copies (h : HllIs s regs) (n : ℕ) :
    (replicate (n + 1) s).foldlM (fun regs s => (hllMerge regs s).join)
      (replicate hllRegisters 0) = some regs := by
  have hself : zipWith max regs regs = regs := by rw [zipWith_self]; simp
  have hzero : zipWith max (replicate hllRegisters 0) regs = regs := by
    rw [zipWith_comm_of_comm Nat.max_comm, ← h.length, zipWith_replicate_self]
    simp
  have hagain (n : ℕ) : (replicate n s).foldlM (fun regs s => (hllMerge regs s).join) regs =
      some regs := by
    induction n with
    | zero => rfl
    | succ n ih =>
      rw [replicate_succ, foldlM_cons, hllMerge_eq h h.length, hself]
      exact ih
  rw [replicate_succ, foldlM_cons, hllMerge_eq h length_replicate, hzero]
  exact hagain n

/-- For every HyperLogLog: the dense form of a sparse string has the same registers, and so has the
array into which one or more copies of a string are merged; and the three sums are over the table
entries of these registers. -/
theorem hll_three_views (PE : ℕ → ℚ) (hPE : PE 0 = 1) (h : HllIs s regs) :
    (hllEncoding s = hllSparse → ∃ d, hllSparseToDense s = some (some d) ∧ hllDenseRegs d = regs ∧
      hllSparseSum PE s = some (hllSum PE regs) ∧ hllDenseSum PE d = hllSum PE regs) ∧
    (hllEncoding s = hllDense → hllDenseSum PE s = hllSum PE regs) ∧
    hllRawSum PE regs = hllSum PE regs ∧
    ∀ n, (replicate (n + 1) s).foldlM (fun regs s => (hllMerge regs s).join)
      (replicate hllRegisters 0) = some regs := by
  refine ⟨fun henc => ?_, fun henc => ?_, hllRawSum_eq hPE h.length, hllMerge_copies h⟩
  · obtain ⟨hdr, bytes, ops, rfl, hhdr, hops, rfl⟩ := h.sparse (by rw [henc]; decide)
    obtain ⟨d, hd, -, -, hregs⟩ := hllSparseToDense_spec hhdr hops h.length
    refine ⟨d, hd, hregs, hllSparseSum_eq hPE
      ((congrArg hllOpcodes (drop_left' hhdr)).trans hops), ?_⟩
    rw [hllDenseSum_eq, hregs]
  · have hregs := h.regs_eq
    rw [hllRegs, if_pos henc, some_inj] at hregs
    rw [hllDenseSum_eq, hregs]

/-- 100 zeros, two registers of 3, one of 5, and zeros. -/
def runsHll : Sds :=
  ascii "HYLL".toList ++ hllSparse :: replicate 11 0 ++ [0x40, 99, 0x89, 0x90, 0x7f, 0x98]

def runsOps : List HllOp := [.xzero 100, .val 3 2, .val 5 1, .xzero 16281]

theorem runsHll_is : HllIs runsHll (hllOpsRegs runsOps) := by
  refine ⟨by decide +kernel, .inr ⟨by decide +kernel, by decide +kernel⟩, ?_, ?_⟩
  swap
  · simp only [runsOps, hllOpsRegs_cons, hllOpsRegs_nil, HllOp.regs, HllOp.runlen, length_append,
      length_replicate, length_nil]
    rfl
  have hops : hllOpcodes (runsHll.drop hllHdrSize) = some runsOps := by decide +kernel
  rw [hllRegs, if_neg (by decide +kernel), hops, map_some]

theorem hll_three_views_runs :
    (∃ d, hllSparseToDense runsHll = some (some d) ∧ hllDenseRegs d = hllOpsRegs runsOps) ∧
      hllSparseSum (fun r => 1 / 2 ^ r) runsHll = some (16381 + 2 / 8 + 1 / 32, 16381) ∧
      [runsHll, runsHll].foldlM (fun regs s => (hllMerge regs s).join)
        (replicate hllRegisters 0) = some (hllOpsRegs runsOps) := by
  have h := hll_three_views (fun r => 1 / 2 ^ r) (by norm_num) runsHll_is
  obtain ⟨d, hd, hregs, hsum, -⟩ := h.1 (by decide +kernel)
  refine ⟨⟨d, hd, hregs⟩, ?_, h.2.2.2 1⟩
  rw [hsum]
  simp only [runsOps, hllOpsRegs_cons, hllOpsRegs_nil, HllOp.regs, HllOp.runlen, HllOp.regval,
    hllSum_append, hllSum_replicate, hllSum_nil]
  norm_num

end Vire
