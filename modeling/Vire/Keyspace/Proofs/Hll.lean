import Mathlib.Data.List.GetD
import Vire.Keyspace.Type.Hll

/-!
# The registers of a HyperLogLog

Opcodes are read one after the other, so strings of opcodes may be put together and taken apart; an
opcode that is split and values that are merged stand for the same registers, but for the one that
grows.
-/

namespace Vire

open List Option

/-- The first opcode of some bytes, and what is behind it; `none` if it is cut off. -/
def hllHead (b : UInt8) (rest : Sds) : Option (HllOp × Sds) :=
  if hllSparseIsZero b then some (.zero (hllSparseZeroLen b), rest)
  else if hllSparseIsXzero b then rest.head?.map fun b1 =>
    (.xzero (hllSparseXzeroLen b b1), rest.tail)
  else some (.val (hllSparseValValue b) (hllSparseValLen b), rest)

/-- The opcodes of a string; `none` if the last one is cut off. -/
def hllOpcodes : Sds → Option (List HllOp)
  | [] => some []
  | b :: rest =>
    if hllSparseIsZero b then (hllOpcodes rest).map (.zero (hllSparseZeroLen b) :: ·)
    else if hllSparseIsXzero b then
      match rest with
      | [] => none
      | b1 :: rest => (hllOpcodes rest).map (.xzero (hllSparseXzeroLen b b1) :: ·)
    else (hllOpcodes rest).map (.val (hllSparseValValue b) (hllSparseValLen b) :: ·)

variable {b : UInt8} {op : HllOp} {rest rest' : Sds} {ops : List HllOp}

theorem hllHead_length (h : hllHead b rest = some (op, rest')) :
    rest'.length + op.oplen = rest.length + 1 := by
  unfold hllHead at h
  split_ifs at h
  · cases h
    rfl
  · cases rest with
    | nil => cases h
    | cons b1 rest =>
      cases h
      rfl
  · cases h
    rfl

theorem hllBytes_induction {P : Sds → Prop} (nil : P [])
    (cons : ∀ b rest, (∀ op rest', hllHead b rest = some (op, rest') → P rest') → P (b :: rest))
    (s : Sds) :
    P s := by
  induction hn : s.length using Nat.strong_induction_on generalizing s with
  | _ n ih =>
    cases s with
    | nil => exact nil
    | cons b rest =>
      refine cons b rest fun op rest' hhead => ih rest'.length ?_ rest' rfl
      have hlen := hllHead_length hhead
      rw [length_cons] at hn
      cases op <;> simp only [HllOp.oplen] at hlen <;> omega

theorem hllOpcodes_cons (b : UInt8) (rest : Sds) :
    hllOpcodes (b :: rest) = (hllHead b rest).bind fun r => (hllOpcodes r.2).map (r.1 :: ·) := by
  rw [hllOpcodes.eq_def, hllHead]
  dsimp only
  split_ifs
  · rfl
  · cases rest <;> rfl
  · rfl

theorem hllOpcodes_cons_inv (h : hllOpcodes (b :: rest) = some ops) :
    ∃ op rest' tail, hllHead b rest = some (op, rest') ∧ hllOpcodes rest' = some tail ∧
      ops = op :: tail := by
  rw [hllOpcodes_cons, bind_eq_some_iff] at h
  obtain ⟨⟨op, rest'⟩, hhead, h⟩ := h
  obtain ⟨tail, htail, rfl⟩ := map_eq_some_iff.mp h
  exact ⟨op, rest', tail, hhead, htail, rfl⟩

theorem hllScan_cons {σ : Type} (step : σ → HllOp → Option σ) (b : UInt8) (rest : Sds) (st : σ) :
    hllScan step (b :: rest) st = (hllHead b rest).bind fun r =>
      (step st r.1).bind (hllScan step r.2) := by
  rw [hllScan.eq_def, hllHead]
  dsimp only
  split_ifs
  · rfl
  · cases rest <;> rfl
  · rfl

theorem hllScan_eq {σ : Type} (step : σ → HllOp → Option σ) (s : Sds) (st : σ) :
    hllScan step s st = (hllOpcodes s).bind fun ops => ops.foldlM step st := by
  induction s using hllBytes_induction generalizing st with
  | nil => rfl
  | cons b rest ih =>
    rw [hllScan_cons, hllOpcodes_cons]
    cases hhead : hllHead b rest with
    | none => rfl
    | some r =>
      simp only [bind_some, bind_map, Function.comp_def, foldlM_cons, ih _ _ hhead]
      cases step st r.1 <;> cases hllOpcodes r.2 <;> rfl

theorem hllHead_append {rest : Sds} {r : HllOp × Sds} (h : hllHead b rest = some r) (t : Sds) :
    hllHead b (rest ++ t) = some (r.1, r.2 ++ t) := by
  unfold hllHead at h ⊢
  split_ifs at h ⊢
  · cases h
    rfl
  · cases rest with
    | nil => cases h
    | cons b1 rest =>
      cases h
      rfl
  · cases h
    rfl

theorem hllOpcodes_append {a : Sds} (h : hllOpcodes a = some ops) (t : Sds) :
    hllOpcodes (a ++ t) = (hllOpcodes t).map (ops ++ ·) := by
  induction a using hllBytes_induction generalizing ops with
  | nil =>
    cases h
    simp
  | cons b rest ih =>
    obtain ⟨op, rest', tail, hhead, htail, rfl⟩ := hllOpcodes_cons_inv h
    rw [cons_append, hllOpcodes_cons, hllHead_append hhead, bind_some, ih _ _ hhead htail,
      Option.map_map]
    rfl

def HllOp.Fits : HllOp → Prop
  | zero len => 1 ≤ len ∧ len ≤ 64
  | xzero len => 1 ≤ len ∧ len ≤ hllRegisters
  | val value len => (1 ≤ value ∧ value ≤ 32) ∧ 1 ≤ len ∧ len ≤ 4

theorem HllOp.Fits.runlen_pos (h : op.Fits) : 0 < op.runlen := by
  cases op with
  | zero len => exact h.1
  | xzero len => exact h.1
  | val value len => exact h.2.1

theorem hllSparseXzeroLen_eq (b b1 : UInt8) :
    hllSparseXzeroLen b b1 = (b &&& 0x3f).toNat * 256 + b1.toNat + 1 := by
  rw [hllSparseXzeroLen, ← Nat.shiftLeft_add_eq_or_of_lt (b1.toNat_lt), Nat.shiftLeft_eq]

theorem hllSparseValValue_mem (b : UInt8) : 1 ≤ hllSparseValValue b ∧ hllSparseValValue b ≤ 32 := by
  have hvalue : (b >>> 2 &&& 0x1f).toNat ≤ 31 := by
    exact Nat.and_le_right
  exact ⟨Nat.le_add_left .., Nat.succ_le_succ hvalue⟩

theorem hllHead_fits (h : hllHead b rest = some (op, rest')) :
    op.Fits := by
  have hmask (m : UInt8) : (b &&& m).toNat ≤ m.toNat := by
    exact Nat.and_le_right
  unfold hllHead at h
  split_ifs at h
  · cases h
    exact ⟨Nat.le_add_left .., Nat.succ_le_succ (hmask 0x3f)⟩
  · obtain ⟨b1, -, h⟩ := map_eq_some_iff.mp h
    cases h
    have hlo := b1.toNat_lt
    have hhi : (b &&& 0x3f).toNat ≤ 63 := hmask 0x3f
    rw [HllOp.Fits, hllSparseXzeroLen_eq, hllRegisters]
    omega
  · cases h
    exact ⟨hllSparseValValue_mem b, Nat.le_add_left .., Nat.succ_le_succ (hmask 0x3)⟩

theorem hllOpcodes_fits {s : Sds} (h : hllOpcodes s = some ops) : ∀ op ∈ ops, op.Fits := by
  induction s using hllBytes_induction generalizing ops with
  | nil =>
    cases h
    simp
  | cons b rest ih =>
    obtain ⟨op, rest', tail, hhead, htail, rfl⟩ := hllOpcodes_cons_inv h
    exact forall_mem_cons.mpr ⟨hllHead_fits hhead, ih _ _ hhead htail⟩

theorem hllByte_zero :
    ∀ n < 64, hllSparseIsZero n.toUInt8 = true ∧ hllSparseZeroLen n.toUInt8 = n + 1 := by
  decide

theorem hllByte_xzero : ∀ n < 64, hllSparseIsZero (n ||| 0x40).toUInt8 = false ∧
    hllSparseIsXzero (n ||| 0x40).toUInt8 = true ∧ ((n ||| 0x40).toUInt8 &&& 0x3f).toNat = n := by
  decide

theorem hllByte_val : ∀ v < 32, ∀ n < 4, hllSparseIsZero (v <<< 2 ||| n ||| 0x80).toUInt8 = false ∧
    hllSparseIsXzero (v <<< 2 ||| n ||| 0x80).toUInt8 = false ∧
    hllSparseValValue (v <<< 2 ||| n ||| 0x80).toUInt8 = v + 1 ∧
    hllSparseValLen (v <<< 2 ||| n ||| 0x80).toUInt8 = n + 1 := by
  decide

variable {len : ℕ}

theorem hllOpcodes_zeroSet (h1 : 1 ≤ len) (h2 : len ≤ 64) :
    hllOpcodes (hllSparseZeroSet len) = some [.zero len] := by
  obtain ⟨hz, hlen⟩ := hllByte_zero (len - 1) (by omega)
  rw [hllSparseZeroSet, hllOpcodes_cons, hllHead, if_pos hz, hlen, Nat.sub_add_cancel h1]
  rfl

theorem hllOpcodes_xzeroSet (h1 : 1 ≤ len) (h2 : len ≤ hllRegisters) :
    hllOpcodes (hllSparseXzeroSet len) = some [.xzero len] := by
  rw [hllRegisters] at h2
  have hhi : (len - 1) >>> 8 = (len - 1) / 256 := Nat.shiftRight_eq_div_pow ..
  obtain ⟨hz, hx, hlen⟩ := hllByte_xzero ((len - 1) >>> 8) (by omega)
  have hlo : ((len - 1) % 256).toUInt8.toNat = (len - 1) % 256 := by
    exact Nat.mod_mod ..
  have hsum : (len - 1) / 256 * 256 + (len - 1) % 256 + 1 = len := by omega
  rw [hllSparseXzeroSet, hllOpcodes_cons, hllHead, if_neg (by rw [hz]; simp), if_pos hx, head?_cons,
    map_some, hllSparseXzeroLen_eq, hlen, hlo, hhi, hsum]
  rfl

theorem hllOpcodes_valSet {value len : ℕ} (hv : 1 ≤ value ∧ value ≤ 32) (hlen : 1 ≤ len ∧ len ≤ 4) :
    hllOpcodes (hllSparseValSet value len) = some [.val value len] := by
  obtain ⟨hz, hx, hval, hl⟩ := hllByte_val (value - 1) (by omega) (len - 1) (by omega)
  rw [hllSparseValSet, hllOpcodes_cons, hllHead, if_neg (by rw [hz]; simp),
    if_neg (by rw [hx]; simp), hval, hl, Nat.sub_add_cancel hv.1, Nat.sub_add_cancel hlen.1]
  rfl

def HllOp.regs (op : HllOp) : List ℕ := replicate op.runlen op.regval

theorem HllOp.length_regs (op : HllOp) : op.regs.length = op.runlen := length_replicate

def hllOpsRegs (ops : List HllOp) : List ℕ := ops.flatMap HllOp.regs

@[simp]
theorem hllOpsRegs_nil : hllOpsRegs [] = [] := rfl

@[simp]
theorem hllOpsRegs_cons (op : HllOp) (ops : List HllOp) :
    hllOpsRegs (op :: ops) = op.regs ++ hllOpsRegs ops := rfl

@[simp]
theorem hllOpsRegs_append (ops1 ops2 : List HllOp) :
    hllOpsRegs (ops1 ++ ops2) = hllOpsRegs ops1 ++ hllOpsRegs ops2 := flatMap_append

theorem isXzero_of_isZero (h : hllSparseIsZero b = true) : hllSparseIsXzero b = false := by
  rw [hllSparseIsZero, beq_iff_eq] at h
  rw [hllSparseIsXzero, h]
  rfl

theorem forall_byte {P : UInt8 → Prop} (h : ∀ n < 256, P (UInt8.ofNat n)) (b : UInt8) : P b := by
  rw [← UInt8.ofNat_toNat (x := b)]
  exact h _ b.toNat_lt

theorem not_zero_of_isVal (h : hllSparseIsVal b = true) :
    ¬ hllSparseIsZero b = true ∧ ¬ hllSparseIsXzero b = true :=
  forall_byte (P := fun b => hllSparseIsVal b = true → ¬ hllSparseIsZero b = true ∧
    ¬ hllSparseIsXzero b = true) (by decide +kernel) b h

theorem hllOpcodes_val (hz : ¬ hllSparseIsZero b = true) (hx : ¬ hllSparseIsXzero b = true)
    (t : Sds) :
    hllOpcodes (b :: t) = (hllOpcodes t).map
      (.val (hllSparseValValue b) (hllSparseValLen b) :: ·) := by
  rw [hllOpcodes_cons, hllHead, if_neg hz, if_neg hx, bind_some]

theorem hllSparseMerge_spec (scanlen : ℕ) {s : Sds} (h : hllOpcodes s = some ops) :
    ∃ ops', hllOpcodes (hllSparseMerge scanlen s) = some ops' ∧ hllOpsRegs ops' =
      hllOpsRegs ops := by
  induction scanlen generalizing s ops with
  | zero => exact ⟨ops, h, rfl⟩
  | succ scanlen ih =>
    cases s with
    | nil => exact ⟨ops, h, rfl⟩
    | cons b rest =>
      by_cases hz : hllSparseIsZero b = true
      · have hcons (t : Sds) :
            hllOpcodes (b :: t) = (hllOpcodes t).map (.zero (hllSparseZeroLen b) :: ·) := by
          rw [hllOpcodes_cons, hllHead, if_pos hz, bind_some]
        rw [hcons] at h
        obtain ⟨tail, htail, rfl⟩ := map_eq_some_iff.mp h
        obtain ⟨tail', htail', hregs⟩ := ih htail
        rw [hllSparseMerge.eq_def]
        simp only [isXzero_of_isZero hz, Bool.false_eq_true, if_false, hz, if_true, hcons, htail']
        exact ⟨_, rfl, congrArg (_ ++ ·) hregs⟩
      by_cases hx : hllSparseIsXzero b = true
      · cases rest with
        | nil =>
          rw [hllOpcodes_cons, hllHead, if_neg hz, if_pos hx] at h
          cases h
        | cons b1 rest =>
          have hcons (t : Sds) : hllOpcodes (b :: b1 :: t) =
              (hllOpcodes t).map (.xzero (hllSparseXzeroLen b b1) :: ·) := by
            rw [hllOpcodes_cons, hllHead, if_neg hz, if_pos hx]
            rfl
          rw [hcons] at h
          obtain ⟨tail, htail, rfl⟩ := map_eq_some_iff.mp h
          obtain ⟨tail', htail', hregs⟩ := ih htail
          rw [hllSparseMerge, if_pos hx]
          simp only [hcons, htail']
          exact ⟨_, rfl, congrArg (_ ++ ·) hregs⟩
      rw [hllOpcodes_val hz hx] at h
      obtain ⟨tail, htail, rfl⟩ := map_eq_some_iff.mp h
      cases rest with
      | nil =>
        cases htail
        rw [hllSparseMerge, if_neg hx, if_neg hz]
        exact ⟨_, by rw [hllOpcodes_val hz hx]; rfl, rfl⟩
      | cons b1 rest =>
        rw [hllSparseMerge, if_neg hx, if_neg hz]
        dsimp only
        split_ifs with hmerge
        · -- two values become one, and the scan goes on with it
          obtain ⟨hval, hvalue, hlen⟩ := hmerge
          obtain ⟨hz1, hx1⟩ := not_zero_of_isVal hval
          rw [hllOpcodes_val hz1 hx1] at htail
          obtain ⟨tail, hrest, rfl⟩ := map_eq_some_iff.mp htail
          have hpos : 1 ≤ hllSparseValLen b + hllSparseValLen b1 := by
            rw [hllSparseValLen]
            omega
          have hset :=
            hllOpcodes_append (hllOpcodes_valSet (hllSparseValValue_mem b) ⟨hpos, hlen⟩) rest
          rw [hrest, map_some] at hset
          obtain ⟨ops', hops', hregs⟩ := ih hset
          refine ⟨ops', hops', ?_⟩
          rw [hregs, singleton_append, hllOpsRegs_cons, hllOpsRegs_cons, hllOpsRegs_cons,
            ← append_assoc, ← hvalue]
          exact congrArg (· ++ _) (replicate_add ..)
        · obtain ⟨tail', htail', hregs⟩ := ih htail
          rw [hllOpcodes_val hz hx, htail']
          exact ⟨_, rfl, congrArg (_ ++ ·) hregs⟩

theorem hllSeqZeros_spec (h : len ≤ hllRegisters) :
    ∃ ops, hllOpcodes (hllSeqZeros len) = some ops ∧ hllOpsRegs ops = replicate len 0 := by
  unfold hllSeqZeros
  split_ifs with h0 hbig
  · rw [h0]
    exact ⟨[], rfl, rfl⟩
  · exact ⟨_, hllOpcodes_xzeroSet (by omega) h, append_nil _⟩
  · exact ⟨_, hllOpcodes_zeroSet (by omega) (by omega), append_nil _⟩

theorem hllSeqVals_spec {value len : ℕ} (hv : 1 ≤ value ∧ value ≤ 32) (h : len ≤ 4) :
    ∃ ops, hllOpcodes (hllSeqVals value len) = some ops ∧ hllOpsRegs ops =
      replicate len value := by
  unfold hllSeqVals
  split_ifs with h0
  · rw [h0]
    exact ⟨[], rfl, rfl⟩
  · exact ⟨_, hllOpcodes_valSet hv (by omega), append_nil _⟩

theorem hllSplit_spec {index count first : ℕ} (hfits : op.Fits) (hcount : 1 ≤ count ∧ count ≤ 32)
    (hfirst : first ≤ index) (hlast : index < first + op.runlen) :
    ∃ ops, hllOpcodes (hllSplit index count first op) = some ops ∧
      hllOpsRegs ops = op.regs.set (index - first) count := by
  have hset : hllOpcodes (hllSparseValSet count 1) = some [.val count 1] :=
    hllOpcodes_valSet hcount (by norm_num)
  have hregs : op.regs.set (index - first) count = replicate (index - first) op.regval ++
      (count :: replicate (first + op.runlen - 1 - index) op.regval) := by
    rw [HllOp.regs, set_eq_take_append_cons_drop, if_pos (by rw [length_replicate]; omega),
      take_replicate, drop_replicate, Nat.min_eq_left (by omega),
      show op.runlen - (index - first + 1) = first + op.runlen - 1 - index by omega]
  have hdone {a c : Sds}
      (ha : ∃ ops, hllOpcodes a = some ops ∧ hllOpsRegs ops =
        replicate (index - first) op.regval)
      (hc : ∃ ops, hllOpcodes c = some ops ∧
        hllOpsRegs ops = replicate (first + op.runlen - 1 - index) op.regval) :
      ∃ ops, hllOpcodes (a ++ hllSparseValSet count 1 ++ c) = some ops ∧
        hllOpsRegs ops = op.regs.set (index - first) count := by
    obtain ⟨opsA, ha, hregsA⟩ := ha
    obtain ⟨opsC, hc, hregsC⟩ := hc
    rw [append_assoc, hllOpcodes_append ha, hllOpcodes_append hset, hc]
    refine ⟨_, rfl, ?_⟩
    rw [hllOpsRegs_append, hllOpsRegs_append, hregsA, hregsC, hregs]
    rfl
  cases op with
  | zero len =>
    have hlen : len ≤ 64 := hfits.2
    have hreg : (64 : ℕ) ≤ hllRegisters := by decide
    simp only [HllOp.runlen] at hlast
    exact hdone (hllSeqZeros_spec (by omega))
      (hllSeqZeros_spec (by simp only [HllOp.runlen]; omega))
  | xzero len =>
    have hlen : len ≤ hllRegisters := hfits.2
    simp only [HllOp.runlen] at hlast
    exact hdone (hllSeqZeros_spec (by omega))
      (hllSeqZeros_spec (by simp only [HllOp.runlen]; omega))
  | val value len =>
    have hlen : len ≤ 4 := hfits.2.2
    simp only [HllOp.runlen] at hlast
    exact hdone (hllSeqVals_spec hfits.1 (by omega))
      (hllSeqVals_spec hfits.1 (by simp only [HllOp.runlen]; omega))

theorem isVal_iff (h : ¬ hllSparseIsZero b = true) :
    hllSparseIsVal b = true ↔ ¬ hllSparseIsXzero b = true :=
  forall_byte (P := fun b => ¬ hllSparseIsZero b = true →
    (hllSparseIsVal b = true ↔ ¬ hllSparseIsXzero b = true)) (by decide +kernel) b h

theorem hllLocate_cons (index : ℕ) (b : UInt8) (rest : Sds) (p first : ℕ)
    (prev : Option ℕ) (span : ℕ) :
    hllLocate index (b :: rest) p first prev span = (hllHead b rest).bind fun r =>
      if index < first + r.1.runlen then some (some ⟨p, first, prev, r.1⟩)
      else hllLocate index r.2 (p + r.1.oplen) (first + r.1.runlen) (some p) r.1.runlen := by
  rw [hllLocate.eq_def, hllHead]
  dsimp only
  by_cases hz : hllSparseIsZero b = true
  · rw [if_pos hz, if_pos hz]
    rfl
  by_cases hx : hllSparseIsXzero b = true
  · rw [if_neg hz, if_neg hz, if_neg (by rw [isVal_iff hz, not_not]; exact hx), if_pos hx]
    cases rest <;> rfl
  · rw [if_neg hz, if_neg hz, if_pos ((isVal_iff hz).mpr hx), if_neg hx]
    rfl

theorem hllHead_split (h : hllHead b rest = some (op, rest')) :
    ∃ o, b :: rest = o ++ rest' ∧ hllOpcodes o = some [op] ∧ o.length = op.oplen := by
  have hself (t : Sds) (hb : hllHead b t = some (op, [])) : hllOpcodes (b :: t) = some [op] := by
    rw [hllOpcodes_cons, hb]
    rfl
  unfold hllHead at h hself
  split_ifs at h with hz hx
  · cases h
    exact ⟨[b], rfl, hself [] (if_pos hz), rfl⟩
  · obtain ⟨b1, hb1, h⟩ := map_eq_some_iff.mp h
    cases h
    cases rest with
    | nil => cases hb1
    | cons b1' rest =>
      cases hb1
      exact ⟨[b, b1], rfl, hself [b1] (by rw [if_neg hz, if_pos hx]; rfl), rfl⟩
  · cases h
    exact ⟨[b], rfl, hself [] (by rw [if_neg hz, if_neg hx]), rfl⟩

/-- The place of a register: behind the bytes `a` and the registers of `pre`. -/
structure HllPlace.Finds (l : HllPlace) (index p first : ℕ) (prev : Option ℕ) (a o c : Sds)
    (pre post : List HllOp) : Prop where
  before : hllOpcodes a = some pre
  here : hllOpcodes o = some [l.op]
  behind : hllOpcodes c = some post
  p_eq : l.p = p + a.length
  oplen : o.length = l.op.oplen
  first_eq : l.first = first + (hllOpsRegs pre).length
  first_le : l.first ≤ index
  lt_last : index < l.first + l.op.runlen
  /-- The opcode before begins where an opcode begins. -/
  prev_eq : a = [] ∧ l.prev = prev ∨ ∃ a₁ a₂ pre₁ pre₂, a = a₁ ++ a₂ ∧
    l.prev = some (p + a₁.length) ∧ hllOpcodes a₁ = some pre₁ ∧ hllOpcodes a₂ = some pre₂

theorem hllLocate_found {bytes : Sds} {index first : ℕ} (h : hllOpcodes bytes = some ops)
    (hfirst : first ≤ index) (hlast : index < first + (hllOpsRegs ops).length) (p : ℕ)
    (prev : Option ℕ) (span : ℕ) :
    ∃ l a o c pre post, hllLocate index bytes p first prev span = some (some l) ∧
      bytes = a ++ o ++ c ∧
      ops = pre ++ l.op :: post ∧ l.Finds index p first prev a o c pre post := by
  induction bytes using hllBytes_induction generalizing ops p first prev span with
  | nil =>
    cases h
    exact absurd hlast (Nat.not_lt.mpr hfirst)
  | cons b rest ih =>
    obtain ⟨op, rest', tail, hhead, htail, rfl⟩ := hllOpcodes_cons_inv h
    obtain ⟨o, hbytes, ho, hlen⟩ := hllHead_split hhead
    rw [hllLocate_cons, hhead, bind_some, hbytes]
    rw [hllOpsRegs_cons, length_append, op.length_regs] at hlast
    by_cases hin : index < first + op.runlen
    · rw [if_pos hin]
      exact ⟨_, [], o, rest', [], tail, rfl, rfl, rfl,
        ⟨rfl, ho, htail, rfl, hlen, rfl, hfirst, hin, .inl ⟨rfl, rfl⟩⟩⟩
    · rw [if_neg hin]
      obtain ⟨l, a, o', c, pre, post, hl, hrest, hops, hf⟩ := ih _ _ hhead htail (Nat.not_lt.mp hin)
        (by omega) (p + op.oplen) (some p) op.runlen
      refine ⟨l, o ++ a, o', c, op :: pre, post, hl, ?_, ?_, ?_, hf.here, hf.behind, ?_, hf.oplen,
        ?_, hf.first_le, hf.lt_last, .inr ?_⟩
      · rw [hrest, append_assoc, append_assoc, append_assoc]
      · rw [hops]
        rfl
      · rw [hllOpcodes_append ho, hf.before]
        rfl
      · rw [hf.p_eq, length_append, hlen, Nat.add_assoc]
      · rw [hf.first_eq, hllOpsRegs_cons, length_append, op.length_regs, Nat.add_assoc]
      · rcases hf.prev_eq with ⟨rfl, hprev⟩ | ⟨a1, a2, pre1, pre2, rfl, hprev, h1, h2⟩
        · exact ⟨[], o, [], [op], by rw [append_nil, nil_append], hprev, rfl, ho⟩
        · refine ⟨o ++ a1, a2, op :: pre1, pre2, (append_assoc ..).symm, ?_, ?_, h2⟩
          · rw [hprev, length_append, hlen, Nat.add_assoc]
          · rw [hllOpcodes_append ho, h1]
            rfl

theorem hllLocate_missing {bytes : Sds} {index first : ℕ} (h : hllOpcodes bytes = some ops)
    (hlast : first + (hllOpsRegs ops).length ≤ index) (p : ℕ) (prev : Option ℕ) (span : ℕ) :
    hllLocate index bytes p first prev span = if ops = [] ∧ span = 0 then some none else none := by
  induction bytes using hllBytes_induction generalizing ops p first prev span with
  | nil =>
    cases h
    simp [hllLocate]
  | cons b rest ih =>
    obtain ⟨op, rest', tail, hhead, htail, rfl⟩ := hllOpcodes_cons_inv h
    have hpos := (hllHead_fits hhead).runlen_pos
    rw [hllOpsRegs_cons, length_append, op.length_regs] at hlast
    rw [hllLocate_cons, hhead, bind_some, if_neg (by dsimp only; omega),
      ih _ _ hhead htail (by dsimp only; omega)]
    rw [if_neg fun hand => hpos.ne' hand.2, if_neg (by simp)]

section

variable {hdr : Sds} (hhdr : hdr.length = hllHdrSize)

include hhdr

theorem invalidateCache_append (bytes : Sds) :
    hllInvalidateCache (hdr ++ bytes) = hllInvalidateCache hdr ++ bytes := by
  have hlt : 15 < hdr.length := by rw [hhdr]; decide
  rw [hllInvalidateCache, hllInvalidateCache, set_append_left _ _ hlt, getD_append _ _ _ _ hlt]

theorem hllSparseUpdated_spec {l : HllPlace} {index : ℕ} {a o c seq : Sds}
    {pre post seqops : List HllOp}
    (hf : l.Finds index hllHdrSize 0 none a o c pre post) (hseq : hllOpcodes seq = some seqops) :
    ∃ bytes ops, hllSparseUpdated (hdr ++ (a ++ o ++ c)) l seq = hllInvalidateCache hdr ++ bytes ∧
      hllOpcodes bytes = some ops ∧ hllOpsRegs ops =
        hllOpsRegs pre ++ hllOpsRegs seqops ++ hllOpsRegs post := by
  have htake : (hdr ++ (a ++ o ++ c)).take l.p = hdr ++ a := by
    rw [append_assoc, ← append_assoc]
    exact take_left' (by rw [length_append, hhdr, hf.p_eq])
  have hdrop : (hdr ++ (a ++ o ++ c)).drop (l.p + l.op.oplen) = c := by
    rw [← append_assoc]
    exact drop_left' (by rw [length_append, length_append, hhdr, hf.p_eq, hf.oplen, Nat.add_assoc])
  rw [hllSparseUpdated, htake, hdrop]
  rcases hf.prev_eq with ⟨rfl, hprev⟩ | ⟨a1, a2, pre1, pre2, rfl, hprev, h1, h2⟩
  · cases hf.before
    have hall : hllOpcodes (seq ++ c) = some (seqops ++ post) := by
      rw [hllOpcodes_append hseq, hf.behind]
      rfl
    obtain ⟨ops, hops, hregs⟩ := hllSparseMerge_spec 5 hall
    rw [hprev, getD_none, append_nil, append_assoc, take_left' hhdr, drop_left' hhdr,
      invalidateCache_append hhdr]
    exact ⟨_, ops, rfl, hops, by rw [hregs, hllOpsRegs_append, hllOpsRegs_nil, nil_append]⟩
  · obtain rfl : pre = pre1 ++ pre2 := by
      have hboth := hllOpcodes_append h1 a2
      rw [hf.before, h2] at hboth
      exact some.inj hboth
    have hstart : (hdr ++ a1).length = hllHdrSize + a1.length := by rw [length_append, hhdr]
    have hall : hllOpcodes (a2 ++ (seq ++ c)) = some (pre2 ++ (seqops ++ post)) := by
      rw [hllOpcodes_append h2, hllOpcodes_append hseq, hf.behind]
      rfl
    obtain ⟨ops, hops, hregs⟩ := hllSparseMerge_spec 5 hall
    rw [hprev, getD_some, ← append_assoc hdr, append_assoc, append_assoc,
      take_left' hstart, drop_left' hstart, append_assoc, invalidateCache_append hhdr]
    refine ⟨_, pre1 ++ ops, rfl, ?_, ?_⟩
    · rw [hllOpcodes_append h1, hops]
      rfl
    · simp only [hllOpsRegs_append, hregs, append_assoc]

end

end Vire
