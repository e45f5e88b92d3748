import Mathlib.Algebra.Order.Ring.Rat
import Vire.Keyspace.Host
import Vire.Keyspace.Type.Bits

/-!
# HyperLogLogs

The functions of `vr_hyperloglog.c`: a header of 16 bytes, and the 16384 registers, six bits each
one after the other or as opcodes for runs of equal registers.  A function returns `none` where a
byte behind the end of the string is taken for a part of an opcode, a register is written outside of
the array, or an assertion fails.  A string has at most 512 MB.
-/

namespace Vire

def hllHdrSize : ℕ := 16

def hllRegisters : ℕ := 16384

def hllDenseBytes : ℕ := 12288

def hllDenseSize : ℕ := hllHdrSize + hllDenseBytes

def hllEncoding (s : Sds) : UInt8 := s.getD 4 0

def hllDense : UInt8 := 0

def hllSparse : UInt8 := 1

def hllValidCache (s : Sds) : Bool := s.getD 15 0 &&& 0x80 == 0

def hllInvalidateCache (s : Sds) : Sds := s.set 15 (s.getD 15 0 ||| 0x80)

def hllCard (s : Sds) : ℕ := loadWord ((s.drop 8).take 8)

/-- The lowest `n` bytes of a number, the least significant first. -/
def storeWord : ℕ → ℕ → Sds
  | 0, _ => []
  | n + 1, v => (v % 256).toUInt8 :: storeWord n (v / 256)

def hllSetCard (s : Sds) (card : UInt64) :
    Sds := s.take 8 ++ storeWord 8 card.toNat ++ s.drop hllHdrSize

/-- The loop of `hllPatLen`; `bit` is the number of the bit that is looked at. -/
def hllPatLoop (hash : ℕ) : ℕ → ℕ → ℕ → ℕ
  | 0, _, count => count
  | fuel + 1, bit, count =>
    if hash.testBit bit then count else hllPatLoop hash fuel (bit + 1) (count + 1)

/-- `hllPatLen`: the register, and the length of the pattern. -/
def hllPatLen [Host] (ele : Sds) : ℕ × ℕ :=
  let hash := (Host.hllHash ele).toNat
  (hash % hllRegisters, hllPatLoop (hash ||| 2 ^ 63) 50 14 1)

/-- `HLL_DENSE_GET_REGISTER`.  The string ends with a zero that is not one of its bytes. -/
def hllDenseGetRegister (s : Sds) (regnum : ℕ) : ℕ :=
  let byte := regnum * 6 / 8
  let fb := regnum * 6 % 8
  let b0 := (s.getD (hllHdrSize + byte) 0).toNat
  let b1 := (s.getD (hllHdrSize + byte + 1) 0).toNat
  ((b0 >>> fb) ||| (b1 <<< (8 - fb))) % 64

/-- `HLL_DENSE_SET_REGISTER`.  What would be written to the byte behind the last one is the zero
that is there. -/
def hllDenseSetRegister (s : Sds) (regnum val : ℕ) : Sds :=
  let byte := hllHdrSize + regnum * 6 / 8
  let fb := regnum * 6 % 8
  let s := s.set byte (s.getD byte 0 &&& ~~~((63 <<< fb).toUInt8) ||| (val <<< fb).toUInt8)
  s.set (byte + 1) (s.getD (byte + 1) 0 &&& ~~~((63 >>> (8 - fb)).toUInt8) |||
    (val >>> (8 - fb)).toUInt8)

/-- What an `Add` function returns: -1, 0, or 1 with the new bytes. -/
inductive HllAdded
  | invalid
  | kept
  | grown (s : Sds)
  deriving DecidableEq

def hllDenseAdd [Host] (s ele : Sds) : HllAdded :=
  let r := hllPatLen ele
  if hllDenseGetRegister s r.1 < r.2 then .grown (hllDenseSetRegister s r.1 r.2) else .kept

inductive HllOp
  | zero (len : ℕ)
  | xzero (len : ℕ)
  | val (value len : ℕ)
  deriving DecidableEq

namespace HllOp

def runlen : HllOp → ℕ
  | zero len => len
  | xzero len => len
  | val _ len => len

def regval : HllOp → ℕ
  | val value _ => value
  | _ => 0

def oplen : HllOp → ℕ
  | xzero _ => 2
  | _ => 1

end HllOp

def hllSparseIsZero (b : UInt8) : Bool := b &&& 0xc0 == 0

def hllSparseIsXzero (b : UInt8) : Bool := b &&& 0xc0 == 0x40

def hllSparseIsVal (b : UInt8) : Bool := b &&& 0x80 != 0

def hllSparseZeroLen (b : UInt8) : ℕ := (b &&& 0x3f).toNat + 1

def hllSparseXzeroLen (b b1 : UInt8) : ℕ := ((b &&& 0x3f).toNat <<< 8 ||| b1.toNat) + 1

def hllSparseValValue (b : UInt8) : ℕ := (b >>> 2 &&& 0x1f).toNat + 1

def hllSparseValLen (b : UInt8) : ℕ := (b &&& 0x3).toNat + 1

def hllSparseValSet (val len : ℕ) : Sds := [((val - 1) <<< 2 ||| (len - 1) ||| 0x80).toUInt8]

def hllSparseZeroSet (len : ℕ) : Sds := [(len - 1).toUInt8]

def hllSparseXzeroSet (len : ℕ) :
    Sds := [((len - 1) >>> 8 ||| 0x40).toUInt8, ((len - 1) % 256).toUInt8]

/-- `while(p < end)` with the opcode at `p`, from the byte at `p` on. -/
def hllScan {σ : Type} (step : σ → HllOp → Option σ) : Sds → σ → Option σ
  | [], st => some st
  | b :: rest, st =>
    if hllSparseIsZero b then (step st (.zero (hllSparseZeroLen b))).bind (hllScan step rest)
    else if hllSparseIsXzero b then
      match rest with
      | [] => none
      | b1 :: rest => (step st (.xzero (hllSparseXzeroLen b b1))).bind (hllScan step rest)
    else (step st (.val (hllSparseValValue b) (hllSparseValLen b))).bind (hllScan step rest)

/-- `while(runlen--) { HLL_DENSE_SET_REGISTER(hdr->registers,idx,regval); idx++; }` -/
def hllSetRun (regval : ℕ) : ℕ → ℤ × Sds → Option (ℤ × Sds)
  | 0, st => some st
  | runlen + 1, (idx, s) =>
    if 0 ≤ idx ∧ idx < hllRegisters then
      hllSetRun regval runlen (int32 (idx + 1), hllDenseSetRegister s idx.toNat regval)
    else none

def hllToDenseStep (st : ℤ × Sds) : HllOp → Option (ℤ × Sds)
  | .val value len => hllSetRun value len st
  | op => some (int32 (st.1 + op.runlen), st.2)

def hllDenseNew (s : Sds) :
    Sds := (s.take hllHdrSize).set 4 hllDense ++ List.replicate hllDenseBytes 0

/-- `hllSparseToDense` of a sparse HyperLogLog; `some none` is `VR_ERROR`. -/
def hllSparseToDense (s : Sds) : Option (Option Sds) :=
  (hllScan hllToDenseStep (s.drop hllHdrSize) (0, hllDenseNew s)).map fun st =>
    if st.1 ≠ (hllRegisters : ℤ) then none else some st.2

structure HllPlace where
  p : ℕ
  first : ℕ
  prev : Option ℕ
  op : HllOp

/-- `Step 1`: the loop that locates the opcode of a register, from the byte at `p` on, with the
place it is at and the last `span`.  `some none` stands for `return -1`. -/
def hllLocate (index : ℕ) : Sds → ℕ → ℕ → Option ℕ → ℕ → Option (Option HllPlace)
  | [], _, _, _, span =>
    -- `next` is computed from the byte at `p` otherwise
    if span = 0 then some none else none
  | b :: rest, p, first, prev, _ =>
    if hllSparseIsZero b then
      let span := hllSparseZeroLen b
      if index < first + span then some (some ⟨p, first, prev, .zero span⟩)
      else hllLocate index rest (p + 1) (first + span) (some p) span
    else if hllSparseIsVal b then
      let span := hllSparseValLen b
      if index < first + span then some (some ⟨p, first, prev, .val (hllSparseValValue b) span⟩)
      else hllLocate index rest (p + 1) (first + span) (some p) span
    else
      match rest with
      | [] => none
      | b1 :: rest =>
        let span := hllSparseXzeroLen b b1
        if index < first + span then some (some ⟨p, first, prev, .xzero span⟩)
        else hllLocate index rest (p + 2) (first + span) (some p) span

def hllSeqZeros (len : ℕ) : Sds :=
  if len = 0 then [] else if 64 < len then hllSparseXzeroSet len else hllSparseZeroSet len

def hllSeqVals (value len : ℕ) : Sds := if len = 0 then [] else hllSparseValSet value len

/-- `seq`: the opcodes for a run with another value at `index`. -/
def hllSplit (index count first : ℕ) (op : HllOp) : Sds :=
  let last := first + op.runlen - 1
  match op with
  | .val value _ =>
    hllSeqVals value (index - first) ++ hllSparseValSet count 1 ++ hllSeqVals value (last - index)
  | _ => hllSeqZeros (index - first) ++ hllSparseValSet count 1 ++ hllSeqZeros (last - index)

/-- `Step 4`: merge adjacent values, from the byte at `p` on. -/
def hllSparseMerge : ℕ → Sds → Sds
  | 0, ops => ops
  | _ + 1, [] => []
  | scanlen + 1, b :: rest =>
    if hllSparseIsXzero b then
      match rest with
      | [] => [b]
      | b1 :: rest => b :: b1 :: hllSparseMerge scanlen rest
    else if hllSparseIsZero b then b :: hllSparseMerge scanlen rest
    else
      match rest with
      | [] => [b]
      | b1 :: rest' =>
        let len := hllSparseValLen b + hllSparseValLen b1
        if hllSparseIsVal b1 ∧ hllSparseValValue b = hllSparseValValue b1 ∧ len ≤ 4 then
          hllSparseMerge scanlen (hllSparseValSet (hllSparseValValue b) len ++ rest')
        else b :: hllSparseMerge scanlen rest

/-- `updated:` with `seq` in the place of the opcode. -/
def hllSparseUpdated (s : Sds) (l : HllPlace) (seq : Sds) : Sds :=
  let s := s.take l.p ++ seq ++ s.drop (l.p + l.op.oplen)
  let start := l.prev.getD hllHdrSize
  hllInvalidateCache (s.take start ++ hllSparseMerge 5 (s.drop start))

variable [Host]

def hllPromote (s ele : Sds) : Option HllAdded :=
  match hllSparseToDense s with
  | none => none
  | some none => some .invalid
  | some (some dense) =>
    match hllDenseAdd dense ele with
    | .grown dense => some (.grown dense)
    | _ => none

/-- `Step 3`: the new sequence is substituted for the opcode, unless the string gets too long. -/
def hllSparseSubstitute (s ele : Sds) (l : HllPlace) (seq : Sds) : Option HllAdded :=
  if l.op.oplen < seq.length ∧ Host.hllSparseMaxBytes < s.length + (seq.length - l.op.oplen) then
    hllPromote s ele
  else some (.grown (hllSparseUpdated s l seq))

/-- `Step 2`: what is to be done with the opcode of the register. -/
def hllSparseReplace (s ele : Sds) (index count : ℕ) (l : HllPlace) : Option HllAdded :=
  match l.op with
  | .val oldcount runlen =>
    if count ≤ oldcount then some .kept
    else if runlen = 1 then some (.grown (hllSparseUpdated s l (hllSparseValSet count 1)))
    else hllSparseSubstitute s ele l (hllSplit index count l.first l.op)
  | .zero 1 => some (.grown (hllSparseUpdated s l (hllSparseValSet count 1)))
  | _ => hllSparseSubstitute s ele l (hllSplit index count l.first l.op)

def hllSparseAdd (s ele : Sds) : Option HllAdded :=
  let r := hllPatLen ele
  if 32 < r.2 then hllPromote s ele
  else
    match hllLocate r.1 (s.drop hllHdrSize) hllHdrSize 0 none 0 with
    | none => none
    | some none => some .invalid
    | some (some l) => hllSparseReplace s ele r.1 r.2 l

def hllAdd (s ele : Sds) : Option HllAdded :=
  if hllEncoding s = hllDense then some (hllDenseAdd s ele)
  else if hllEncoding s = hllSparse then hllSparseAdd s ele
  else some .invalid

def hllSparseIdx (s : Sds) : Option ℤ :=
  hllScan (fun idx op => some (int32 (idx + op.runlen))) (s.drop hllHdrSize) 0

/-- `hllCount` of a string; `some none` if it is found to be invalid. -/
def hllCount (s : Sds) : Option (Option UInt64) :=
  if hllEncoding s = hllDense then some (some (Host.hllEstimate s))
  else
    (hllSparseIdx s).map fun idx => if idx ≠ (hllRegisters : ℤ) then none
      else some (Host.hllEstimate s)

/-- `max[i] = max(max[i], regval)` for a run. -/
def hllMaxRun (regval : ℕ) : ℕ → ℤ × List ℕ → Option (ℤ × List ℕ)
  | 0, st => some st
  | runlen + 1, (i, regs) =>
    if 0 ≤ i ∧ i < hllRegisters then
      hllMaxRun regval runlen (int32 (i + 1), regs.set i.toNat (max (regs.getD i.toNat 0) regval))
    else none

def hllMergeStep (st : ℤ × List ℕ) : HllOp → Option (ℤ × List ℕ)
  | .val value len => hllMaxRun value len st
  | op => some (int32 (st.1 + op.runlen), st.2)

/-- `hllMerge`; `some none` is `VR_ERROR`. -/
def hllMerge (regs : List ℕ) (s : Sds) : Option (Option (List ℕ)) :=
  if hllEncoding s = hllDense then
    some
      (some ((List.range hllRegisters).map fun i => max (regs.getD i 0) (hllDenseGetRegister s i)))
  else
    (hllScan hllMergeStep (s.drop hllHdrSize) (0, regs)).map fun st =>
      if st.1 ≠ (hllRegisters : ℤ) then none else some st.2

/-! ## The sums behind the estimate

The table `PE` has the exact values of `2^-reg`; the second number is `ez`. -/

/-- `r0` to `r3`; the other twelve registers of a round are read in the same way. -/
def hllFour (a b c : ℕ) : List ℕ :=
  [a &&& 63, (a >>> 6 ||| b <<< 2) &&& 63, (b >>> 4 ||| c <<< 4) &&& 63, (c >>> 2) &&& 63]

/-- The sixteen registers of round `j`. -/
def hllSixteen (s : Sds) (j : ℕ) : List ℕ :=
  let r (k : ℕ) : ℕ := (s.getD (hllHdrSize + (12 * j + k)) 0).toNat
  hllFour (r 0) (r 1) (r 2) ++ hllFour (r 3) (r 4) (r 5) ++ hllFour (r 6) (r 7) (r 8) ++
    hllFour (r 9) (r 10) (r 11)

def hllDenseSum (PE : ℕ → ℚ) (s : Sds) : ℚ × ℕ :=
  (List.range 1024).foldl (fun st j =>
    (st.1 + ((hllSixteen s j).map PE).sum, st.2 + (hllSixteen s j).count 0)) (0, 0)

def hllSparseSumStep (PE : ℕ → ℚ) (st : ℚ × ℕ) : HllOp → ℚ × ℕ
  | .val value len => (st.1 + PE value * len, st.2)
  | op => (st.1, st.2 + op.runlen)

/-- `hllSparseSum`; its `idx` is `hllSparseIdx`. -/
def hllSparseSum (PE : ℕ → ℚ) (s : Sds) : Option (ℚ × ℕ) :=
  (hllScan (fun st op => some (hllSparseSumStep PE st op)) (s.drop hllHdrSize) (0, 0)).map fun st =>
    (st.1 + st.2, st.2)

/-- `if (bytes[k]) E += PE[bytes[k]]; else ez++;` -/
def hllRawByte (PE : ℕ → ℚ) (st : ℚ × ℕ) (b : ℕ) : ℚ × ℕ :=
  if b ≠ 0 then (st.1 + PE b, st.2) else (st.1, st.2 + 1)

def hllRawWord (PE : ℕ → ℚ) (st : ℚ × ℕ) (bytes : List ℕ) : ℚ × ℕ :=
  if bytes.all (· == 0) then (st.1, st.2 + 8) else bytes.foldl (hllRawByte PE) st

def hllRawSum (PE : ℕ → ℚ) (regs : List ℕ) : ℚ × ℕ :=
  let st :=
    (List.range (hllRegisters / 8)).foldl
      (fun st j => hllRawWord PE st ((regs.drop (8 * j)).take 8)) (0, 0)
  (st.1 + st.2, st.2)

/-- The string of `createHLLObject`: one opcode is enough for all registers. -/
def hllNew : Sds :=
  ascii "HYLL".toList ++ hllSparse :: List.replicate 11 0 ++ hllSparseXzeroSet hllRegisters

/-- The test of `isHLLObjectOrReply`.  An integer of 16 digits would be taken for a pointer. -/
def isHLLObject (o : Robj) : Option Bool :=
  if stringObjectLen o < hllHdrSize then some false
  else if o.isInt then none
  else
    let s := text o
    some (s.take 4 == ascii "HYLL".toList &&
      (hllEncoding s == hllDense && s.length == hllDenseSize || hllEncoding s == hllSparse))

end Vire
