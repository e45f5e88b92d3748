import Vire.Sds

/-!
# Bit strings

The low level functions of `vr_bitops.c`.  A pointer into a string is the address it points to with
the bytes from there on; both functions that count and search read several bytes at once where the
address is aligned.
-/

namespace Vire

/-- `*p4` and `*l`: a word of the given bytes, the machine is little endian. -/
def loadWord : Sds → ℕ
  | [] => 0
  | b :: s => b.toNat + 256 * loadWord s

def bitsinbyte : List ℕ :=
  [0, 1, 1, 2, 1, 2, 2, 3, 1, 2, 2, 3, 2, 3, 3, 4, 1, 2, 2, 3, 2, 3, 3, 4, 2, 3, 3, 4, 3, 4, 4, 5,
    1, 2, 2, 3, 2, 3, 3, 4, 2, 3, 3, 4, 3, 4, 4, 5, 2, 3, 3, 4, 3, 4, 4, 5, 3, 4, 4, 5, 4, 5, 5, 6,
    1, 2, 2, 3, 2, 3, 3, 4, 2, 3, 3, 4, 3, 4, 4, 5, 2, 3, 3, 4, 3, 4, 4, 5, 3, 4, 4, 5, 4, 5, 5, 6,
    2, 3, 3, 4, 3, 4, 4, 5, 3, 4, 4, 5, 4, 5, 5, 6, 3, 4, 4, 5, 4, 5, 5, 6, 4, 5, 5, 6, 5, 6, 6, 7,
    1, 2, 2, 3, 2, 3, 3, 4, 2, 3, 3, 4, 3, 4, 4, 5, 2, 3, 3, 4, 3, 4, 4, 5, 3, 4, 4, 5, 4, 5, 5, 6,
    2, 3, 3, 4, 3, 4, 4, 5, 3, 4, 4, 5, 4, 5, 5, 6, 3, 4, 4, 5, 4, 5, 5, 6, 4, 5, 5, 6, 5, 6, 6, 7,
    2, 3, 3, 4, 3, 4, 4, 5, 3, 4, 4, 5, 4, 5, 5, 6, 3, 4, 4, 5, 4, 5, 5, 6, 4, 5, 5, 6, 5, 6, 6, 7,
    3, 4, 4, 5, 4, 5, 5, 6, 4, 5, 5, 6, 5, 6, 6, 7, 4, 5, 5, 6, 5, 6, 6, 7, 5, 6, 6, 7, 6, 7, 7, 8]

def bitsInByte (b : UInt8) : ℕ := bitsinbyte.getD b.toNat 0

/-- `Count initial bytes not aligned to 32 bit.`  The bits, and the bytes that are left. -/
def popcountUnaligned : ℕ → Sds → ℕ × Sds
  | _, [] => (0, [])
  | p, b :: s =>
    if p % 4 = 0 then (0, b :: s)
    else
      let r := popcountUnaligned (p + 1) s
      (bitsInByte b + r.1, r.2)

/-- What becomes of one of the words `aux1` to `aux7` before they are added up: the bits of each
byte are counted in the byte. -/
def popcountWord (aux : UInt32) : UInt32 :=
  let aux : UInt32 := aux - ((aux >>> 1) &&& (0x55555555 : UInt32))
  let aux : UInt32 := (aux &&& (0x33333333 : UInt32)) + ((aux >>> 2) &&& (0x33333333 : UInt32))
  (aux + (aux >>> 4)) &&& 0x0F0F0F0F

def auxWord (s : Sds) (i : ℕ) : UInt32 := popcountWord (loadWord ((s.drop (4 * i)).take 4)).toUInt32

def popcount28 (s : Sds) : ℕ :=
  (((auxWord s 0 + auxWord s 1 + auxWord s 2 + auxWord s 3 + auxWord s 4 + auxWord s 5 +
    auxWord s 6) * 0x01010101) >>> 24).toNat

/-- `Count bits 28 bytes at a time`; the first argument bounds the number of rounds. -/
def popcountBlocks : ℕ → Sds → ℕ × Sds
  | 0, s => (0, s)
  | fuel + 1, s =>
    if 28 ≤ s.length then
      let r := popcountBlocks fuel (s.drop 28)
      (popcount28 s + r.1, r.2)
    else (0, s)

def redisPopcount (p : ℕ) (s : Sds) : ℕ :=
  let head := popcountUnaligned p s
  let blocks := popcountBlocks head.2.length head.2
  head.1 + blocks.1 + (blocks.2.map bitsInByte).sum

def skipByte (bit : Bool) : UInt8 := if bit then 0 else 0xff

def skipWord (bit : Bool) : UInt64 := if bit then 0 else 0xffffffffffffffff

/-- `Skip initial bits not aligned to sizeof(unsigned long) byte by byte.`  The position, and the
bytes that are left. -/
def bitposUnaligned (skipval : UInt8) : ℕ → Sds → ℕ × Sds
  | _, [] => (0, [])
  | c, b :: s =>
    if c % 8 = 0 ∨ b ≠ skipval then (0, b :: s)
    else
      let r := bitposUnaligned skipval (c + 1) s
      (8 + r.1, r.2)

/-- `Skip bits with full word step.` -/
def bitposWords (skipval : UInt64) : ℕ → Sds → ℕ × Sds
  | 0, s => (0, s)
  | fuel + 1, s =>
    if 8 ≤ s.length ∧ (loadWord (s.take 8)).toUInt64 = skipval then
      let r := bitposWords skipval fuel (s.drop 8)
      (64 + r.1, r.2)
    else (0, s)

/-- The loop over `j` that loads `n` more bytes, the first one as the most significant.  Behind the
last byte there are zeros. -/
def bitposLoad : ℕ → Sds → UInt64 → UInt64
  | 0, _, word => word
  | n + 1, [], word => bitposLoad n [] (word <<< 8)
  | n + 1, b :: s, word => bitposLoad n s ((word <<< 8) ||| b.toUInt64)

/-- The loop over `one`, which has `n` places to go; `none` where the end of the function is
reached. -/
def bitposScan (word : UInt64) (bit : Bool) : ℕ → UInt64 → ℕ → Option ℕ
  | 0, _, _ => none
  | n + 1, one, pos =>
    if decide (one &&& word ≠ 0) =
      bit then some pos else bitposScan word bit n (one >>> 1) (pos + 1)

/-- `redisBitpos`; `none` stands for the `serverPanic` at its end. -/
def redisBitpos (c : ℕ) (s : Sds) (bit : Bool) : Option ℤ :=
  let head := bitposUnaligned (skipByte bit) c s
  let words := bitposWords (skipWord bit) head.2.length head.2
  let word := bitposLoad 8 words.2 0
  if bit ∧ word = 0 then some (-1)
  else (bitposScan word bit 64 0x8000000000000000 (head.1 + words.1)).map Int.ofNat

/-- `1 << bit` for the bit of a position, `bit = 7 - (bitoffset & 0x7)`. -/
def bitMask (bitoffset : ℕ) : UInt8 := 1 <<< (7 - bitoffset % 8).toUInt8

def getbit (s : Sds) (bitoffset : ℕ) : Bool := s.getD (bitoffset / 8) 0 &&& bitMask bitoffset ≠ 0

/-- `Update byte with new bit value` -/
def updateByte (bitoffset : ℕ) (on : Bool) (byteval : UInt8) : UInt8 :=
  (byteval &&& ~~~bitMask bitoffset) ||| if on then bitMask bitoffset else 0

def setbit (s : Sds) (bitoffset : ℕ) (on : Bool) : Sds :=
  s.modify (bitoffset / 8) (updateByte bitoffset on)

/-- `getBitOffsetFromArgument` without a `#` form: at most 512 MB. -/
def getBitOffsetFromArgument (o : Sds) : Option ℕ :=
  (string2ll o).bind fun loffset =>
    if loffset < 0 ∨ 512 * 1024 * 1024 ≤ loffset / 8 then none else some loffset.toNat

end Vire
