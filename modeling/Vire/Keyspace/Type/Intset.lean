import Vire.Sds

/-!
# Intsets

`vr_intset.c`: a sorted array of integers, all of them kept in 16, 32 or 64 bits.  The contents are
the integers that are read back; writing one cuts it to the width of the array.  No array has as
many as `INT_MAX` integers.
-/

namespace Vire

/-- `INTSET_ENC_INT16`, `INTSET_ENC_INT32` and `INTSET_ENC_INT64` -/
inductive IntsetEnc
  | int16
  | int32
  | int64
  deriving DecidableEq

/-- The constants are the sizes in bytes. -/
def IntsetEnc.bytes : IntsetEnc → ℕ
  | int16 => 2
  | int32 => 4
  | int64 => 8

def IntsetEnc.cast (e : IntsetEnc) (v : ℤ) : ℤ := Int.bmod v (2 ^ (8 * e.bytes))

def intsetValueEncoding (v : ℤ) : IntsetEnc :=
  if v < -2 ^ 31 ∨ 2 ^ 31 - 1 < v then .int64
  else if v < -2 ^ 15 ∨ 2 ^ 15 - 1 < v then .int32
  else .int16

structure Intset where
  encoding : IntsetEnc
  contents : List ℤ
  deriving DecidableEq

def intsetNew : Intset := ⟨.int16, []⟩

def intsetLen (is : Intset) : ℕ := is.contents.length

def Intset.at (is : Intset) (pos : ℤ) : ℤ := is.contents.getD pos.toNat 0

structure IntsetSearch where
  min : ℤ
  max : ℤ
  mid : ℤ
  cur : ℤ

/-- The loop of `intsetSearch`, which halves an interval of no more than `fuel` positions. -/
def intsetSearchLoop (is : Intset) (value : ℤ) : ℕ → IntsetSearch → IntsetSearch
  | 0, v => v
  | fuel + 1, v =>
    if v.min ≤ v.max then
      let mid := (v.min + v.max) / 2
      let cur := is.at mid
      if cur < value then intsetSearchLoop is value fuel ⟨mid + 1, v.max, mid, cur⟩
      else if value < cur then intsetSearchLoop is value fuel ⟨v.min, mid - 1, mid, cur⟩
      else ⟨v.min, v.max, mid, cur⟩
    else v

/-- `intsetSearch`: whether the value is there, and its position or the one to insert it at. -/
def intsetSearch (is : Intset) (value : ℤ) : Bool × ℕ :=
  let length := intsetLen is
  if length = 0 then (false, 0)
  else if is.at (length - 1) < value then (false, length)
  else if value < is.at 0 then (false, 0)
  else
    let v := intsetSearchLoop is value length ⟨0, length - 1, -1, -1⟩
    if value = v.cur then (true, v.mid.toNat) else (false, v.min.toNat)

def intsetUpgradeAndAdd (is : Intset) (value : ℤ) : Intset :=
  let newenc := intsetValueEncoding value
  let moved := is.contents.map newenc.cast
  ⟨newenc, if value < 0 then newenc.cast value :: moved else moved ++ [newenc.cast value]⟩

/-- `intsetAdd`; the flag is `success`. -/
def intsetAdd (is : Intset) (value : ℤ) : Intset × Bool :=
  if is.encoding.bytes < (intsetValueEncoding value).bytes then (intsetUpgradeAndAdd is value, true)
  else
    let r := intsetSearch is value
    if r.1 then (is, false)
    else
      let tail := is.contents.drop r.2
      ({ is with contents := is.contents.take r.2 ++ is.encoding.cast value :: tail }, true)

/-- `intsetRemove`; the flag is `success`. -/
def intsetRemove (is : Intset) (value : ℤ) : Intset × Bool :=
  let r := intsetSearch is value
  if (intsetValueEncoding value).bytes ≤ is.encoding.bytes ∧ r.1 = true then
    ({ is with contents := is.contents.take r.2 ++ is.contents.drop (r.2 + 1) }, true)
  else (is, false)

def intsetFind (is : Intset) (value : ℤ) : Bool :=
  (intsetValueEncoding value).bytes ≤ is.encoding.bytes && (intsetSearch is value).1

def intsetRandom (is : Intset) (rand : ℕ) : ℤ := is.at (rand % intsetLen is : ℕ)

end Vire
