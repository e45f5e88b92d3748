import Mathlib.Data.List.Basic
import Mathlib.Tactic.Ring

/-!
# Byte strings

`sds` strings are binary safe byte strings.  The C library functions that read them stop at the
first zero byte, so they are modelled through `cstr`.
-/

namespace Vire

abbrev Sds := List UInt8

/-- The bytes of a string constant of the source. -/
def ascii (s : List Char) : Sds := s.map fun c => c.toNat.toUInt8

/-- What a C function sees of a string: everything before the first zero byte. -/
def cstr (s : Sds) : Sds := s.takeWhile (· ≠ 0)

def tolower (b : UInt8) : UInt8 := if 65 ≤ b ∧ b ≤ 90 then b + 32 else b

/-- `!strcasecmp(s, lit)` for a lower case constant `lit`. -/
def strcaseEq (s : Sds) (lit : List Char) : Bool := (cstr s).map tolower == ascii lit

def isspace (b : UInt8) : Bool := b == 32 || (9 ≤ b && b ≤ 13)

def isdigit (b : UInt8) : Bool := 48 ≤ b && b ≤ 57

def digitsVal (s : Sds) : ℕ := s.foldl (fun v b => 10 * v + (b.toNat - 48)) 0

def llongMin : ℤ := -2 ^ 63
def llongMax : ℤ := 2 ^ 63 - 1

/-- Arithmetic of `long` and `long long`, which wraps around on this platform. -/
def wrap (v : ℤ) : ℤ := Int.bmod v (2 ^ 64)

def int32 (v : ℤ) : ℤ := Int.bmod v (2 ^ 32)

theorem int32_of_lt {n : ℤ} (hlo : -2 ^ 31 < n) (hhi : n < 2 ^ 31) : int32 n = n := by
  unfold int32
  rw [Int.bmod_eq_of_le] <;> omega

/-- `strtoll(s, &eptr, 10)` on a string without leading space: the value before the range check
and what `eptr` points to.  Without a digit nothing is converted and `eptr` is the start. -/
def strtoll (s : Sds) : ℤ × Sds :=
  let neg := s.head? == some 45
  let t := if s.head? == some 45 || s.head? == some 43 then s.tail else s
  let ds := t.takeWhile isdigit
  if ds = [] then (0, s)
  else (if neg then -(digitsVal ds : ℤ) else digitsVal ds, t.dropWhile isdigit)

/-- `getLongLongFromObject` on a string that is not integer encoded. -/
def getLongLong (s : Sds) : Option ℤ :=
  if (s.head?.map isspace).getD false then none
  else
    let (v, eptr) := strtoll (cstr s)
    if eptr ≠ [] ∨ v < llongMin ∨ llongMax < v then none else some v

example : getLongLong (ascii ['-', '1', '2']) = some (-12) := by decide

def decimalLoop : ℕ → ℕ → Sds → Sds
  | 0, _, acc => acc
  | fuel + 1, n, acc =>
    let acc := (48 + n % 10).toUInt8 :: acc
    if n < 10 then acc else decimalLoop fuel (n / 10) acc

def decimal (n : ℕ) : Sds := decimalLoop (n + 1) n []

def ll2string (v : ℤ) : Sds := if v < 0 then 45 :: decimal v.natAbs else decimal v.natAbs

/-- `string2ll`: the strings `ll2string` can produce. -/
def string2ll (s : Sds) : Option ℤ :=
  if s = [48] then some 0
  else
    let neg := s.head? == some 45
    let ds := if neg then s.tail else s
    if ds.head?.any (fun b => 49 ≤ b && b ≤ 57) && ds.all isdigit then
      let v : ℤ := if neg then -(digitsVal ds : ℤ) else digitsVal ds
      if llongMin ≤ v ∧ v ≤ llongMax then some v else none
    else none

example : string2ll (ll2string (-120)) = some (-120) := by decide

end Vire
