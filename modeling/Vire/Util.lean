import Vire.Sds

/-!
# Helpers of `vr_util.c`

Reading numbers and amounts of memory, and glob patterns.
-/

namespace Vire

def sdsIsNum (s : Sds) : Bool := s ≠ [] && s.all isdigit

/-- `vr_atoi`: the value of a string of digits, computed in an `int`. -/
def vrAtoi (s : Sds) : ℤ :=
  if s = [] ∨ ¬ s.all isdigit then -1
  else
    let v := s.foldl (fun v b => int32 (v * 10 + (b.toNat - 48))) 0
    if v < 0 then -1 else v

/-- `digits10`, for the values of a `uint64_t`. -/
def digits10Loop : ℕ → ℕ → ℕ
  | 0, _ => 0
  | fuel + 1, v =>
    if v < 10 then 1
    else if v < 100 then 2
    else if v < 1000 then 3
    else if v < 1000000000000 then
      if v < 100000000 then
        if v < 1000000 then
          if v < 10000 then 4 else 5 + if 100000 ≤ v then 1 else 0
        else 7 + if 10000000 ≤ v then 1 else 0
      else if v < 10000000000 then 9 + if 1000000000 ≤ v then 1 else 0
      else 11 + if 100000000000 ≤ v then 1 else 0
    else 12 + digits10Loop fuel (v / 1000000000000)

def digits10 (v : ℕ) : ℕ := digits10Loop (v + 1) v

/-- `sdigits10`; the absolute value of `LLONG_MIN` is computed as `LLONG_MAX + 1`. -/
def sdigits10 (v : ℤ) : ℕ := if v < 0 then digits10 v.natAbs + 1 else digits10 v.natAbs

example : vrAtoi (ascii ['2', '1', '4', '7', '4', '8', '3', '6', '4', '8']) = -1 := by decide

def memUnit (u : Sds) : Option ℤ :=
  if u = [] || strcaseEq u ['b'] then some 1
  else if strcaseEq u ['k'] then some 1000
  else if strcaseEq u ['k', 'b'] then some 1024
  else if strcaseEq u ['m'] then some (1000 * 1000)
  else if strcaseEq u ['m', 'b'] then some (1024 * 1024)
  else if strcaseEq u ['g'] then some (1000 * 1000 * 1000)
  else if strcaseEq u ['g', 'b'] then some (1024 * 1024 * 1024)
  else none

/-- `memtoll`, with `none` where it reports an error.  The digits are converted by `strtoll`, which
stops at the limits of `long long`, takes no digits for 0, and cannot convert a lone sign. -/
def memtoll (s : Sds) : Option ℤ :=
  let p := cstr s
  let neg := p.head? == some 45
  let t := if neg then p.tail else p
  let ds := t.takeWhile isdigit
  match memUnit (t.dropWhile isdigit) with
  | none => none
  | some mul =>
    if 128 ≤ ds.length + (if neg then 1 else 0) ∨ (neg ∧ ds = []) then none
    else
      let v : ℤ := if neg then -(digitsVal ds : ℤ) else digitsVal ds
      some (wrap (max llongMin (min llongMax v) * mul))

example : memtoll (ascii ['2', 'K', 'b']) = some 2048 := by decide

/-! ## Glob patterns

The name that is matched is never empty.  `stringmatchlen` looks at the first byte of what is left
of it also when nothing is left, but not on the paths on which it started with a byte. -/

def signed (b : UInt8) : ℤ := if b < 128 then b.toNat else (b.toNat : ℤ) - 256

def sameChar (nocase : Bool) (a b : UInt8) : Bool :=
  if nocase then tolower a == tolower b else a == b

def lowerIf (nocase : Bool) (v : ℤ) : ℤ := if nocase ∧ 65 ≤ v ∧ v ≤ 90 then v + 32 else v

/-- `c` is in the range of a class that is written `a-b` or `b-a`. -/
def inRange (nocase : Bool) (a b c : UInt8) : Bool :=
  let lo := lowerIf nocase (min (signed a) (signed b))
  let hi := lowerIf nocase (max (signed a) (signed b))
  lo ≤ lowerIf nocase (signed c) && lowerIf nocase (signed c) ≤ hi

/-- The rest of a class: whether `c` is in it, and the pattern behind it.  A class may end with the
pattern; a backslash at its end makes `stringmatchlen` read on behind the pattern, and whatever it
finds there it reports no match. -/
def matchClass (nocase : Bool) (c : UInt8) : Sds → Bool → Option (Bool × Sds)
  | [], m => some (m, [])
  | [92], _ => none
  | 92 :: e :: p, m => matchClass nocase c p (m || e == c)
  | 93 :: p, m => some (m, p)
  | a :: 45 :: b :: p, m => matchClass nocase c p (m || inRange nocase a b c)
  | a :: p, m => matchClass nocase c p (m || sameChar nocase a c)

/-- What the loop does once a byte of the string is used: at the end of the string only stars may
be left of the pattern. -/
def matchRest (next : Sds → Sds → Bool) (p s : Sds) : Bool :=
  if s = [] then p.all (· == 42) else next p s

def matchLoop (nocase : Bool) : ℕ → Sds → Sds → Bool
  | 0, _, _ => false
  | _, [], s => s = []
  | _, _, [] => false
  | fuel + 1, b :: p, c :: s =>
    if b = 42 then
      let p := p.dropWhile (· == 42)
      p = [] || ((c :: s).tails.filter (· ≠ [])).any (matchLoop nocase fuel p)
    else if b = 63 then matchRest (matchLoop nocase fuel) p s
    else if b = 91 then
      let neg := p.head? == some 94
      match matchClass nocase c (if neg then p.tail else p) false with
      | none => false
      | some (m, p) => m != neg && matchRest (matchLoop nocase fuel) p s
    else
      let q := if b = 92 ∧ p ≠ [] then p else b :: p
      q.head?.any (sameChar nocase · c) && matchRest (matchLoop nocase fuel) q.tail s

/-- `stringmatch`, which stops at zero bytes. -/
def stringmatch (pattern string : Sds) (nocase : Bool) : Bool :=
  matchLoop nocase ((cstr pattern).length + 1) (cstr pattern) (cstr string)

example : stringmatch (ascii ['M', 'A', 'X', '*', '[', 'a', '-', 'd', ']', '?'])
    (ascii ['m', 'a', 'x', '-', 'c', 'd', 'b', 'x']) true = true := by decide

end Vire
