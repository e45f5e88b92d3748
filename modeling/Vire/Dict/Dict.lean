import Vire.Sds

/-!
# Hash tables with incremental rehashing

The model of `vr_dict.c`.  A dictionary has two tables of bucket chains; while it is being rehashed,
entries move bucket by bucket from the first to the second.  Keys are compared and hashed by their
text, whatever holds it.  Sizes are natural numbers.  A table of `2 ^ 61` buckets has no memory, as
`dcalloc` counts its bytes in 64 bits, so the bound of `_dictNextPower` at `LONG_MAX` is out of
reach; `DictOp.exec` stops there.  `dict_can_resize` keeps its initial value, as nothing calls
`dictDisableResize`.
-/

namespace Vire

class Text (K : Type) where
  text : K → Sds

export Text (text)

instance : Text Sds := ⟨id⟩

@[simp]
theorem text_sds (x : Sds) : text x = x := rfl

/-- `dictGenHashFunction`, with the seed of the process. -/
class HashFn where
  hash : Sds → ℕ

/-- `dictht`.  The table is empty as long as none is allocated. -/
structure Dictht (K V : Type) where
  table : List (List (K × V))
  used : ℕ

/-- `dict`.  `rehashidx` is `none` for `-1`. -/
structure Dict (K V : Type) where
  ht0 : Dictht K V
  ht1 : Dictht K V
  rehashidx : Option ℕ
  iterators : ℕ

variable {K V : Type}

namespace Dictht

def reset : Dictht K V := ⟨[], 0⟩

def alloc (n : ℕ) : Dictht K V := ⟨List.replicate n [], 0⟩

def size (h : Dictht K V) : ℕ := h.table.length

def sizemask (h : Dictht K V) : ℕ := h.size - 1

def chain (h : Dictht K V) (i : ℕ) : List (K × V) := h.table.getD i []

def entries (h : Dictht K V) : List (K × V) := h.table.flatten

variable [HashFn]

def idx (h : Dictht K V) (x : Sds) : ℕ := HashFn.hash x &&& h.sizemask

variable [Text K]

def find (h : Dictht K V) (x : Sds) : Option (K × V) :=
  (h.chain (h.idx x)).find? fun e => text e.1 == x

def push (h : Dictht K V) (e : K × V) : Dictht K V :=
  { table := h.table.modify (h.idx (text e.1)) (e :: ·), used := h.used + 1 }

def unlink (h : Dictht K V) (x : Sds) : Dictht K V :=
  { table := h.table.modify (h.idx x) (·.eraseP fun e => text e.1 == x), used := h.used - 1 }

def setVal (h : Dictht K V) (x : Sds) (v : V) : Dictht K V :=
  let put := fun e : K × V => if text e.1 == x then (e.1, v) else e
  { h with table := h.table.modify (h.idx x) (·.map put) }

end Dictht

namespace Dict

def create : Dict K V := ⟨.reset, .reset, none, 0⟩

def isRehashing (d : Dict K V) : Bool := d.rehashidx.isSome

def size (d : Dict K V) : ℕ := d.ht0.used + d.ht1.used

/-- All entries, in the order an iterator visits them: the second table only while rehashing. -/
def entries (d : Dict K V) : List (K × V) :=
  d.ht0.entries ++ if d.isRehashing then d.ht1.entries else []

end Dict

def dictHtInitialSize : ℕ := 4

def dictNextPowerLoop : ℕ → ℕ → ℕ → ℕ
  | 0, i, _ => i
  | n + 1, i, size => if size ≤ i then i else dictNextPowerLoop n (i * 2) size

/-- `_dictNextPower`; the loop doubles, so it ends within `size` rounds. -/
def dictNextPower (size : ℕ) : ℕ := dictNextPowerLoop size dictHtInitialSize size

/-- `dictExpand`; `none` for `DICT_ERR`. -/
def dictExpand (d : Dict K V) (size : ℕ) : Option (Dict K V) :=
  let realsize := dictNextPower size
  if d.isRehashing ∨ size < d.ht0.used then none
  else if realsize = d.ht0.size then none
  else if d.ht0.table = [] then some { d with ht0 := .alloc realsize }
  else some { d with ht1 := .alloc realsize, rehashidx := some 0 }

/-- `dictResize`; the number of entries is put in an `int`. -/
def dictResize (d : Dict K V) : Option (Dict K V) :=
  if d.isRehashing then none
  else dictExpand d (max (int32 d.ht0.used) dictHtInitialSize).toNat

def dictExpandIfNeeded (d : Dict K V) : Option (Dict K V) :=
  if d.isRehashing then some d
  else if d.ht0.size = 0 then dictExpand d dictHtInitialSize
  else if d.ht0.size ≤ d.ht0.used then dictExpand d (d.ht0.used * 2)
  else some d

/-- Where the search for the next bucket to move ends: at a bucket with entries, or with the
visits used up. -/
inductive Skip
  | found (rehashidx visits : ℕ)
  | out (rehashidx : ℕ)

/-- `while (d->ht[0].table[d->rehashidx] == NULL) { d->rehashidx++; if (--empty_visits == 0) … }` -/
def skipEmpty (h : Dictht K V) : ℕ → ℕ → Skip
  | 0, i => .out i
  | v + 1, i =>
    if h.chain i ≠ [] then .found i (v + 1)
    else if v = 0 then .out (i + 1)
    else skipEmpty h v (i + 1)

variable [HashFn] [Text K]

def moveBucket (d : Dict K V) (i : ℕ) : Dict K V :=
  { d with
    ht0 := { table := d.ht0.table.set i [], used := d.ht0.used - (d.ht0.chain i).length }
    ht1 := (d.ht0.chain i).foldl Dictht.push d.ht1
    rehashidx := some (i + 1) }

/-- The loop of `dictRehash`; `true` when it returned from inside. -/
def dictRehashLoop : ℕ → ℕ → Dict K V → Dict K V × Bool
  | 0, _, d => (d, false)
  | n + 1, visits, d =>
    if d.ht0.used = 0 then (d, false)
    else
      match skipEmpty d.ht0 visits (d.rehashidx.getD 0) with
      | .out i => ({ d with rehashidx := some i }, true)
      | .found i v => dictRehashLoop n v (moveBucket d i)

/-- `dictRehash`; `true` while there is more to move. -/
def dictRehash (d : Dict K V) (n : ℕ) : Dict K V × Bool :=
  if d.isRehashing then
    let r := dictRehashLoop n (n * 10) d
    if r.2 then (r.1, true)
    else if r.1.ht0.used = 0 then
      ({ r.1 with ht0 := r.1.ht1, ht1 := .reset, rehashidx := none }, false)
    else (r.1, true)
  else (d, false)

def dictRehashStep (d : Dict K V) : Dict K V :=
  if d.iterators = 0 then (dictRehash d 1).1 else d

/-- `if (dictIsRehashing(d)) _dictRehashStep(d);` -/
def rehashStepIf (d : Dict K V) : Dict K V := if d.isRehashing then dictRehashStep d else d

/-- `dictFind`.  The rehash step the function once began with is commented out. -/
def dictFind (d : Dict K V) (x : Sds) : Option (K × V) :=
  if d.ht0.used + d.ht1.used = 0 then none
  else (d.ht0.find x).or (if d.isRehashing then d.ht1.find x else none)

/-- `dictAdd`; the flag is `DICT_OK`. -/
def dictAdd (d : Dict K V) (k : K) (v : V) : Dict K V × Bool :=
  let d := rehashStepIf d
  match dictExpandIfNeeded d with
  | none => (d, false)
  | some d =>
    if ((d.ht0.find (text k)).or (if d.isRehashing then d.ht1.find (text k) else none)).isSome then
      (d, false)
    else if d.isRehashing then ({ d with ht1 := d.ht1.push (k, v) }, true)
    else ({ d with ht0 := d.ht0.push (k, v) }, true)

def Dict.setVal (d : Dict K V) (x : Sds) (v : V) : Dict K V :=
  if (d.ht0.find x).isSome then { d with ht0 := d.ht0.setVal x v }
  else { d with ht1 := d.ht1.setVal x v }

/-- `dictReplace`; the flag is set when the entry is new. -/
def dictReplace (d : Dict K V) (k : K) (v : V) : Dict K V × Bool :=
  let r := dictAdd d k v
  if r.2 then r else (r.1.setVal (text k) v, false)

/-- `dictReplaceRaw` followed by setting the value of the entry it returns. -/
def dictReplaceRaw (d : Dict K V) (k : K) (v : V) : Dict K V :=
  if (dictFind d (text k)).isSome then d.setVal (text k) v else (dictAdd d k v).1

/-- `dictGenericDelete`; the entry it unlinked, if any. -/
def dictDelete (d : Dict K V) (x : Sds) : Dict K V × Option (K × V) :=
  if d.ht0.size = 0 then (d, none)
  else
    let d := rehashStepIf d
    match d.ht0.find x with
    | some e => ({ d with ht0 := d.ht0.unlink x }, some e)
    | none =>
      if d.isRehashing then
        match d.ht1.find x with
        | some e => ({ d with ht1 := d.ht1.unlink x }, some e)
        | none => (d, none)
      else (d, none)

def dictEmpty (_ : Dict K V) : Dict K V := .create

/-- `dictGetRandomKey`.  The function draws buckets until one has an entry and then draws an entry
of its chain; `r` stands for what the random numbers lead to. -/
def dictGetRandomKey (d : Dict K V) (r : ℕ) : Option (K × V) × Dict K V :=
  if d.size = 0 then (none, d)
  else
    let d := rehashStepIf d
    (d.entries[r % d.entries.length]?, d)

/-- `rev`: the bits of a word in reverse order. -/
def rev (v : UInt64) : UInt64 :=
  (([32, 16, 8, 4, 2, 1] : List UInt64).foldl (fun (p : UInt64 × UInt64) s =>
    let mask := p.2 ^^^ (p.2 <<< s)
    (((p.1 >>> s) &&& mask) ||| ((p.1 <<< s) &&& ~~~mask), mask)) (v, ~~~0)).1

/-- The expansions of the cursor in the larger table: entries and the cursor after the loop. -/
def scanLarger (t1 : Dictht K V) (m0 m1 : UInt64) : ℕ → UInt64 → List (K × V) × UInt64
  | 0, v => ([], v)
  | n + 1, v =>
    let v' := (((v ||| m0) + 1) &&& ~~~m0) ||| (v &&& m0)
    let here := t1.chain (v &&& m1).toNat
    if v' &&& (m0 ^^^ m1) = 0 then (here, v')
    else
      let r := scanLarger t1 m0 m1 n v'
      (here ++ r.1, r.2)

/-- `dictScan`: the entries passed to the callback and the next cursor. -/
def dictScan (d : Dict K V) (v : UInt64) : List (K × V) × UInt64 :=
  if d.size = 0 then ([], 0)
  else
    let next (m0 v : UInt64) : UInt64 := rev (rev (v ||| ~~~m0) + 1)
    if d.isRehashing then
      let t0 := if d.ht1.size < d.ht0.size then d.ht1 else d.ht0
      let t1 := if d.ht1.size < d.ht0.size then d.ht0 else d.ht1
      let m0 := UInt64.ofNat t0.sizemask
      let r := scanLarger t1 m0 (UInt64.ofNat t1.sizemask) t1.size v
      (t0.chain (v &&& m0).toNat ++ r.1, next m0 r.2)
    else
      let m0 := UInt64.ofNat d.ht0.sizemask
      (d.ht0.chain (v &&& m0).toNat, next m0 v)

end Vire
