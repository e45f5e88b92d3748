import Vire.Dict.Dict

/-!
# Sequences of calls

`_dictKeyIndex` returns the index of a bucket as an `int`, so an index of `2 ^ 31` or more is
negative: `dictAddRaw` takes -1 for a key that is there, and writes an entry in front of the table
for all others.  `dictAdd` is the function without that.  A call that makes a table of `2 ^ 61`
buckets or more has no answer: the table has no memory.
-/

namespace Vire

variable {K V : Type}

inductive DictOp (K V : Type)
  | add (k : K) (v : V)
  | replace (k : K) (v : V)
  /-- `dictReplaceRaw`, and setting the value of the entry it returns. -/
  | replaceRaw (k : K) (v : V)
  | delete (x : Sds)
  | find (x : Sds)
  | expand (size : ℕ)
  | resize
  | rehash (n : ℕ)
  | empty

inductive DictRes (K V : Type)
  | flag (ok : Bool)
  | entry (e : Option (K × V))
  | done

def Dictht.pushAt (h : Dictht K V) (i : ℕ) (e : K × V) : Dictht K V :=
  { table := h.table.modify i (e :: ·), used := h.used + 1 }

def Dict.newest (d : Dict K V) : Dictht K V := if d.isRehashing then d.ht1 else d.ht0

/-- The tables have less than `2 ^ 61` buckets, so that a `size_t` holds their bytes. -/
def Dict.allocated (d : Dict K V) : Bool := d.ht0.size < 2 ^ 61 && d.ht1.size < 2 ^ 61

variable [HashFn] [Text K]

/-- `_dictKeyIndex`: -1 for a key that is there. -/
def dictKeyIndex (d : Dict K V) (k : K) : Dict K V × ℤ :=
  match dictExpandIfNeeded d with
  | none => (d, -1)
  | some d =>
    if ((d.ht0.find (text k)).or (if d.isRehashing then d.ht1.find (text k) else none)).isSome then
      (d, -1)
    else (d, int32 (d.newest.idx (text k)))

/-- `dictAddRaw`, and setting the value of the entry it returns.  The flag is set unless it returns
`NULL`. -/
def dictAddRaw (d : Dict K V) (k : K) (v : V) : Option (Dict K V × Bool) :=
  let r := dictKeyIndex (rehashStepIf d) k
  if r.2 = -1 then some (r.1, false)
  else if r.2 < 0 then none
  else if r.1.isRehashing then some ({ r.1 with ht1 := r.1.ht1.pushAt r.2.toNat (k, v) }, true)
  else some ({ r.1 with ht0 := r.1.ht0.pushAt r.2.toNat (k, v) }, true)

/-- What a call does and returns, if there is memory for the tables; `none` for an access out of
bounds or through `NULL`. -/
def DictOp.call (d : Dict K V) : DictOp K V → Option (Dict K V × DictRes K V)
  | add k v => (dictAddRaw d k v).map fun r => (r.1, .flag r.2)
  | replace k v =>
    (dictAddRaw d k v).bind fun r =>
      if r.2 then some (r.1, .flag true)
      else if (dictFind r.1 (text k)).isSome then some (r.1.setVal (text k) v, .flag false)
      else none
  | replaceRaw k v =>
    if (dictFind d (text k)).isSome then some (d.setVal (text k) v, .flag true)
    else (dictAddRaw d k v).map fun r => (r.1, .flag r.2)
  | delete x =>
    let r := dictDelete d x
    some (r.1, .flag r.2.isSome)
  | find x => some (d, .entry (dictFind d x))
  | expand size => some ((dictExpand d size).getD d, .done)
  | resize => some ((dictResize d).getD d, .done)
  | rehash n => some ((dictRehash d n).1, .done)
  | empty => some (dictEmpty d, .done)

/-- What a call does and returns. -/
def DictOp.exec (d : Dict K V) (op : DictOp K V) : Option (Dict K V × DictRes K V) :=
  (op.call d).filter (·.1.allocated)

/-- The dictionary afterwards, if the number of every bucket is an `int`. -/
def DictOp.run (d : Dict K V) : DictOp K V → Dict K V
  | add k v => (dictAdd d k v).1
  | replace k v => (dictReplace d k v).1
  | replaceRaw k v => dictReplaceRaw d k v
  | delete x => (dictDelete d x).1
  | find _ => d
  | expand size => (dictExpand d size).getD d
  | resize => (dictResize d).getD d
  | rehash n => (dictRehash d n).1
  | empty => dictEmpty d

/-- A finite map from texts to entries.  The entry of a text keeps its first key. -/
def DictOp.spec (m : Sds → Option (K × V)) : DictOp K V → (Sds → Option (K × V)) × DictRes K V
  | add k v =>
    (if (m (text k)).isSome then m else Function.update m (text k) (some (k, v)),
      .flag (m (text k)).isNone)
  | replace k v =>
    (Function.update m (text k) (some (((m (text k)).map Prod.fst).getD k, v)),
      .flag (m (text k)).isNone)
  | replaceRaw k v =>
    (Function.update m (text k) (some (((m (text k)).map Prod.fst).getD k, v)), .flag true)
  | delete x => (Function.update m x none, .flag (m x).isSome)
  | find x => (m, .entry (m x))
  | expand _ | resize | rehash _ => (m, .done)
  | empty => (fun _ => none, .done)

def DictOp.adds : DictOp K V → Option K
  | add k _ | replace k _ | replaceRaw k _ => some k
  | _ => none

/-- The bucket that `dictAdd` puts a new key in. -/
def dictAddIndex (d : Dict K V) (k : K) : ℕ :=
  ((dictExpandIfNeeded (rehashStepIf d)).getD d).newest.idx (text k)

def skipReads (h : Dictht K V) : ℕ → ℕ → List ℕ
  | 0, _ => []
  | v + 1, i => i :: if h.chain i ≠ [] ∨ v = 0 then [] else skipReads h v (i + 1)

def rehashReads : ℕ → ℕ → Dict K V → List ℕ
  | 0, _, _ => []
  | n + 1, visits, d =>
    if d.ht0.used = 0 then []
    else
      skipReads d.ht0 visits (d.rehashidx.getD 0) ++
        match skipEmpty d.ht0 visits (d.rehashidx.getD 0) with
        | .out _ => []
        | .found i v => rehashReads n v (moveBucket d i)

end Vire
