import Vire.Dict.Dict

/-!
# Safe iterators

`dictGetSafeIterator`, `dictNext` and `dictReleaseIterator`.  While a safe iterator is in use, the
counter `iterators` keeps the rehash steps from moving entries.  A pointer to an entry is the text
of its key.
-/

namespace Vire

variable {K V : Type}

/-- `dictIterator`.  `table` is set for the second table, `index` is `none` for `-1`. -/
structure DictIterator where
  table : Bool
  index : Option ℕ
  entry : Option Sds
  nextEntry : Option Sds
  deriving DecidableEq

def dictGetSafeIterator : DictIterator := ⟨false, none, none, none⟩

/-- `iter->index == -1 && iter->table == 0` -/
def DictIterator.unused (iter : DictIterator) : Bool := iter.index.isNone && !iter.table

/-- `d->ht[table]` -/
def Dict.ht (d : Dict K V) (table : Bool) : Dictht K V := if table then d.ht1 else d.ht0

variable [Text K]

def headText (chain : List (K × V)) : Option Sds := chain.head?.map fun e => text e.1

/-- `entry->next` of the entry of a text. -/
def nextText (chain : List (K × V)) (x : Sds) : Option Sds :=
  headText (chain.dropWhile fun e => text e.1 != x).tail

/-- The first half of a turn of the loop of `dictNext`, up to where `iter->entry` is tested; the
flag is set for `break`. -/
def dictNextTurn (d : Dict K V) (iter : DictIterator) : DictIterator × Dict K V × Bool :=
  match iter.entry with
  | some _ => ({ iter with entry := iter.nextEntry }, d, false)
  | none =>
    let d := if iter.unused then { d with iterators := d.iterators + 1 } else d
    let index := iter.index.elim 0 (· + 1)
    if index < (d.ht iter.table).size then
      ({ iter with index := some index, entry := headText ((d.ht iter.table).chain index) }, d,
        false)
    else if d.isRehashing && !iter.table then
      ({ iter with table := true, index := some 0, entry := headText (d.ht1.chain 0) }, d, false)
    else ({ iter with index := some index }, d, true)

/-- The loop of `dictNext`, at most `n` turns. -/
def dictNextLoop : ℕ → Dict K V → DictIterator → Option Sds × DictIterator × Dict K V
  | 0, d, iter => (none, iter, d)
  | n + 1, d, iter =>
    let r := dictNextTurn d iter
    if r.2.2 then (none, r.1, r.2.1)
    else
      match r.1.entry with
      | some x =>
        let chain := (r.2.1.ht r.1.table).chain (r.1.index.getD 0)
        (some x, { r.1 with nextEntry := nextText chain x }, r.2.1)
      | none => dictNextLoop n r.2.1 r.1

/-- `dictNext`; a turn goes on to the next bucket, but for the first, which may end a chain. -/
def dictNext (d : Dict K V) (iter : DictIterator) : Option Sds × DictIterator × Dict K V :=
  dictNextLoop (d.ht0.size + d.ht1.size + 2) d iter

omit [Text K] in
def dictReleaseIterator (d : Dict K V) (iter : DictIterator) : Dict K V :=
  if iter.unused then d else { d with iterators := d.iterators - 1 }

end Vire
