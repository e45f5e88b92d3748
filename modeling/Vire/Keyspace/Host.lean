import Vire.Keyspace.Object

/-!
# What comes from outside

The number of databases and the limits of the compact encodings are set when the server starts.
Nothing in the model depends on what the hash functions, the glob patterns and the estimate of a
cardinality compute, but for the pattern `*`, which is not handed on to `stringmatchlen`.
-/

namespace Vire

/-- The 64 bits of a `double`. -/
abbrev Score := UInt64

class Host extends HashFn where
  dblnum : ℕ
  dbinum : ℕ
  dbinum_pos : 0 < dbinum
  /-- `list_max_ziplist_size`, `set_max_intset_entries` and so on -/
  listMaxZiplistSize : ℤ
  setMaxIntsetEntries : ℕ
  hashMaxZiplistEntries : ℕ
  hashMaxZiplistValue : ℕ
  stringmatch : Sds → Sds → Bool
  stringmatch_star : ∀ s, stringmatch [42] s = true
  hllSparseMaxBytes : ℕ
  hllHash : Sds → UInt64
  hllEstimate : Sds → UInt64
  hllEstimateRaw : List ℕ → UInt64

/-- A host to evaluate the model on: texts are hashed to the sum of their bytes, and a
pattern matches itself only, unless it is `*`. -/
@[reducible]
def Host.plain (dblnum dbinum : ℕ) (h : 0 < dbinum) : Host where
  hash s := (s.map UInt8.toNat).sum
  dblnum := dblnum
  dbinum := dbinum
  dbinum_pos := h
  listMaxZiplistSize := -2
  setMaxIntsetEntries := 512
  hashMaxZiplistEntries := 512
  hashMaxZiplistValue := 64
  stringmatch p s := p == [42] || p == s
  stringmatch_star _ := rfl
  hllSparseMaxBytes := 3000
  hllHash s := s.foldl (fun h b => h + b.toUInt64) 0
  hllEstimate _ := 0
  hllEstimateRaw _ := 0

def htNeedsResize {K V : Type} (d : Dict K V) : Bool :=
  let size := d.ht0.size + d.ht1.size
  size ≠ 0 && d.size ≠ 0 && dictHtInitialSize < size && d.size * 100 / size < 10

def resizeIfNeeded {K V : Type} (d : Dict K V) : Dict K V :=
  if htNeedsResize d then (dictResize d).getD d else d

end Vire
