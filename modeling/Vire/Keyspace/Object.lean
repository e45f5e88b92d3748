import Mathlib.Logic.Function.Basic
import Mathlib.Tactic.Common
import Vire.Dict.Dict
import Vire.Util

/-!
# String objects

An object has a physical identity, its address.  There are no reference counts; only constant
objects may be in several places, and those are never freed or encoded in place.  A place that holds
an object has its content with it.  `Heap` is what memory has at each address; that the two agree is
an invariant of the server.
-/

namespace Vire

/-- `encoding` and `ptr` of a string object.  `freed` stands for storage that was given back. -/
inductive StrEnc
  | raw (s : Sds)
  | embstr (s : Sds)
  | int (i : ℤ)
  | freed
  deriving DecidableEq

structure Robj where
  addr : ℕ
  constant : Bool
  enc : StrEnc
  deriving DecidableEq

def StrEnc.text : StrEnc → Sds
  | raw s => s
  | embstr s => s
  | int i => ll2string i
  | freed => []

instance : Text Robj := ⟨fun o => o.enc.text⟩

namespace Robj

def sdsEncoded (o : Robj) : Bool :=
  match o.enc with
  | .raw _ => true
  | .embstr _ => true
  | _ => false

def isInt (o : Robj) : Bool :=
  match o.enc with
  | .int _ => true
  | _ => false

end Robj

def objSharedIntegers : ℕ := 10000

def sharedInteger (i : ℕ) : Robj := ⟨i, true, .int i⟩

/-- `shared.del`, which stands in argument vectors that are rewritten for replication.  The other
shared objects are replies and are not kept anywhere. -/
def sharedDel : Robj := ⟨objSharedIntegers, true, .embstr (ascii ['D', 'E', 'L'])⟩

/-- The addresses below are those of the shared objects. -/
def firstFree : ℕ := objSharedIntegers + 1

def sharedContent (a : ℕ) : StrEnc :=
  if a < objSharedIntegers then .int a
  else if a = objSharedIntegers then sharedDel.enc
  else .freed

def objEncodingEmbstrSizeLimit : ℕ := 44

structure Heap where
  cell : ℕ → StrEnc
  next : ℕ

namespace Heap

def write (h : Heap) (a : ℕ) (e : StrEnc) : Heap := { h with cell := Function.update h.cell a e }

def alloc (h : Heap) (e : StrEnc) : Robj × Heap :=
  (⟨h.next, false, e⟩, ⟨Function.update h.cell h.next e, h.next + 1⟩)

def free (h : Heap) (o : Robj) : Heap := if o.constant then h else h.write o.addr .freed

def freeAll (h : Heap) (os : List Robj) : Heap := os.foldl free h

def init : Heap := ⟨sharedContent, firstFree⟩

end Heap

/-- `createObject(OBJ_STRING, sdsnewlen(…))` and `createRawStringObject` -/
def createRawStringObject (s : Sds) (h : Heap) : Robj × Heap := h.alloc (.raw s)

def createStringObject (s : Sds) (h : Heap) : Robj × Heap :=
  h.alloc (if s.length ≤ objEncodingEmbstrSizeLimit then .embstr s else .raw s)

def createStringObjectFromLongLong (v : ℤ) (h : Heap) : Robj × Heap :=
  if 0 ≤ v ∧ v < objSharedIntegers then (sharedInteger v.toNat, h) else h.alloc (.int v)

def dupStringObject (o : Robj) (h : Heap) : Robj × Heap := h.alloc o.enc

def dupStringObjectUnconstant (o : Robj) (h : Heap) : Robj × Heap :=
  if o.constant then (o, h) else dupStringObject o h

/-- What `tryObjectEncoding` does with its argument. -/
inductive Encoding
  /-- The object is returned as it is. -/
  | keep
  /-- The object is freed, a shared integer returned. -/
  | share (i : ℕ)
  /-- The object becomes integer encoded in place. -/
  | inPlace (v : ℤ)
  /-- The object is freed, an embedded copy returned. -/
  | embed (s : Sds)

def tryObjectEncodingOf (o : Robj) : Encoding :=
  if !o.sdsEncoded then .keep
  else if o.constant then .keep
  else
    let s := text o
    match if s.length ≤ 21 then string2ll s else none with
    | some v => if 0 ≤ v ∧ v < objSharedIntegers then .share v.toNat else .inPlace v
    | none =>
      match o.enc with
      | .raw s => if s.length ≤ objEncodingEmbstrSizeLimit then .embed s else .keep
      | _ => .keep

def tryObjectEncoding (o : Robj) (h : Heap) : Robj × Heap :=
  match tryObjectEncodingOf o with
  | .keep => (o, h)
  | .share i => (sharedInteger i, h.free o)
  | .inPlace v => ({ o with enc := .int v }, h.write o.addr (.int v))
  | .embed s =>
    let emb := h.alloc (.embstr s)
    (emb.1, emb.2.free o)

def isObjectRepresentableAsLongLong (o : Robj) : Option ℤ :=
  match o.enc with
  | .int i => some i
  | _ => string2ll (text o)

/-- `getLongLongFromObject`; `long` has the range of `long long`, so also `getLongFromObject`. -/
def getLongLongFromObject (o : Robj) : Option ℤ :=
  match o.enc with
  | .int i => some i
  | _ => getLongLong (text o)

def getDecodedObject (o : Robj) (h : Heap) : Robj × Heap :=
  match o.enc with
  | .int i => createStringObject (ll2string i) h
  | _ => (o, h)

def freeDecoded (decoded o : Robj) (h : Heap) : Heap :=
  if decoded.addr = o.addr then h else h.free decoded

def stringObjectLen (o : Robj) : ℕ :=
  match o.enc with
  | .int i => sdigits10 i
  | _ => (text o).length

/-- `memcmp` of as many bytes as both strings have. -/
def memcmp : Sds → Sds → ℤ
  | a :: s, b :: t => if a < b then -1 else if b < a then 1 else memcmp s t
  | _, _ => 0

/-- `compareStringObjectsWithFlags` with `REDIS_COMPARE_BINARY`, after both objects are strings.
The difference of the lengths is returned as an `int`. -/
def compareStrings (s t : Sds) : ℤ :=
  if memcmp s t = 0 then int32 (s.length - t.length) else memcmp s t

def compareStringObjects (a b : Robj) : ℤ :=
  if a.addr = b.addr then 0 else compareStrings (text a) (text b)

def equalStringObjects (a b : Robj) : Bool :=
  match a.enc, b.enc with
  | .int i, .int j => i == j
  | _, _ => compareStringObjects a b == 0

/-- `dictSdsKeyCompare`.  The lengths are kept in an `int`; of a negative one `memcmp` makes a
number of bytes that is more than any string has. -/
def dictSdsKeyCompare (s t : Sds) : Bool :=
  let l1 := int32 s.length
  let l2 := int32 t.length
  let n := (l1 % 2 ^ 64).toNat
  l1 == l2 && memcmp (s.take n) (t.take n) == 0

def dictEncObjKeyCompare (o1 o2 : Robj) (h : Heap) : Bool :=
  match o1.enc, o2.enc with
  | .int i, .int j => i == j
  | _, _ =>
    let o1' := getDecodedObject o1 h
    let o2' := getDecodedObject o2 o1'.2
    dictSdsKeyCompare (text o1'.1) (text o2'.1)

def dictEncObjHash [HashFn] (o : Robj) : ℕ :=
  match o.enc with
  | .int i => HashFn.hash (ll2string i)
  | _ => HashFn.hash (text o)

end Vire
