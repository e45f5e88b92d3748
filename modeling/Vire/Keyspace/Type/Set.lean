import Vire.Dict.Run
import Vire.Keyspace.Host
import Vire.Keyspace.Type.Intset

/-!
# Sets

The set type of `vr_t_set.c`: small sets of integers are intsets, all others dictionaries.  A
function that asserts something returns `none` where the assertion fails.
-/

namespace Vire

inductive SetVal
  | intset (is : Intset)
  | ht (d : Dict Robj Unit)

/-- What `setTypeNext` returns: an integer of an intset or an object of a dictionary. -/
inductive Elem
  | num (i : ℤ)
  | obj (o : Robj)

def Elem.text : Elem → Sds
  | num i => ll2string i
  | obj o => Text.text o

def createIntsetObject : SetVal := .intset intsetNew

def createSetObject : SetVal := .ht .create

def setTypeCreate (value : Robj) : SetVal :=
  if (isObjectRepresentableAsLongLong value).isSome then createIntsetObject else createSetObject

def setTypeSize : SetVal → ℕ
  | .intset is => intsetLen is
  | .ht d => d.size

def setTypeElems : SetVal → List Elem
  | .intset is => is.contents.map .num
  | .ht d => d.entries.map fun e => .obj e.1

def SetVal.objs : SetVal → List Robj
  | intset _ => []
  | ht d => d.entries.map Prod.fst

/-- The key destructor of an entry that was unlinked. -/
def freeKey {V : Type} (e : Option (Robj × V)) (h : Heap) : Heap :=
  match e with
  | none => h
  | some e => h.free e.1

variable [Host]

/-- The loop of `setTypeConvert`, which asserts that every element is new. -/
def setTypeConvertLoop : List ℤ → Dict Robj Unit → Heap → Option (Dict Robj Unit × Heap)
  | [], d, h => some (d, h)
  | v :: l, d, h =>
    let element := createStringObjectFromLongLong v h
    let r := dictAdd d element.1 ()
    if r.2 then setTypeConvertLoop l r.1 element.2 else none

/-- `setTypeConvert` to a dictionary with room for all elements. -/
def setTypeConvert (is : Intset) (h : Heap) : Option (Dict Robj Unit × Heap) :=
  setTypeConvertLoop is.contents ((dictExpand .create (intsetLen is)).getD .create) h

/-- `setTypeAdd`; the flag is set when the value is new.  The copy of a value that is in the
dictionary already is freed. -/
def setTypeAdd (subject : SetVal) (value : Robj) (h : Heap) : Option (Bool × SetVal × Heap) :=
  match subject with
  | .ht d =>
    let obj := dupStringObjectUnconstant value h
    let r := dictAdd d obj.1 ()
    some (r.2, .ht r.1, if r.2 then obj.2 else obj.2.free obj.1)
  | .intset is =>
    match isObjectRepresentableAsLongLong value with
    | some llval =>
      let r := intsetAdd is llval
      if r.2 ∧ Host.setMaxIntsetEntries < intsetLen r.1 then
        (setTypeConvert r.1 h).map fun c => (true, .ht c.1, c.2)
      else some (r.2, .intset r.1, h)
    | none =>
      (setTypeConvert is h).bind fun c =>
        let obj := dupStringObjectUnconstant value c.2
        let r := dictAdd c.1 obj.1 ()
        if r.2 then some (true, .ht r.1, obj.2) else none

/-- Whether there is room for the value: `intsetResize` counts the bytes of an intset in 32 bits,
and `_dictKeyIndex` returns the bucket of a new key as an `int`.  Past that the set is destroyed. -/
def setTypeHasRoom (subject : SetVal) (value : Robj) : Bool :=
  match subject with
  | .ht d => (dictFind d (text value)).isSome || dictAddIndex d value < 2 ^ 31
  | .intset is =>
    match isObjectRepresentableAsLongLong value with
    | some llval =>
      intsetFind is llval ||
        (intsetLen is + 1) * max is.encoding.bytes (intsetValueEncoding llval).bytes < 2 ^ 32
    | none => true

def setTypeRemove (setobj : SetVal) (value : Robj) (h : Heap) : Bool × SetVal × Heap :=
  match setobj with
  | .ht d =>
    let r := dictDelete d (text value)
    (r.2.isSome, .ht (if r.2.isSome then resizeIfNeeded r.1 else r.1), freeKey r.2 h)
  | .intset is =>
    match isObjectRepresentableAsLongLong value with
    | some llval =>
      let r := intsetRemove is llval
      (r.2, .intset r.1, h)
    | none => (false, .intset is, h)

def setTypeIsMember (subject : SetVal) (value : Robj) : Bool :=
  match subject with
  | .ht d => (dictFind d (text value)).isSome
  | .intset is =>
    match isObjectRepresentableAsLongLong value with
    | some llval => intsetFind is llval
    | none => false

/-- `setTypeRandomElement` of a set that is not empty; a dictionary may make a rehash step.  `r` is
what the random numbers lead to. -/
def setTypeRandomElement (setobj : SetVal) (r : ℕ) : Option Elem × SetVal :=
  match setobj with
  | .ht d =>
    let de := dictGetRandomKey d r
    (de.1.map fun e => .obj e.1, .ht de.2)
  | .intset is => (some (.num (intsetRandom is r)), .intset is)

end Vire
