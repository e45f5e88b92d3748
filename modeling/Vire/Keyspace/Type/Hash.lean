import Vire.Dict.Run
import Vire.Keyspace.Host
import Vire.Keyspace.Type.Ziplist

/-!
# Hashes

The hash type of `vr_t_hash.c`: small hashes are ziplists in which fields and values alternate, all
others dictionaries.  A function returns `none` where it asserts something that does not hold, or a
ziplist is destroyed.
-/

namespace Vire

inductive HashVal
  | ziplist (zl : Ziplist)
  | ht (d : Dict Robj Robj)

def createHashObject : HashVal := .ziplist []

def hashTypeLength : HashVal → ℕ
  | .ziplist zl => zl.length / 2
  | .ht d => d.size

def HashVal.objs : HashVal → List Robj
  | ziplist _ => []
  | ht d => d.entries.flatMap fun e => [e.1, e.2]

/-- What `addHashIteratorCursorToReply` sends for a field or a value. -/
inductive HashItem
  | entry (e : ZipEntry)
  | obj (o : Robj)

def HashItem.text : HashItem → Sds
  | entry e => Text.text e
  | obj o => Text.text o

/-- The pairs `hashTypeNext` goes through in a ziplist; it asserts that every field has a value. -/
def ziplistPairs : Ziplist → Option (List (ZipEntry × ZipEntry))
  | [] => some []
  | [_] => none
  | f :: v :: zl => (ziplistPairs zl).map ((f.content, v.content) :: ·)

def hashTypePairs : HashVal → Option (List (HashItem × HashItem))
  | .ziplist zl => (ziplistPairs zl).map (·.map fun p => (.entry p.1, .entry p.2))
  | .ht d => some (d.entries.map fun e => (.obj e.1, .obj e.2))

variable [Host]

/-- `hashTypeGetFromZiplist`: `none` if an assertion fails, and no entry if there is no such
field. -/
def hashTypeGetFromZiplist (zl : Ziplist) (field : Robj) (h : Heap) :
    Option (Option ZipEntry × Heap) :=
  let decoded := getDecodedObject field h
  let h' := freeDecoded decoded.1 field decoded.2
  match ziplistFind zl (text decoded.1) 1 with
  | none => some (none, h')
  | some fptr =>
    match ziplistGet zl (fptr + 1) with
    | none => none
    | some v => some (some v, h')

def hashTypeGetFromHashTable (d : Dict Robj Robj) (field : Robj) : Option Robj :=
  (dictFind d (text field)).map Prod.snd

/-- The value of a field, in the way both encodings have it. -/
def hashTypeGet (o : HashVal) (field : Robj) (h : Heap) : Option (Option HashItem × Heap) :=
  match o with
  | .ziplist zl => (hashTypeGetFromZiplist zl field h).map fun r => (r.1.map .entry, r.2)
  | .ht d => some ((hashTypeGetFromHashTable d field).map .obj, h)

/-- `hashTypeGetValueLength`: the length of a value, 0 if there is none. -/
def hashTypeGetValueLength : Option HashItem → ℕ
  | none => 0
  | some (.entry (.str s)) => s.length
  | some (.entry (.int v)) => sdigits10 v
  | some (.obj o) => stringObjectLen o

/-- The loop of `hashTypeConvertZiplist`, which asserts that every field is new. -/
def hashTypeConvertLoop : Ziplist → Dict Robj Robj → Heap → Option (Dict Robj Robj × Heap)
  | [], d, h => some (d, h)
  | [_], _, _ => none
  | f :: v :: zl, d, h =>
    let field := f.content.object h
    let field := tryObjectEncoding field.1 field.2
    let value := v.content.object field.2
    let value := tryObjectEncoding value.1 value.2
    let r := dictAdd d field.1 value.1
    if r.2 then hashTypeConvertLoop zl r.1 value.2 else none

def hashTypeConvert (zl : Ziplist) (h : Heap) : Option (HashVal × Heap) :=
  (hashTypeConvertLoop zl .create h).map fun r => (.ht r.1, r.2)

def hashTypeTryConversion (o : HashVal) (args : List Robj) (h : Heap) : Option (HashVal × Heap) :=
  match o with
  | .ht d => some (.ht d, h)
  | .ziplist zl =>
    if args.any fun a => a.sdsEncoded && Host.hashMaxZiplistValue < (text a).length then
      hashTypeConvert zl h
    else some (.ziplist zl, h)

/-- The ziplist after a field was set, and whether the field was there before. -/
def hashZiplistSet (zl : Ziplist) (field value : Sds) : Option (Ziplist × Bool) :=
  match ziplistFind zl field 1 with
  | some fptr =>
    let vptr := fptr + 1
    if vptr < zl.length then (ziplistInsert (ziplistDelete zl vptr) vptr value).map
      (·, true) else none
  | none =>
    (ziplistPush zl field .tail).bind fun zl => (ziplistPush zl value .tail).map (·, false)

/-- `hashTypeSet`; the flag is set when the field was there before. -/
def hashTypeSet (o : HashVal) (field value : Robj) (h : Heap) : Option (Bool × HashVal × Heap) :=
  match o with
  | .ziplist zl =>
    let fieldNew := getDecodedObject field h
    let valueNew := getDecodedObject value fieldNew.2
    (hashZiplistSet zl (text fieldNew.1) (text valueNew.1)).bind fun r =>
      let h := freeDecoded valueNew.1 value (freeDecoded fieldNew.1 field valueNew.2)
      if Host.hashMaxZiplistEntries < r.1.length / 2 then
        (hashTypeConvert r.1 h).map fun c => (r.2, c)
      else some (r.2, .ziplist r.1, h)
  | .ht d =>
    let fieldNew := dupStringObjectUnconstant field h
    let valueNew := dupStringObjectUnconstant value fieldNew.2
    let old := dictFind d (text fieldNew.1)
    let r := dictReplace d fieldNew.1 valueNew.1
    -- the value destructor frees what was there before
    match old with
    | none => some (false, .ht r.1, valueNew.2)
    | some e => some (true, .ht r.1, (valueNew.2.free e.2).free fieldNew.1)

/-- The bytes of a ziplist are counted in 32 bits.  One that gets longer is destroyed. -/
def ziplistHasRoom (o : HashVal) (field value : Sds) : Bool :=
  match o with
  | .ht _ => true
  | .ziplist zl =>
    (hashZiplistSet zl field value).all fun r => (r.1.map Zlentry.rawlen).sum + 11 < 2 ^ 32

/-- Whether there is room for the field: in a ziplist, or in the table of a dictionary, where
`_dictKeyIndex` returns the bucket of a new field as an `int`. -/
def hashTypeHasRoom (o : HashVal) (field value : Robj) : Bool :=
  match o with
  | .ht d => (dictFind d (text field)).isSome || dictAddIndex d field < 2 ^ 31
  | .ziplist _ => ziplistHasRoom o (text field) (text value)

def hashTypeDelete (o : HashVal) (field : Robj) (h : Heap) : Bool × HashVal × Heap :=
  match o with
  | .ziplist zl =>
    let fieldNew := getDecodedObject field h
    let h' := freeDecoded fieldNew.1 field fieldNew.2
    match ziplistFind zl (text fieldNew.1) 1 with
    | some fptr => (true, .ziplist (ziplistDelete (ziplistDelete zl fptr) fptr), h')
    | none => (false, .ziplist zl, h')
  | .ht d =>
    let r := dictDelete d (text field)
    match r.2 with
    | some e => (true, .ht (resizeIfNeeded r.1), h.freeAll [e.1, e.2])
    | none => (false, .ht r.1, h)

end Vire
