import Vire.Keyspace.Object

/-!
# Ziplists

A ziplist is the sequence of its entries, and a pointer to an entry is its position.  In front of
its content every entry has a field with the length of the entry before it.  The field has one byte
or five, and it may stay wider than it has to be; everything else about the bytes follows from the
contents.
-/

namespace Vire

/-- The content of an entry, as `ziplistGet` returns it. -/
inductive ZipEntry
  | str (s : Sds)
  | int (v : ℤ)
  deriving DecidableEq

def ZipEntry.text : ZipEntry → Sds
  | str s => s
  | int v => ll2string v

instance : Text ZipEntry := ⟨ZipEntry.text⟩

/-- `zipTryEncoding`: the integer to keep instead of a string. -/
def zipTryEncoding (s : Sds) : Option ℤ :=
  if 32 ≤ s.length ∨ s.length = 0 then none else string2ll s

/-- The content `__ziplistInsert` makes of a string. -/
def zipEntry (s : Sds) : ZipEntry :=
  match zipTryEncoding s with
  | some v => .int v
  | none => .str s

/-- `zipIntSize` of the encoding `zipTryEncoding` selects. -/
def zipIntSize (v : ℤ) : ℕ :=
  if 0 ≤ v ∧ v ≤ 12 then 0
  else if -0x80 ≤ v ∧ v ≤ 0x7f then 1
  else if -0x8000 ≤ v ∧ v ≤ 0x7fff then 2
  else if -0x800000 ≤ v ∧ v ≤ 0x7fffff then 3
  else if -0x80000000 ≤ v ∧ v ≤ 0x7fffffff then 4
  else 8

/-- `zipEncodeLength` and the bytes behind it. -/
def ZipEntry.size : ZipEntry → ℕ
  | str s => (if s.length ≤ 0x3f then 1 else if s.length ≤ 0x3fff then 2 else 5) + s.length
  | int v => 1 + zipIntSize v

structure Zlentry where
  /-- The length of the entry before takes five bytes. -/
  wide : Bool
  content : ZipEntry
  deriving DecidableEq

instance : Text Zlentry := ⟨fun e => text e.content⟩

def Zlentry.rawlen (e : Zlentry) : ℕ := (if e.wide then 5 else 1) + e.content.size

abbrev Ziplist := List Zlentry

/-- `ziplistBlobLen`, which reads a field of 32 bits. -/
def ziplistBlobLen (zl : Ziplist) : ℕ := ((zl.map Zlentry.rawlen).sum + 11) % 2 ^ 32

/-- `ziplistIndex`: negative indexes count from the end. -/
def ziplistIndex (zl : Ziplist) (index : ℤ) : Option ℕ :=
  if index < 0 then
    let i := (-index - 1).toNat
    if i < zl.length then some (zl.length - 1 - i) else none
  else if index.toNat < zl.length then some index.toNat else none

def ziplistNext (zl : Ziplist) (p : ℕ) :
    Option ℕ := if p + 1 < zl.length then some (p + 1) else none

def ziplistPrev (p : ℕ) : Option ℕ := if p = 0 then none else some (p - 1)

def ziplistGet (zl : Ziplist) (p : ℕ) : Option ZipEntry := zl[p]?.map Zlentry.content

def ziplistCompare (e : Zlentry) (s : Sds) : Bool :=
  match e.content with
  | .str t => t == s
  | .int v =>
    match zipTryEncoding s with
    | some w => v == w
    | none => false

/-- The loop of `ziplistFind`: `skipcnt` entries are passed before the next comparison, `p` is the
position of the first entry of the list that is left. -/
def ziplistFindLoop (s : Sds) (skip : ℕ) : Ziplist → ℕ → ℕ → Option ℕ
  | [], _, _ => none
  | e :: zl, 0, p => if ziplistCompare e s then some p else ziplistFindLoop s skip zl skip (p + 1)
  | _ :: zl, skipcnt + 1, p => ziplistFindLoop s skip zl skipcnt (p + 1)

def ziplistFind (zl : Ziplist) (s : Sds) (skip : ℕ) : Option ℕ := ziplistFindLoop s skip zl 0 0

/-- `ZIP_BIGLEN`: lengths from here on need five bytes. -/
def zipBigLen : ℕ := 254

/-- `__ziplistCascadeUpdate`: the length of `cur` has changed, `zl` are the entries behind it.  A
field that is too narrow is widened, which changes the length of its entry. -/
def ziplistCascadeUpdate (cur : Zlentry) : Ziplist → Ziplist
  | [] => []
  | next :: zl =>
    if !next.wide ∧ zipBigLen ≤ cur.rawlen then
      { next with wide := true } :: ziplistCascadeUpdate { next with wide := true } zl
    else next :: zl

/-- Store the length `len` in the first entry, in as many bytes as it takes. -/
def ziplistSetPrevLen (len : ℕ) : Ziplist → Ziplist
  | [] => []
  | next :: zl =>
    let next' := { next with wide := decide (zipBigLen ≤ len) }
    next' :: if next'.wide = next.wide then zl else ziplistCascadeUpdate next' zl

def ziplistPrevLen (zl : Ziplist) : ℕ := (zl.getLast?.map Zlentry.rawlen).getD 0

/-- `ziplistInsert` in front of an entry or at the end.  If the field of the next entry becomes four
bytes narrower and the new entry is shorter than that, the buffer is cut before the entries are
moved: this is `none`. -/
def ziplistInsert (zl : Ziplist) (p : ℕ) (s : Sds) : Option Ziplist :=
  let e : Zlentry := ⟨decide (zipBigLen ≤ ziplistPrevLen (zl.take p)), zipEntry s⟩
  if (zl.drop p).head?.any Zlentry.wide ∧ e.rawlen < 4 then none
  else some (zl.take p ++ e :: ziplistSetPrevLen e.rawlen (zl.drop p))

def ziplistDeleteFrom (zl : Ziplist) (p num : ℕ) : Ziplist :=
  if num = 0 then zl
  else zl.take p ++ ziplistSetPrevLen (ziplistPrevLen (zl.take p)) (zl.drop (p + num))

/-- `ziplistDelete` of one entry; the pointer is at the entry behind it afterwards. -/
def ziplistDelete (zl : Ziplist) (p : ℕ) : Ziplist := ziplistDeleteFrom zl p 1

def ziplistDeleteRange (zl : Ziplist) (index : ℤ) (num : ℕ) : Ziplist :=
  match ziplistIndex zl index with
  | none => zl
  | some p => ziplistDeleteFrom zl p num

/-- `LIST_HEAD`, `ZIPLIST_HEAD` and so on -/
inductive Where
  | head
  | tail
  deriving DecidableEq

def ziplistPush (zl : Ziplist) (s : Sds) : Where → Option Ziplist
  | .head => ziplistInsert zl 0 s
  | .tail => ziplistInsert zl zl.length s

def ZipEntry.object (e : ZipEntry) (h : Heap) : Robj × Heap :=
  match e with
  | .str s => createStringObject s h
  | .int v => createStringObjectFromLongLong v h

end Vire
