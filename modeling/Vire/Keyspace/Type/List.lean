import Vire.Keyspace.Host
import Vire.Keyspace.Range
import Vire.Keyspace.Type.Quicklist

/-!
# Lists

The list type of `vr_t_list.c`.
-/

namespace Vire

/-- `createQuicklistObject` and `quicklistSetOptions` -/
def createQuicklistObject [Host] : Quicklist := quicklistNew Host.listMaxZiplistSize

def listTypePush (subject : Quicklist) (value : Robj) (w : Where) (h : Heap) :
    Option (Quicklist × Heap) :=
  let valueNew := getDecodedObject value h
  (quicklistPush subject (text valueNew.1) w).map fun ql =>
    (ql, freeDecoded valueNew.1 value valueNew.2)

/-- `listTypePop`: the element is returned as a new object. -/
def listTypePop (subject : Quicklist) (w : Where) (h : Heap) :
    Option (Option Robj × Quicklist × Heap) :=
  (quicklistPopCustom subject w).map fun r =>
    match r.1 with
    | none => (none, r.2, h)
    | some e =>
      let value := e.object h
      (some value.1, r.2, value.2)

def listTypeLength (subject : Quicklist) : ℕ := quicklistCount subject

def listTypeRange : ℕ → Option QuicklistIter → List ZipEntry
  | 0, _ => []
  | rangelen + 1, iter =>
    match quicklistNext iter with
    | none => initEntry :: listTypeRange rangelen iter
    | some (e, iter') => e :: listTypeRange rangelen (some iter')

/-- The loop of `lremCommand`: how many entries it removes, and what is left. -/
def lremLoop (obj : Sds) (toremove : ℤ) :
    ℕ → Quicklist → QuicklistCursor → ℕ → Option (ℕ × Quicklist)
  | 0, _, _, _ => none
  | fuel + 1, subject, li, removed =>
    match quicklistCursorNext subject (subject.nodes.length + 1) li with
    | none => some (removed, subject)
    | some (entry, li) => do
      if ← quicklistCompare subject entry obj then
        let r ← quicklistDelEntry subject li entry
        if toremove ≠ 0 ∧ ((removed + 1 : ℕ) : ℤ) = toremove then return (removed + 1, r.1)
        else lremLoop obj toremove fuel r.1 r.2 (removed + 1)
      else lremLoop obj toremove fuel subject li removed

/-- The part of `lremCommand` on the list.  The iterator of an empty list is null, and is released
all the same.  `-LONG_MIN` is `LONG_MIN`. -/
def listTypeRemove (subject : Quicklist) (toremove : ℤ) (obj : Sds) : Option (ℕ × Quicklist) :=
  if toremove < 0 then
    (quicklistGetCursorAtIdx subject .tail (-1)).bind fun li =>
      lremLoop obj ((-toremove).bmod (2 ^ 64)) (subject.count + 1) subject li 0
  else
    (quicklistGetCursorAtIdx subject .head 0).bind fun li =>
      lremLoop obj toremove (subject.count + 1) subject li 0

/-- How many entries `ltrimCommand` removes on the left and on the right. -/
def ltrimCounts (start stop llen : ℤ) : ℤ × ℤ :=
  let r := convertIndexes start stop llen
  if emptyRange r llen then (llen, 0)
  else (r.1, llen - clampStop r.2 llen - 1)

def listTypeTrim (subject : Quicklist) (start stop : ℤ) : Option Quicklist :=
  let r := ltrimCounts start stop (listTypeLength subject)
  (quicklistDelRange subject 0 r.1).bind fun ql => quicklistDelRange ql (-r.2) r.2

end Vire
