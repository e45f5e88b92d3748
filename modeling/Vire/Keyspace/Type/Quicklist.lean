import Mathlib.Data.Int.DivMod
import Vire.Keyspace.Type.Ziplist

/-!
# Quicklists

`vr_quicklist.c`: a list of nodes, and a ziplist in each of them.  A pointer to a node is its
position.  The compression depth of the server is 0, so that no node is ever compressed.  A function
returns `none` where a null pointer is followed or a ziplist is destroyed.
-/

namespace Vire

structure QuicklistNode where
  zl : Ziplist
  /-- The byte length of the ziplist, in 32 bits. -/
  sz : ℕ
  /-- The number of entries, in 16 bits. -/
  count : ℕ

structure Quicklist where
  nodes : List QuicklistNode
  count : ℕ
  fill : ℤ

/-- `quicklistSetFill`; the field has 16 bits, so that `FILL_MAX` becomes negative. -/
def quicklistSetFill (fill : ℤ) : ℤ :=
  (if 2 ^ 15 < fill then 2 ^ 15 else if fill < -5 then -5 else fill).bmod (2 ^ 16)

def quicklistNew (fill : ℤ) : Quicklist := ⟨[], 0, quicklistSetFill fill⟩

def quicklistCreateNode : QuicklistNode := ⟨[], 0, 0⟩

/-- `quicklistCount`, which returns an `unsigned int`. -/
def quicklistCount (ql : Quicklist) : ℕ := ql.count % 2 ^ 32

def optimizationLevel : List ℕ := [4096, 8192, 16384, 32768, 65536]

def quicklistNodeSizeMeetsOptimizationRequirement (sz : ℕ) (fill : ℤ) : Bool :=
  if 0 ≤ fill then false
  else
    match optimizationLevel[(-fill - 1).toNat]? with
    | none => false
    | some level => decide (sz ≤ level)

def sizeSafetyLimit : ℕ := 8192

def quicklistNodeAllowInsert (node : QuicklistNode) (fill : ℤ) (sz : ℕ) : Bool :=
  let overhead := (if sz < 254 then 1 else 5) + if sz < 64 then 1 else if sz < 16384 then 2 else 5
  let newSz := (node.sz + sz + overhead) % 2 ^ 32
  if quicklistNodeSizeMeetsOptimizationRequirement newSz fill then true
  else if sizeSafetyLimit < newSz then false
  else decide ((node.count : ℤ) < fill)

/-- Push to the ziplist of a node, and `quicklistNodeUpdateSz`. -/
def QuicklistNode.push (node : QuicklistNode) (value : Sds) (w : Where) : Option QuicklistNode :=
  (ziplistPush node.zl value w).map fun zl => ⟨zl, ziplistBlobLen zl, (node.count + 1) % 2 ^ 16⟩

def Where.node : Where → List QuicklistNode → Option (QuicklistNode × List QuicklistNode)
  | .head, nodes => nodes.head?.map (·, nodes.tail)
  | .tail, nodes => nodes.getLast?.map (·, nodes.dropLast)

/-- `_quicklistInsertNodeBefore(quicklist, quicklist->head, node)` or
`_quicklistInsertNodeAfter(quicklist, quicklist->tail, node)` -/
def Where.insertNode : Where → QuicklistNode → List QuicklistNode → List QuicklistNode
  | .head, node, nodes => node :: nodes
  | .tail, node, nodes => nodes ++ [node]

def Quicklist.pushTo (ql : Quicklist) (node : QuicklistNode)
    (nodes : List QuicklistNode) (value : Sds) (w : Where) : Option Quicklist :=
  (node.push value w).map fun node =>
    { ql with nodes := w.insertNode node nodes, count := ql.count + 1 }

/-- `quicklistPush`: into the node at this end, or into a new one. -/
def quicklistPush (ql : Quicklist) (value : Sds) (w : Where) : Option Quicklist :=
  match w.node ql.nodes with
  | none => ql.pushTo quicklistCreateNode ql.nodes value w
  | some (node, nodes) =>
    if quicklistNodeAllowInsert node ql.fill value.length then ql.pushTo node nodes value w
    else ql.pushTo quicklistCreateNode ql.nodes value w

def quicklistPushTail (ql : Quicklist) (value : Sds) :
    Option Quicklist := quicklistPush ql value .tail

def initEntry : ZipEntry := .int (-123456789)

structure QuicklistEntry where
  node : ℕ
  zi : Option ℕ
  offset : ℤ
  value : ZipEntry

/-- The loop of `quicklistIndex` over the nodes in one direction: how many are passed, and how many
entries they have. -/
def quicklistIndexLoop (index : ℕ) : List QuicklistNode → ℕ → ℕ → Option (ℕ × ℕ)
  | [], _, _ => none
  | n :: nodes, i, accum =>
    if index < accum + n.count then some (i, accum)
    else quicklistIndexLoop index nodes (i + 1) (accum + n.count)

def quicklistEntryAt (ql : Quicklist) (node : ℕ) (offset : ℤ) : Option QuicklistEntry :=
  ql.nodes[node]?.map fun n =>
    let zi := ziplistIndex n.zl offset
    ⟨node, zi, offset, (zi.bind (ziplistGet n.zl)).getD initEntry⟩

/-- `quicklistIndex`: from the head on, or from the tail on if the index is negative. -/
def quicklistIndex (ql : Quicklist) (idx : ℤ) : Option QuicklistEntry :=
  if idx < 0 then
    let index := (-idx - 1).toNat
    if ql.count ≤ index then none
    else
      match quicklistIndexLoop index ql.nodes.reverse 0 0 with
      | none => none
      | some (i, accum) => quicklistEntryAt ql (ql.nodes.length - 1 - i) (-index - 1 + accum)
  else
    let index := idx.toNat
    if ql.count ≤ index then none
    else
      match quicklistIndexLoop index ql.nodes 0 0 with
      | none => none
      | some (i, accum) => quicklistEntryAt ql i (index - accum)

/-- `quicklistReplaceAtIndex`; the flag is set if there was an entry.  `sz` stays as it is. -/
def quicklistReplaceAtIndex (ql : Quicklist) (index : ℤ) (data : Sds) : Option (Bool × Quicklist) :=
  match quicklistIndex ql index with
  | none => some (false, ql)
  | some entry => do
    let node ← ql.nodes[entry.node]?
    let zi ← entry.zi
    let zl ← ziplistInsert (ziplistDelete node.zl zi) zi data
    return (true, { ql with nodes := ql.nodes.set entry.node { node with zl := zl } })

/-- An iterator from head to tail.  `nodes` are the current node and those behind it. -/
structure QuicklistIter where
  nodes : List QuicklistNode
  zi : Option ℕ
  offset : ℤ

/-- `quicklistGetIteratorAtIdx(quicklist, AL_START_HEAD, idx)` -/
def quicklistGetIteratorAtIdx (ql : Quicklist) (idx : ℤ) : Option QuicklistIter :=
  (quicklistIndex ql idx).map fun entry => ⟨ql.nodes.drop entry.node, none, entry.offset⟩

/-- The loop of `quicklistNext`, which goes on with the next node at the end of a ziplist. -/
def quicklistNextLoop : List QuicklistNode → Option ℕ → ℤ → Option (ZipEntry × QuicklistIter)
  | [], _, _ => none
  | n :: nodes, zi, offset =>
    let p := match zi with
      | none => (ziplistIndex n.zl offset, offset)
      | some zi => (ziplistNext n.zl zi, offset + 1)
    match p.1 with
    | some zi => some ((ziplistGet n.zl zi).getD initEntry, ⟨n :: nodes, some zi, p.2⟩)
    | none => quicklistNextLoop nodes none 0

def quicklistNext (iter : Option QuicklistIter) : Option (ZipEntry × QuicklistIter) :=
  iter.bind fun iter => quicklistNextLoop iter.nodes iter.zi iter.offset

def quicklistDelIndex (ql : Quicklist) (node : ℕ) (p : ℕ) : Option Quicklist :=
  ql.nodes[node]?.map fun n =>
    let zl := ziplistDelete n.zl p
    let nodes :=
      if n.count - 1 = 0 then ql.nodes.eraseIdx node
      else ql.nodes.set node ⟨zl, ziplistBlobLen zl, n.count - 1⟩
    { ql with nodes := nodes, count := ql.count - 1 }

/-- An iterator that may delete what it has returned.  `direction` is the end it has come from
(`AL_START_HEAD`, `AL_START_TAIL`), and `current` is the position of its node. -/
structure QuicklistCursor where
  current : Option ℕ
  zi : Option ℕ
  offset : ℤ
  direction : Where

def quicklistGetCursorAtIdx (ql : Quicklist) (direction : Where) (idx : ℤ) :
    Option QuicklistCursor :=
  (quicklistIndex ql idx).map fun entry => ⟨some entry.node, none, entry.offset, direction⟩

def Quicklist.nodeBehind (ql : Quicklist) (node : ℕ) : Where → Option ℕ
  | .head => if node + 1 < ql.nodes.length then some (node + 1) else none
  | .tail => if node = 0 then none else some (node - 1)

def Where.entryOffset : Where → ℤ
  | .head => 0
  | .tail => -1

/-- Where `quicklistNext` looks in the ziplist of its node, and the offset there. -/
def QuicklistCursor.look (iter : QuicklistCursor) (zl : Ziplist) : Option ℕ × ℤ :=
  match iter.zi, iter.direction with
  | none, _ => (ziplistIndex zl iter.offset, iter.offset)
  | some zi, .head => (ziplistNext zl zi, iter.offset + 1)
  | some zi, .tail => (ziplistPrev zi, iter.offset - 1)

/-- `quicklistNext`, which calls itself for the next node at the end of a ziplist. -/
def quicklistCursorNext (ql : Quicklist) :
    ℕ → QuicklistCursor → Option (QuicklistEntry × QuicklistCursor)
  | 0, _ => none
  | fuel + 1, iter => do
    let current ← iter.current
    let n ← ql.nodes[current]?
    let p := iter.look n.zl
    match p.1 with
    | some zi =>
      return (⟨current, some zi, p.2, (ziplistGet n.zl zi).getD initEntry⟩,
        ⟨some current, some zi, p.2, iter.direction⟩)
    | none =>
      quicklistCursorNext ql fuel
        ⟨ql.nodeBehind current iter.direction, none, iter.direction.entryOffset, iter.direction⟩

def quicklistCompare (ql : Quicklist) (entry : QuicklistEntry) (s : Sds) : Option Bool := do
  let n ← ql.nodes[entry.node]?
  let zi ← entry.zi
  let e ← n.zl[zi]?
  return ziplistCompare e s

/-- `quicklistDelEntry`.  If the node is deleted, the nodes behind it are one position further to
the front. -/
def quicklistDelEntry (ql : Quicklist) (iter : QuicklistCursor) (entry : QuicklistEntry) :
    Option (Quicklist × QuicklistCursor) := do
  let n ← ql.nodes[entry.node]?
  let zi ← entry.zi
  let ql' ← quicklistDelIndex ql entry.node zi
  if n.count - 1 = 0 then
    let current := match iter.direction with
      | .head => (ql.nodeBehind entry.node .head).map (· - 1)
      | .tail => ql.nodeBehind entry.node .tail
    return (ql', ⟨current, none, iter.direction.entryOffset, iter.direction⟩)
  else return (ql', { iter with zi := none })

/-- `quicklistPopCustom`; there is nothing to return if the list is empty. -/
def quicklistPopCustom (ql : Quicklist) (w : Where) : Option (Option ZipEntry × Quicklist) :=
  if ql.count = 0 then some (none, ql)
  else
    let node := match w with
      | .head => 0
      | .tail => ql.nodes.length - 1
    match ql.nodes[node]? with
    | none => some (none, ql)
    | some n =>
      let pos : ℤ := match w with
        | .head => 0
        | .tail => -1
      match ziplistIndex n.zl pos with
      | none => some (none, ql)
      | some p => (quicklistDelIndex ql node p).map fun ql' => (ziplistGet n.zl p, ql')

/-- How many entries `quicklistDelRange` takes from a node, and whether it deletes the whole
node. -/
def quicklistDelFrom (node : QuicklistNode) (extent : ℕ) (offset : ℤ) : Bool × ℕ :=
  if offset = 0 ∧ node.count ≤ extent then (true, node.count)
  else if 0 ≤ offset ∧ node.count ≤ extent then (false, node.count - offset.toNat)
  else if offset < 0 then (false, min (-offset).toNat extent)
  else (false, extent)

/-- The loop of `quicklistDelRange` from a node on: the nodes that are left, and the number of
entries that `count` is decreased by. -/
def quicklistDelRangeLoop : List QuicklistNode → ℕ → ℤ → Option (List QuicklistNode × ℕ)
  | nodes, 0, _ => some (nodes, 0)
  | [], _ + 1, _ => none
  | node :: nodes, extent + 1, offset =>
    let r := quicklistDelFrom node (extent + 1) offset
    (quicklistDelRangeLoop nodes (extent + 1 - r.2) 0).map fun rest =>
      if r.1 then (rest.1, rest.2 + r.2)
      else
        let zl := ziplistDeleteRange node.zl offset r.2
        let count := (((node.count : ℤ) - r.2) % 2 ^ 16).toNat
        if count = 0 then (rest.1, rest.2 + r.2)
        else (⟨zl, ziplistBlobLen zl, count⟩ :: rest.1, rest.2 + r.2)

def quicklistDelRange (ql : Quicklist) (start count : ℤ) : Option Quicklist :=
  if count ≤ 0 then some ql
  else
    -- unsigned subtraction: a start behind the end does not limit the extent
    let left := ((ql.count : ℤ) - start) % 2 ^ 64
    let extent :=
      if 0 ≤ start ∧ left < count then left
      else if start < 0 ∧ -start < count then -start
      else count
    match quicklistIndex ql start with
    | none => some ql
    | some entry =>
      (quicklistDelRangeLoop (ql.nodes.drop entry.node) extent.toNat entry.offset).map fun r =>
        { ql with nodes := ql.nodes.take entry.node ++ r.1, count := ql.count - r.2 }

end Vire
