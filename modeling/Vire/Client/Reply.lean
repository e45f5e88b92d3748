import Vire.Keyspace.Object

/-!
# Replies

The output side of `vr_client.c`.  A reply goes to a static buffer until that is full; then, and
after a header was reserved whose length is not known yet, replies go to a list of string objects,
where they are appended to the last object as long as it is a small one of its own.  `sentlen` says
how much of the buffer, or of the first object once the buffer is empty, was written to the socket.

The statistics, `reply_bytes` with the limit on it, and the lists of clients that have something to
write are left out.
-/

namespace Vire.Reply

def protoReplyChunkBytes : ℕ := 16 * 1024

def netMaxWritesPerEvent : ℕ := 1024 * 64

/-- A node of `c->reply` and its object.  `ptr` is `NULL` in an object that is reserved for a
header, and `header` is the number of the header, which stands for the pointer to the node. -/
structure Node where
  header : Option ℕ
  constant : Bool
  ptr : Option StrEnc

structure Flags where
  lua : Bool
  replyOff : Bool
  replySkip : Bool
  master : Bool
  masterForceReply : Bool
  closeAfterReply : Bool
  fake : Bool

def Flags.none : Flags := ⟨false, false, false, false, false, false, false⟩

structure Client where
  flags : Flags
  buf : Sds
  reply : List Node
  sentlen : ℕ
  headers : ℕ

def prepareClientToWrite (c : Client) : Bool :=
  c.flags.lua ||
    !(c.flags.replyOff || c.flags.replySkip) &&
    !(c.flags.master && !c.flags.masterForceReply) && !c.flags.fake

def clientHasPendingReplies (c : Client) : Bool := c.buf ≠ [] || c.reply ≠ []

/-- `_addReplyToBuffer`; `none` where it fails. -/
def addReplyToBuffer (c : Client) (s : Sds) : Option Client :=
  if c.flags.closeAfterReply then some c
  else if c.reply ≠ [] ∨ protoReplyChunkBytes - c.buf.length < s.length then none
  else some { c with buf := c.buf ++ s }

/-- The string of the last node if it can be appended to: it is set, `RAW`, and stays small. -/
def appendable (c : Client) (len : ℕ) : Option (Node × Sds) :=
  match c.reply.getLast? with
  | none => none
  | some tail =>
    match tail.ptr with
    | some (.raw t) => if t.length + len ≤ protoReplyChunkBytes then some (tail, t) else none
    | _ => none

/-- `_addReplyObjectToList`, `_addReplySdsToList` and `_addReplyStringToList`.  A constant last
object is duplicated before it is appended to; else the object `obj` becomes a node. -/
def addReplyToList (c : Client) (s : Sds) (obj : Node) : Client :=
  if c.flags.closeAfterReply then c
  else
    match appendable c s.length with
    | some (tail, t) =>
      let tail := { tail with constant := false, ptr := some (.raw (t ++ s)) }
      { c with reply := c.reply.dropLast ++ [tail] }
    | none => { c with reply := c.reply ++ [obj] }

def objectNode (o : Robj) : Node := ⟨none, o.constant, some o.enc⟩

def addReplyObjectToList (c : Client) (o : Robj) :
    Client := addReplyToList c (text o) (objectNode o)

def addReplySdsToList (c : Client) (s : Sds) : Client :=
  addReplyToList c s ⟨none, false, some (.raw s)⟩

def addReplyStringToList (c : Client) (s : Sds) : Client :=
  addReplyToList c s (objectNode (createStringObject s .init).1)

/-- `addReply` of an integer encoded object, if there is room for any integer in the buffer. -/
def addReplyInt (c : Client) (i : ℤ) : Option Client :=
  if c.reply = [] ∧ 32 ≤ protoReplyChunkBytes - c.buf.length then addReplyToBuffer c (ll2string i)
  else none

def addReply (c : Client) (obj : Robj) : Client :=
  if !prepareClientToWrite c then c
  else
    match obj.enc with
    | .int i =>
      (addReplyInt c i).getD
        (let decoded := (getDecodedObject obj .init).1
        (addReplyToBuffer c (text decoded)).getD (addReplyObjectToList c decoded))
    | _ => (addReplyToBuffer c (text obj)).getD (addReplyObjectToList c obj)

def addReplySds (c : Client) (s : Sds) : Client :=
  if !prepareClientToWrite c then c else (addReplyToBuffer c s).getD (addReplySdsToList c s)

def addReplyString (c : Client) (s : Sds) : Client :=
  if !prepareClientToWrite c then c else (addReplyToBuffer c s).getD (addReplyStringToList c s)

def addDeferredMultiBulkLength (c : Client) : Client :=
  if !prepareClientToWrite c then c
  else { c with reply := c.reply ++ [⟨some c.headers, false, none⟩], headers := c.headers + 1 }

/-- `*%ld\r\n` -/
def multiBulkHeader (length : ℤ) : Sds := 42 :: ll2string length ++ [13, 10]

/-- The header is set in its node and glued to the next node if that is set. -/
def setHeader (len : Node) (s : Sds) : List Node → List Node
  | [] => [{ len with ptr := some (.raw s) }]
  | next :: rest =>
    match next.ptr with
    | some e => { len with ptr := some (.raw (s ++ e.text)) } :: rest
    | none => { len with ptr := some (.raw s) } :: next :: rest

/-- The node of the header `k` is in the list. -/
def fillHeader (k : ℕ) (s : Sds) : List Node → Option (List Node)
  | [] => none
  | len :: rest =>
    if len.header = some k then some (setHeader len s rest)
    else (fillHeader k s rest).map (len :: ·)

/-- `setDeferredMultiBulkLength`; `none` if the node is not there any more. -/
def setDeferredMultiBulkLength (c : Client) (k : ℕ) (length : ℤ) : Option Client :=
  (fillHeader k (multiBulkHeader length) c.reply).map fun reply => { c with reply }

/-- `while ((n = n / 10) != 0) len++;` -/
def bulkLenLoop : ℕ → ℤ → ℕ → ℕ
  | 0, _, len => len
  | fuel + 1, n, len => if n.tdiv 10 ≠ 0 then bulkLenLoop fuel (n.tdiv 10) (len + 1) else len

/-- The length `addReplyBulkLen` computes.  The negative of the smallest `long` is that number
itself. -/
def bulkLen (o : Robj) : ℕ :=
  match o.enc with
  | .int n =>
    if n < 0 then bulkLenLoop (n.natAbs + 1) (wrap (-n)) 2 else bulkLenLoop (n.natAbs + 1) n 1
  | _ => (text o).length

/-- `$%lld\r\n`, which is also what `shared.bulkhdr` has for the small lengths. -/
def bulkHeader (len : ℤ) : Sds := 36 :: ll2string len ++ [13, 10]

def objSharedBulkhdrLen : ℕ := 32

def sharedReply (s : Sds) : Robj := ⟨0, true, .raw s⟩

def sharedBulkhdr (len : ℕ) : Robj := sharedReply (bulkHeader len)

def addReplyBulkLen (c : Client) (obj : Robj) : Client :=
  let len := bulkLen obj
  if len < objSharedBulkhdrLen then addReply c (sharedBulkhdr len)
  else addReplyString c (bulkHeader len)

/-- What a call of `vr_write` meets: the number of bytes the socket takes, and whether memory is
below the limit after it. -/
structure Sock where
  takes : ℕ
  below : Bool

/-- Nodes without a byte are deleted.  `none` if the string of the first node is not set. -/
def skipEmpty : List Node → Option (List Node)
  | [] => some []
  | n :: l =>
    match n.ptr with
    | none => none
    | some e => if e.text = [] then skipEmpty l else some (n :: l)

def Node.text (n : Node) : Sds := (n.ptr.map StrEnc.text).getD []

def front (c : Client) : Sds :=
  if c.buf ≠ [] then c.buf
  else
    match c.reply with
    | [] => []
    | o :: _ => o.text

def advance (c : Client) (n : ℕ) : Client :=
  if c.sentlen + n = (front c).length then
    if c.buf ≠ [] then { c with buf := [], sentlen := 0 }
    else { c with reply := c.reply.tail, sentlen := 0 }
  else { c with sentlen := c.sentlen + n }

/-- The list when the loop comes to its next write: the buffer is written before it. -/
def nextReply (c : Client) : Option (List Node) :=
  if c.buf ≠ [] then some c.reply else skipEmpty c.reply

/-- The loop of `writeToClient`, up to a write that fails: the client and the bytes written. -/
def writeLoop : List Sock → ℕ → Client → Option (Client × Sds)
  | [], _, c => (nextReply c).map fun reply => ({ c with reply }, [])
  | a :: socks, totwritten, c =>
    match nextReply c with
    | none => none
    | some reply =>
      let c := { c with reply }
      let nwritten := min a.takes ((front c).length - c.sentlen)
      if nwritten = 0 then some (c, [])
      else
        let out := ((front c).drop c.sentlen).take nwritten
        if netMaxWritesPerEvent < totwritten + nwritten ∧
          a.below then some (advance c nwritten, out)
        else (writeLoop socks (totwritten + nwritten) (advance c nwritten)).map fun r =>
          (r.1, out ++ r.2)

/-- `writeToClient`; the client is gone after an error other than `EAGAIN`, and when everything was
written to one that is to be closed. -/
def writeToClient (c : Client) (socks : List Sock) (error : Bool) : Option (Option Client × Sds) :=
  (writeLoop socks 0 c).map fun r =>
    if error then (none, r.2)
    else if clientHasPendingReplies r.1 then (some r.1, r.2)
    else if c.flags.closeAfterReply then (none, r.2)
    else (some { r.1 with sentlen := 0 }, r.2)

structure Conn where
  client : Client
  sent : Sds

def createClient (flags : Flags) : Client := ⟨flags, [], [], 0, 0⟩

/-- What is done with a connection.  All other functions that add replies are made of these. -/
inductive Call
  | addReply (o : Robj)
  | addReplySds (s : Sds)
  | addReplyString (s : Sds)
  | addDeferredMultiBulkLength
  /-- `k` is the number of the header that is set. -/
  | setDeferredMultiBulkLength (k : ℕ) (length : ℤ)
  | writeToClient (socks : List Sock)

/-- `none` if the client is freed or memory is used that is not there. -/
def Call.run (c : Conn) : Call → Option Conn
  | addReply o => some { c with client := Reply.addReply c.client o }
  | addReplySds s => some { c with client := Reply.addReplySds c.client s }
  | addReplyString s => some { c with client := Reply.addReplyString c.client s }
  | addDeferredMultiBulkLength =>
    some { c with client := Reply.addDeferredMultiBulkLength c.client }
  | setDeferredMultiBulkLength k length =>
    (Reply.setDeferredMultiBulkLength c.client k length).map fun client => { c with client }
  | writeToClient socks =>
    (Reply.writeToClient c.client socks false).bind fun r =>
      r.1.map fun client => ⟨client, c.sent ++ r.2⟩

def run (calls : List Call) (c : Conn) : Option Conn := calls.foldlM Call.run c

def held (c : Client) : Sds :=
  (c.buf ++ c.reply.flatMap Node.text).drop c.sentlen

end Vire.Reply
