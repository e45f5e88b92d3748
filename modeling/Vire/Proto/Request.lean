import Vire.SplitArgs

/-!
# Reading requests

`readQueryFromClient`, `processInputBuffer` and the two parsers of `vr_client.c`.  A parser that
runs out of bytes leaves what it has learned in the client.  What `processCommand` does to the
client is up to the command: `exec` gives the outcome for the commands handed over so far.  No
command makes a client block, pause or become a slave here.
-/

namespace Vire.Proto

def protoIobufLen : ℕ := 16 * 1024
def protoInlineMaxSize : ℕ := 64 * 1024
def protoMbulkBigArg : ℕ := 32 * 1024
def protoMaxQuerybufLen : ℕ := 1024 * 1024 * 1024

inductive ReqType
  | unknown
  | inline
  | multibulk
  deriving DecidableEq

inductive ProtocolError
  | tooBigInline
  | unbalancedQuotes
  | tooBigMbulkCount
  | invalidMultibulkLength
  | tooBigBulkCount
  | expectedDollar (got : Option UInt8)
  | invalidBulkLength
  deriving DecidableEq

/-- The fields of a client that the parsers use.  `bulklen` is `none` for `-1`, `gone` says that
the client was freed, and `handed` records the argument vectors `processCommand` was called on. -/
structure Client where
  querybuf : Sds
  reqtype : ReqType
  multibulklen : ℕ
  bulklen : Option ℕ
  argv : List Sds
  closeAfterReply : Bool
  jump : Bool
  gone : Bool
  errors : List ProtocolError
  handed : List (List Sds)
  deriving DecidableEq

def newClient : Client :=
  { querybuf := [], reqtype := .unknown, multibulklen := 0, bulklen := none, argv := [],
    closeAfterReply := false, jump := false, gone := false, errors := [], handed := [] }

inductive Outcome
  | ok
  | close
  /-- QUIT, for which it returns `VR_ERROR`. -/
  | quit
  /-- The client goes on to another worker; there the command may ask for the connection to be
  closed. -/
  | jump (close : Bool)
  | gone
  deriving DecidableEq

def Outcome.stays : Outcome → Bool
  | ok => true
  | jump b => !b
  | _ => false

/-- `strchr`: the offset of a byte before the terminating zero. -/
def strchr (s : Sds) (b : UInt8) : Option ℕ := (cstr s).findIdx? (· == b)

/-- `addReplyError` and `setProtocolError` -/
def setProtocolError (c : Client) (e : ProtocolError) (pos : ℕ) : Client :=
  { c with
    closeAfterReply := true, errors := c.errors ++ [e], querybuf := c.querybuf.drop pos }

def resetClient (c : Client) : Client :=
  if c.jump then c
  else { c with argv := [], reqtype := .unknown, multibulklen := 0, bulklen := none }

/-- `processInlineBuffer`; the flag is `VR_OK`. -/
def processInlineBuffer (c : Client) : Client × Bool :=
  match strchr c.querybuf 10 with
  | none =>
    (if protoInlineMaxSize < c.querybuf.length then setProtocolError c .tooBigInline 0 else c,
      false)
  | some newline =>
    let querylen :=
      if newline ≠ 0 ∧ c.querybuf[newline - 1]? = some 13 then newline - 1 else newline
    match sdssplitargs (c.querybuf.take querylen) with
    | none => (setProtocolError c .unbalancedQuotes 0, false)
    | some args =>
      ({ c with querybuf := c.querybuf.drop (querylen + 2), argv := args.filter (· ≠ []) }, true)

/-- What reading the length of the next argument comes to: bytes are missing, the request is
refused, or the length is in `bulklen` and the argument starts at `pos`. -/
inductive BulkLen
  | wait
  | error (c : Client)
  | known (c : Client) (pos : ℕ)

/-- Read the bulk length if it is unknown.  A large argument is moved to the start of the buffer. -/
def readBulklen (c : Client) (pos : ℕ) : BulkLen :=
  match c.bulklen with
  | some _ => .known c pos
  | none =>
    match strchr (c.querybuf.drop pos) 13 with
    | none =>
      if protoInlineMaxSize < c.querybuf.length then .error (setProtocolError c .tooBigBulkCount 0)
      else .wait
    | some k =>
      if c.querybuf.length < pos + k + 2 then .wait
      else if c.querybuf[pos]? ≠ some 36 then
        .error (setProtocolError c (.expectedDollar c.querybuf[pos]?) pos)
      else
        match string2ll ((c.querybuf.drop (pos + 1)).take (k - 1)) with
        | none => .error (setProtocolError c .invalidBulkLength pos)
        | some ll =>
          if ll < 0 ∨ 512 * 1024 * 1024 < ll then
            .error (setProtocolError c .invalidBulkLength pos)
          else if protoMbulkBigArg ≤ ll.toNat then
            .known { c with querybuf := c.querybuf.drop (pos + k + 2), bulklen := some ll.toNat } 0
          else .known { c with bulklen := some ll.toNat } (pos + k + 2)

/-- The loop over the arguments, with `multibulklen` of them to come: the client, how far the
buffer was read, and whether the request was refused. -/
def bulkLoop : ℕ → Client → ℕ → Client × ℕ × Bool
  | 0, c, pos => (c, pos, false)
  | m + 1, c, pos =>
    match readBulklen c pos with
    | .wait => (c, pos, false)
    | .error c => (c, pos, true)
    | .known c pos =>
      let n := c.bulklen.getD 0
      if c.querybuf.length < pos + (n + 2) then (c, pos, false)
      -- the buffer holds just this argument: it becomes the object, and a new buffer is made
      else if pos = 0 ∧ protoMbulkBigArg ≤ n ∧ c.querybuf.length = n + 2 then
        bulkLoop m
          { c with
            argv := c.argv ++ [c.querybuf.take n], querybuf := [], bulklen := none
            multibulklen := m } 0
      else
        bulkLoop m
          { c with
            argv := c.argv ++ [(c.querybuf.drop pos).take n], bulklen := none
            multibulklen := m } (pos + n + 2)

def readArgs (c : Client) (pos : ℕ) : Client × Bool :=
  let r := bulkLoop c.multibulklen c pos
  if r.2.2 then (r.1, false)
  else
    let c := { r.1 with querybuf := r.1.querybuf.drop r.2.1 }
    (c, c.multibulklen = 0)

/-- `processMultibulkBuffer`; the flag is `VR_OK`.  `none` is a failed assertion. -/
def processMultibulkBuffer (c : Client) : Option (Client × Bool) :=
  if c.multibulklen = 0 then
    if c.argv ≠ [] then none
    else
      match strchr c.querybuf 13 with
      | none =>
        some (if protoInlineMaxSize < c.querybuf.length then
          setProtocolError c .tooBigMbulkCount 0 else c, false)
      | some newline =>
        if c.querybuf.length < newline + 2 then some (c, false)
        else if c.querybuf.head? ≠ some 42 then none
        else
          match string2ll ((c.querybuf.drop 1).take (newline - 1)) with
          | none => some (setProtocolError c .invalidMultibulkLength 0, false)
          | some ll =>
            if 1024 * 1024 < ll then some (setProtocolError c .invalidMultibulkLength 0, false)
            else if ll ≤ 0 then some ({ c with querybuf := c.querybuf.drop (newline + 2) }, true)
            else some (readArgs { c with multibulklen := ll.toNat } (newline + 2))
  else some (readArgs c 0)

def setReqtype (c : Client) : Client :=
  if c.reqtype = .unknown then
    { c with reqtype := if c.querybuf.head? = some 42 then .multibulk else .inline }
  else c

def processBuffer (c : Client) : Option (Client × Bool) :=
  if c.reqtype = .inline then some (processInlineBuffer c) else processMultibulkBuffer c

/-- `processCommand` and what follows it; `next` is the next round of the loop. -/
def handOver (exec : List (List Sds) → Outcome) (next : Client → Option Client) (c : Client) :
    Option Client :=
  let c := { c with handed := c.handed ++ [c.argv] }
  match exec c.handed with
  | .ok => next (resetClient c)
  | .close => next (resetClient { c with closeAfterReply := true })
  | .quit => next { c with closeAfterReply := true }
  | .jump _ => some { c with jump := true }
  | .gone => some { c with gone := true }

/-- The loop of `processInputBuffer`.  Every request takes bytes of the buffer, which bounds the
rounds of the loop. -/
def inputLoop (exec : List (List Sds) → Outcome) : ℕ → Client → Option Client
  | 0, c => some c
  | fuel + 1, c =>
    if c.querybuf = [] ∨ c.closeAfterReply then some c
    else
      match processBuffer (setReqtype c) with
      | none => none
      | some (c, false) => some c
      | some (c, true) =>
        if c.argv = [] then inputLoop exec fuel (resetClient c)
        else handOver exec (inputLoop exec fuel) c

def processInputBuffer (exec : List (List Sds) → Outcome) (c : Client) : Option Client :=
  inputLoop exec (c.querybuf.length + 1) c

/-- The length `readQueryFromClient` asks the socket for: of a large argument not more than is
missing. -/
def readlen (c : Client) : ℤ :=
  match c.bulklen with
  | some n =>
    if c.reqtype = .multibulk ∧ c.multibulklen ≠ 0 ∧ protoMbulkBigArg ≤ n then
      min (protoIobufLen : ℤ) ((n + 2 : ℤ) - c.querybuf.length)
    else protoIobufLen
  | none => protoIobufLen

/-- `readQueryFromClient` on the bytes the socket delivered. -/
def readQueryFromClient (exec : List (List Sds) → Outcome) (c : Client) (bytes : Sds) :
    Option Client :=
  let c := { c with querybuf := c.querybuf ++ bytes }
  if protoMaxQuerybufLen < c.querybuf.length then some { c with gone := true }
  else processInputBuffer exec c

/-- The last worker of a jump has run the command: `resetClient` and `linkClientToEventloop`. -/
def jumpDone (exec : List (List Sds) → Outcome) (c : Client) (close : Bool) : Option Client :=
  processInputBuffer exec
    (resetClient { c with jump := false, closeAfterReply := c.closeAfterReply || close })

end Vire.Proto
