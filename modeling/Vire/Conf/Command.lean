import Vire.Conf.Server

/-!
# CONFIG SET and CONFIG GET

CONFIG SET checks the option and its new value first; for `maxclients` it asks the operating system
for enough open files.  Then it calls the setter of the option.
-/

namespace Vire.Conf

/-- What the operating system says about the limit of open files: `getrlimit`, which may fail, and
which limits `setrlimit` accepts. -/
structure Os where
  nofile : Option ℕ
  accepts : ℕ → Bool

/-- The loop that asks for a smaller and smaller limit. -/
def raiseLimit (accepts : ℕ → Bool) (oldlimit : ℕ) : ℕ → ℕ → ℕ
  | 0, best => best
  | fuel + 1, best =>
    if best ≤ oldlimit ∨ accepts best ∨ best < 16 then best
    else raiseLimit accepts oldlimit fuel (best - 16)

/-- The limit `adjustOpenFilesLimit` ends up with when it needs `maxfiles`. -/
def Os.openFiles (os : Os) (maxfiles : ℕ) : ℕ :=
  match os.nofile with
  | none => 1024
  | some old =>
    if old < maxfiles then max (raiseLimit os.accepts old maxfiles maxfiles) old else maxfiles

def minReservedFds : ℤ := 32

def neededFiles (maxclients threads : ℤ) : ℕ :=
  (int32 (maxclients + threads * 2 + minReservedFds) % 2 ^ 64).toNat

def clientsFor (files : ℕ) (threads : ℤ) : ℤ := int32 (files - threads * 2 - minReservedFds)

/-- `adjustOpenFilesLimit`: a limit that is too small lowers `maxclients`. -/
def adjustOpenFilesLimit (os : Os) (j : ℕ) (maxclients : ℤ) (c : VrConf) : VrConf × ℤ :=
  let maxfiles := neededFiles maxclients c.server.threads
  let finallimit := os.openFiles maxfiles
  let finalmaxclients := clientsFor finallimit c.server.threads
  if finalmaxclients < 1 then (c, -1)
  else if finallimit < maxfiles then
    ((Opt.maxclients.set j (.string (ll2string finalmaxclients)) c).1, int32 finallimit)
  else (c, int32 finallimit)

inductive Reply
  | ok
  | error (msg : Sds)
  | noadminerr
  | multiBulk (items : List Sds)
  deriving DecidableEq

def crlf : Sds := [13, 10]

def bulk (s : Sds) : Sds := 36 :: decimal s.length ++ crlf ++ s ++ crlf

/-- The bytes that are sent.  Line breaks in the text of an error are replaced. -/
def Reply.bytes : Reply → Sds
  | ok => ascii "+OK".toList ++ crlf
  | error msg =>
    ascii "-ERR ".toList ++ msg.map (fun b => if b = 13 ∨ b = 10 then 32 else b) ++ crlf
  | noadminerr => ascii "-NOADMIN Authentication required.".toList ++ crlf
  | multiBulk items => 42 :: decimal items.length ++ crlf ++ items.flatMap bulk

/-- The worker's cached `adminpass` keeps the client from the admin password. -/
def barred (admin : Option Sds) (authenticated : ℕ) : Bool := admin.isSome && authenticated < 2

def badfmt (name value : Sds) : Sds :=
  ascii "Invalid argument '".toList ++ cstr value ++ ascii "' for CONFIG SET '".toList ++
    cstr name ++ ascii "'".toList

/-- `configSetCommand` up to the call of the setter. -/
def configSetCheck (os : Os) (j : ℕ) (admin : Option Sds) (authenticated : ℕ) (name value : Sds)
    (c : VrConf) : VrConf × Except Sds Opt :=
  match Opt.find name with
  | none => (c, .error (ascii "Unsupported CONFIG parameter: ".toList ++ cstr name))
  | some o =>
    if o.noModify then
      (c, .error (ascii "Unsupported modify this CONFIG parameter: ".toList ++ cstr name))
    else if o = .maxclients then
      match string2ll value with
      | none => (c, .error (badfmt name value))
      | some v =>
        if v < 1 then (c, .error (badfmt name value))
        else
          let r := adjustOpenFilesLimit os j (int32 v) c
          if int32 (r.2 - c.server.threads * 2 - minReservedFds) ≠ v then
            (r.1, .error (ascii
              "The operating system is not able to handle the specified number of clients".toList))
          else (r.1, .ok o)
    else if o = .adminpass ∧ barred admin authenticated then
      (c, .error (ascii "You need adminpass to set this CONFIG parameter: ".toList ++ cstr name))
    else (c, .ok o)

/-- The value is split at each single space. -/
def splitValue (value : Sds) : Value :=
  if 32 ∈ value then .array (value.splitOn 32) else .string value

/-- `configSetCommand` from the call of the setter on. -/
def configSetApply (j : ℕ) (name value : Sds) (o : Opt) (c : VrConf) : VrConf × Reply :=
  let r := o.set j (splitValue value) c
  (r.1, if r.2 then .ok else .error (badfmt name value))

def configSet (os : Os) (j : ℕ) (admin : Option Sds) (authenticated : ℕ) (name value : Sds)
    (c : VrConf) : VrConf × Reply :=
  let r := configSetCheck os j admin authenticated name value c
  match r.2 with
  | .error e => (r.1, .error e)
  | .ok o => configSetApply j name value o r.1

def joinReversed (l : List Sds) : Sds := (l.reverse.flatMap (· ++ [32])).dropLast

def FieldVal.shown : FieldVal → Sds
  | int v | longlong v => ll2string v
  | policy p => p.name
  | sds s => s.getD []
  | arraysds l => joinReversed l

def addReplyConfOption (s : Server) (o : Opt) : List Sds := [o.name, (o.get s).shown]

def configGet (admin : Option Sds) (authenticated : ℕ) (pattern : Sds) (s : Server) : Reply :=
  let hidden := fun o => o = Opt.adminpass && barred admin authenticated
  match Opt.find pattern with
  | some o => if hidden o then .noadminerr else .multiBulk (addReplyConfOption s o)
  | none =>
    .multiBulk ((Opt.all.filter fun o => stringmatch pattern o.name true && !hidden o).flatMap
      (addReplyConfOption s))

end Vire.Conf
