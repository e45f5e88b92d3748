import Mathlib.Data.List.DropRight
import Vire.Conf.Server
import Vire.SplitArgs

/-!
# The configuration file

Loading the file, and CONFIG REWRITE, which edits it: a line that sets an option is reused for the
new value, options without a line are appended, lines that are left over are blanked.
-/

namespace Vire.Conf

/-- `strchr(" \t\r\n", b)`, which also finds the end of the string. -/
def isTrimmed (b : UInt8) : Bool := b = 32 || b = 9 || b = 13 || b = 10 || b = 0

def sdstrim (s : Sds) : Sds := (s.dropWhile isTrimmed).rdropWhile isTrimmed

def confMaxLine : ℕ := 1024

/-- `fgets`: up to `n` bytes, not beyond the end of the line, and what is left. -/
def fgets : ℕ → Sds → Sds × Sds
  | 0, s => ([], s)
  | _ + 1, [] => ([], [])
  | n + 1, b :: s => if b = 10 then ([10], s) else (b :: (fgets n s).1, (fgets n s).2)

/-- All pieces `fgets` returns until the end of the file. -/
def fgetsAll : ℕ → Sds → List Sds
  | 0, _ => []
  | _ + 1, [] => []
  | fuel + 1, b :: s =>
    let r := fgets confMaxLine (b :: s)
    r.1 :: fgetsAll fuel r.2

/-- The pieces as C strings; each has a byte of the file. -/
def readPieces (file : Sds) : List Sds := (fgetsAll file.length file).map cstr

abbrev Org := List (Sds × Value)

def Value.append : Value → Sds → Value
  | .string s, v => .array [s, v]
  | .array l, v => .array (l ++ [v])

/-- `conf_key_value_insert`: the values of a key are collected. -/
def confKeyValueInsert (key v : Sds) : Org → Org
  | [] => [(key, .string v)]
  | e :: org => if e.1 = key then (key, e.2.append v) :: org else e :: confKeyValueInsert key v org

/-- `cf->organizations`, and the organization the lines belong to. -/
structure PreConf where
  organizations : List (Sds × Org)
  org : Option Sds

def serverName : Sds := ascii "server".toList

def PreConf.update (name : Sds) (f : Org → Org) : List (Sds × Org) → List (Sds × Org)
  | [] => [(name, f [])]
  | e :: orgs => if e.1 = name then (name, f e.2) :: orgs else e :: update name f orgs

/-- One round of `conf_pre_load_from_string`.  The name of an organization lies between brackets,
and yet the line is refused when it ends with one.  A key that is in the organization already is
freed after the first value of the line and used for the second: such a line has no answer. -/
def confPreLoadLine (p : PreConf) (line : Sds) : Option PreConf :=
  let line := sdstrim line
  if line = [] ∨ line.head? = some 35 then some p
  else if line.head? = some 91 then
    if line.length ≤ 2 ∨ line.getLast? = some 93 then none
    else
      let name := line.tail.dropLast
      some ⟨PreConf.update name id p.organizations, some name⟩
  else
    match sdssplitargs line with
    | none => none
    | some [] => some p
    | some (k :: args) =>
      let name := p.org.getD serverName
      let key := k.map tolower
      if 1 < args.length ∧ ((p.organizations.lookup name).bind (·.lookup key)).isSome then none
      else
        some ⟨PreConf.update name
          (fun org => args.foldl (fun org v => confKeyValueInsert key v org) org)
          p.organizations, some name⟩

def splitLines (config : Sds) : List Sds := if config = [] then [] else config.splitOn 10

def confPreLoad (file : Sds) : Option PreConf :=
  (splitLines (readPieces file).flatten).foldlM confPreLoadLine ⟨[], none⟩

/-- One round of `conf_parse_conf_server`. -/
def confParseOption (j : ℕ) (org : Org) (c : VrConf) (o : Opt) : Option VrConf :=
  match org.lookup o.name with
  | none => some c
  | some v =>
    let r := o.set j v c
    if r.2 then some r.1 else none

def confParseConfServer (j : ℕ) (org : Org) (c : VrConf) : Option VrConf :=
  Opt.all.foldlM (confParseOption j org) c

/-- `conf_create`, on a machine with `cpus` processors.  The index the array setters do not
initialise is `j`. -/
def confCreate (j : ℕ) (cpus : ℤ) (file : Sds) : Option Server :=
  (confPreLoad file).bind fun p =>
    (p.organizations.lookup serverName).bind fun org =>
      (confParseConfServer j org ⟨.default cpus, 0⟩).map (·.server)

/-- A line of the file.  Instead of a map from options to line numbers, each line that is in the
list of an option has that option. -/
structure Line where
  text : Sds
  option : Option Sds

structure RewriteState where
  lines : List Line
  rewritten : List Sds
  hasTail : Bool

namespace RewriteState

def rewriteSignature : Sds := ascii "# Generated by CONFIG REWRITE".toList

def appendLine (st : RewriteState) (l : Line) : RewriteState := { st with lines := st.lines ++ [l] }

/-- One round of `rewriteConfigReadOldFile`.  Without an argument on the line there is no option to
read: what then happens there is no telling, here the rewrite fails. -/
def readOldLine (st : RewriteState) (piece : Sds) : Option RewriteState :=
  let line := sdstrim piece
  if line = [] ∨ line.head? = some 35 then
    some { st.appendLine ⟨line, none⟩ with hasTail := st.hasTail || line == rewriteSignature }
  else
    match sdssplitargs line with
    | none => some (st.appendLine ⟨ascii "# ??? ".toList ++ line, none⟩)
    | some [] => none
    | some (k :: _) => some (st.appendLine ⟨line, some (k.map tolower)⟩)

def readOldFile (file : Sds) : Option RewriteState :=
  (readPieces file).foldlM readOldLine ⟨[], [], false⟩

def markAsProcessed (st : RewriteState) (option : Sds) : RewriteState :=
  { st with rewritten := option :: st.rewritten }

/-- The first line of an option is replaced and no longer one of its lines. -/
def reuse (option line : Sds) : List Line → Option (List Line)
  | [] => none
  | l :: ls =>
    if l.option = some option then some (⟨line, none⟩ :: ls)
      else (reuse option line ls).map (l :: ·)

def rewriteLine (st : RewriteState) (option line : Sds) (force : Bool) : RewriteState :=
  let st := st.markAsProcessed option
  match reuse option line st.lines with
  | some lines => { st with lines }
  | none =>
    if force then
      let st :=
        if st.hasTail then st else { st.appendLine ⟨rewriteSignature, none⟩ with hasTail := true }
      st.appendLine ⟨line, none⟩
    else st

/-! The options by the type of their field. -/

/-- `rewriteConfigIntOption` and `rewriteConfigLongLongOption` -/
def intOption (o : Opt) (value defvalue : ℤ) (st : RewriteState) : RewriteState :=
  st.rewriteLine o.name (o.name ++ 32 :: ll2string value) (value ≠ defvalue)

def formatMemory (bytes : ℤ) : Sds :=
  if bytes ≠ 0 ∧ bytes.tmod (1024 * 1024 * 1024) = 0 then
    ll2string (bytes.tdiv (1024 * 1024 * 1024)) ++ ascii "gb".toList
  else if bytes ≠ 0 ∧ bytes.tmod (1024 * 1024) = 0 then
    ll2string (bytes.tdiv (1024 * 1024)) ++ ascii "mb".toList
  else if bytes ≠ 0 ∧ bytes.tmod 1024 = 0 then
    ll2string (bytes.tdiv 1024) ++ ascii "kb".toList
  else ll2string bytes

def bytesOption (o : Opt) (value defvalue : ℤ) (st : RewriteState) : RewriteState :=
  st.rewriteLine o.name (o.name ++ 32 :: formatMemory value) (value ≠ defvalue)

def enumOption (o : Opt) (value defvalue : EvictPolicy) (st : RewriteState) : RewriteState :=
  st.rewriteLine o.name (o.name ++ 32 :: value.name) (value ≠ defvalue)

/-- `rewriteConfigSdsOption` with the default `NULL` -/
def sdsOption (o : Opt) (value : Option Sds) (st : RewriteState) : RewriteState :=
  match value with
  | none => st.rewriteLine o.name (o.name ++ [32, 34, 34]) false
  | some v => st.rewriteLine o.name (o.name ++ 32 :: cstr v) true

/-- `rewriteConfigBindOption`.  The addresses are popped from the end of the array. -/
def bindOption (o : Opt) (values : List Sds) (st : RewriteState) : RewriteState :=
  if values = [] then st.markAsProcessed o.name
  else st.rewriteLine o.name (o.name ++ values.reverse.flatMap (32 :: ·)) true

/-- `rewriteConfigCommandsNAPOption`, also from the end of the array. -/
def commandsNAPOption (o : Opt) (values : List Sds) (st : RewriteState) : RewriteState :=
  (values.reverse.foldl (fun st v => st.rewriteLine o.name (o.name ++ 32 :: cstr v) true)
    st).markAsProcessed o.name

def rewriteOption (s d : Server) (st : RewriteState) (o : Opt) : RewriteState :=
  match o with
  | .databases => st.intOption o s.databases d.databases
  | .internalDbsPerDatabases => st.intOption o s.internalDbsPerDatabases d.internalDbsPerDatabases
  | .maxmemory => st.bytesOption o s.maxmemory d.maxmemory
  | .maxmemoryPolicy => st.enumOption o s.maxmemoryPolicy d.maxmemoryPolicy
  | .maxmemorySamples => st.intOption o s.maxmemorySamples d.maxmemorySamples
  | .maxTimeComplexityLimit => st.intOption o s.maxTimeComplexityLimit d.maxTimeComplexityLimit
  | .bind => st.bindOption o s.binds
  | .port => st.intOption o s.port d.port
  | .threads => st.intOption o s.threads d.threads
  | .slowlogLogSlowerThan => st.intOption o s.slowlogLogSlowerThan d.slowlogLogSlowerThan
  | .slowlogMaxLen => st.intOption o s.slowlogMaxLen d.slowlogMaxLen
  | .maxclients => st.intOption o s.maxclients d.maxclients
  | .requirepass => st.sdsOption o s.requirepass
  | .adminpass => st.sdsOption o s.adminpass
  | .commandsNeedAdminpass => st.commandsNAPOption o s.commandsNeedAdminpass

def order : List Opt :=
  [.databases, .internalDbsPerDatabases, .maxmemory, .maxmemoryPolicy, .maxmemorySamples,
    .maxTimeComplexityLimit, .bind, .port, .threads, .slowlogLogSlowerThan, .slowlogMaxLen,
    .maxclients, .requirepass, .adminpass, .commandsNeedAdminpass]

def removeOrphaned (st : RewriteState) : List Sds :=
  st.lines.map fun l => if l.option.any (st.rewritten.contains ·) then [] else l.text

/-- `rewriteConfigGetContentFromState`: of several blank lines one is left. -/
def content : Bool → List Sds → Sds
  | _, [] => []
  | wasEmpty, l :: ls =>
    if l = [] then if wasEmpty then content true ls else 10 :: content true ls
    else l ++ 10 :: content false ls

end RewriteState

/-- `rewriteConfigOverwriteFile`: one `write` of the content up to the first zero byte, padded to
the size of the old file, which is then cut. -/
def overwriteFile (old content : Sds) : Sds :=
  if content.length < old.length then
    let padded := content ++ 10 :: List.replicate (old.length - content.length - 1) 35
    (cstr padded ++ old.drop (cstr padded).length).take content.length
  else cstr content ++ old.drop (cstr content).length

/-- `rewriteConfig`: the file after CONFIG REWRITE. -/
def rewriteConfig (cpus : ℤ) (s : Server) (file : Sds) : Option Sds :=
  (RewriteState.readOldFile file).map fun st =>
    let st := RewriteState.order.foldl (RewriteState.rewriteOption s (.default cpus)) st
    overwriteFile file (RewriteState.content false st.removeOrphaned)

end Vire.Conf
