import Mathlib.Data.LawfulXor.Basic
import Vire.Conf.Server
import Vire.Logic.Run

/-!
# Who may run what

`processCommand` up to the call of the handler, and the handlers of AUTH and ADMIN.  A client has a
level: 0 at first, 1 after AUTH, 2 after ADMIN.  The checks use the passwords in the cache of the
worker that has the client, the two handlers those of the configuration.  A command that jumps runs
its handler again on the other workers, without a check; what was pipelined behind it is processed
on the last of them.

A password is any byte string, but the comparison ends at the first zero byte of each side.
-/

namespace Vire.Auth

open List Vire.Logic

inductive Proc
  | auth
  | admin
  | other (id : ℕ)
  deriving DecidableEq

structure Command where
  name : Sds
  arity : ℤ
  needadmin : Bool
  proc : Proc
  deriving DecidableEq

/-- What a worker's `processCommand` reads elsewhere: the cached passwords, the configured ones,
whether a check that has nothing to do with the client's level refuses the command (memory,
persistence, replication, loading), and whether the handler makes the client jump. -/
structure Ctx where
  requirepass : Option Sds
  adminpass : Option Sds
  confRequirepass : Option Sds
  confAdminpass : Option Sds
  refuses : Bool
  jumps : Bool

/-- A static buffer with the first `len` bytes of a string, and zeros behind them. -/
def passBuffer (s : Sds) (len : ℕ) : Sds :=
  s.take len ++ replicate (Conf.authpassMaxLen - len) 0

/-- `time_independent_strcmp`, zero for equal strings.  `strlen` is converted to an
`unsigned int`. -/
def timeIndependentStrcmp (a b : Sds) : ℕ :=
  let alen := (cstr a).length % 2 ^ 32
  let blen := (cstr b).length % 2 ^ 32
  if Conf.authpassMaxLen < alen ∨ Conf.authpassMaxLen < blen then 1
  else
    ((passBuffer (cstr a) alen).zip (passBuffer (cstr b) blen)).foldl
      (fun diff c => diff ||| (c.1 ^^^ c.2).toNat) 0 ||| (alen ^^^ blen)

def samePassword (a b : Sds) : Bool := timeIndependentStrcmp a b == 0

inductive Login
  | ok
  | noPassword
  | invalidPassword
  deriving DecidableEq

def login (secret : Option Sds) (given : Sds) : Login :=
  match secret with
  | none => .noPassword
  | some p => if samePassword given p then .ok else .invalidPassword

inductive Outcome
  | quit
  | unknownCommand (name : Sds)
  | wrongArity (cmd : Command)
  | noauth
  | noadmin
  | refused
  | auth (cmd : Command) (r : Login)
  | admin (cmd : Command) (r : Login)
  | run (cmd : Command)
  deriving DecidableEq

def Outcome.error : Outcome → Option Sds
  | unknownCommand name =>
    some (ascii "-ERR unknown command '".toList ++ cstr name ++ ascii "'".toList)
  | wrongArity cmd =>
    some (ascii "-ERR wrong number of arguments for '".toList ++ cmd.name ++
      ascii "' command".toList)
  | noauth => some (ascii "-NOAUTH Authentication required.".toList)
  | noadmin => some (ascii "-NOADMIN Authentication required.".toList)
  | auth _ .noPassword => some (ascii "-ERR Client sent AUTH, but no password is set".toList)
  | admin _ .noPassword => some (ascii "-ERR Client sent ADMIN, but no password is set".toList)
  | auth _ .invalidPassword | admin _ .invalidPassword =>
    some (ascii "-ERR invalid password".toList)
  | _ => none

/-- `c->cmd->proc(c)`, in so far as it concerns the client's level. -/
def callProc (x : Ctx) (cmd : Command) (argv : List Sds) : Outcome :=
  match cmd.proc with
  | .auth => .auth cmd (login x.confRequirepass (argv.getD 1 []))
  | .admin => .admin cmd (login x.confAdminpass (argv.getD 1 []))
  | .other _ => .run cmd

def processCommand (table : Sds → Option Command) (x : Ctx) (authenticated : ℕ) (argv : List Sds) :
    Outcome :=
  let name := argv.headD []
  if strcaseEq name ['q', 'u', 'i', 't'] then .quit
  else
    match table name with
    | none => .unknownCommand name
    | some cmd =>
      if 0 < cmd.arity ∧ cmd.arity ≠ argv.length ∨ (argv.length : ℤ) < -cmd.arity then
        .wrongArity cmd
      else if x.requirepass.isSome ∧ authenticated = 0 ∧ cmd.proc ≠ .auth ∧ cmd.proc ≠ .admin then
        .noauth
      else if cmd.needadmin ∧ x.adminpass.isSome ∧ authenticated < 2 ∧ cmd.proc ≠ .admin then
        .noadmin
      else if x.refuses then .refused
      else callProc x cmd argv

/-- What has happened to the client: it was given a command, or a command that jumps has run again
on another worker. -/
inductive Event
  | command (o : Outcome)
  | again (cmd : Command)
  deriving DecidableEq

/-- `jumping` is the command that takes the client around, `history` what has happened. -/
structure Client where
  authenticated : ℕ
  jumping : Option Command
  history : List Event
  deriving DecidableEq

/-- `createClient` -/
def newClient : Client := ⟨0, none, []⟩

inductive Act
  /-- `processCommand` on some worker -/
  | command (x : Ctx) (argv : List Sds)
  /-- The handler runs on the next worker, and may ask for another one. -/
  | hop (jumps : Bool)

def Outcome.level (authenticated : ℕ) : Outcome → ℕ
  | auth _ .ok => if authenticated = 0 then 1 else authenticated
  | admin _ .ok => 2
  | auth _ .invalidPassword | admin _ .invalidPassword => 0
  | _ => authenticated

/-- Only the handlers of other commands than AUTH and ADMIN make a client jump. -/
def Outcome.jumping (jumps : Bool) : Outcome → Option Command
  | run cmd => if jumps then some cmd else none
  | _ => none

def step (table : Sds → Option Command) (c : Client) : Act → Option Client
  | .command x argv =>
    if c.jumping = none then
      let o := processCommand table x c.authenticated argv
      some ⟨o.level c.authenticated, o.jumping x.jumps, c.history ++ [.command o]⟩
    else none
  | .hop jumps =>
    c.jumping.map fun cmd =>
      ⟨c.authenticated, if jumps then some cmd else none, c.history ++ [.again cmd]⟩

def Event.Starts (cmd : Command) : Event → Prop
  | command (.auth cmd' _) | command (.admin cmd' _) | command (.run cmd') | again cmd' =>
    cmd' = cmd
  | _ => False

def Event.wrong : Event → Bool
  | command (.auth _ .invalidPassword) | command (.admin _ .invalidPassword) => true
  | _ => false

def Event.adminOk : Event → Bool
  | command (.admin _ .ok) => true
  | _ => false

def Event.loginOk : Event → Bool
  | command (.auth _ .ok) | command (.admin _ .ok) => true
  | _ => false

def Event.failed : Event → Bool
  | command (.auth _ r) | command (.admin _ r) => r ≠ .ok
  | _ => false

/-- Something `ok` has happened, and nothing `bad` since. -/
def Granted (ok bad : Event → Bool) (h : List Event) : Prop :=
  ∃ a e b, h = a ++ e :: b ∧ ok e = true ∧ ∀ x ∈ b, bad x = false

variable {e : Event}

theorem Granted.snoc {ok bad : Event → Bool} {h : List Event} (hg : Granted ok bad h)
    (he : bad e = false) : Granted ok bad (h ++ [e]) := by
  obtain ⟨a, e', b, rfl, hok, hb⟩ := hg
  refine ⟨a, e', b ++ [e], by simp, hok, fun x hx => ?_⟩
  rcases mem_append.mp hx with hx | hx
  · exact hb x hx
  · rw [mem_singleton.mp hx, he]

theorem granted_last {ok bad : Event → Bool} {h : List Event} (he : ok e = true) :
    Granted ok bad (h ++ [e]) :=
  ⟨h, e, [], rfl, he, by simp⟩

/-- `cmd` may run after `h`: `user` says that the workers have a password in their caches, `admin`
that they have an admin password. -/
structure MayRun (user admin : Bool) (cmd : Command) (h : List Event) : Prop where
  user : user = true → cmd.proc ≠ .auth → cmd.proc ≠ .admin → Granted Event.loginOk Event.wrong h
  admin : admin = true → cmd.needadmin = true → cmd.proc ≠ .admin →
    Granted Event.adminOk Event.wrong h

/-- The level is earned, a command that jumps may run, and all that have run were allowed to. -/
structure Inv (user admin : Bool) (c : Client) : Prop where
  level : 0 < c.authenticated → Granted Event.loginOk Event.wrong c.history
  adminLevel : 2 ≤ c.authenticated → Granted Event.adminOk Event.wrong c.history
  jumping : ∀ cmd, c.jumping = some cmd → MayRun user admin cmd c.history
  past : ∀ pre e post cmd, c.history = pre ++ e :: post → e.Starts cmd → MayRun user admin cmd pre

def Act.requirepassSet : Act → Bool
  | command x _ => x.requirepass.isSome
  | hop _ => true

def Act.adminpassSet : Act → Bool
  | command x _ => x.adminpass.isSome
  | hop _ => true

def Cached (user admin : Bool) (_ : Client) (a : Act) : Prop :=
  (user = true → a.requirepassSet = true) ∧ (admin = true → a.adminpassSet = true)

variable {user admin : Bool} {cmd : Command} {c : Client}

theorem starts_of_snoc (h : Inv user admin c)
    (he : ∀ cmd, e.Starts cmd → MayRun user admin cmd c.history) {pre post : List Event}
    {e' : Event} (heq : c.history ++ [e] = pre ++ e' :: post) (hs : e'.Starts cmd) :
    MayRun user admin cmd pre := by
  rcases eq_nil_or_concat post with rfl | ⟨post', e'', rfl⟩
  · obtain ⟨rfl, h'⟩ := append_inj' heq rfl
    obtain rfl := singleton_inj.mp h'
    exact he cmd hs
  · rw [concat_eq_append, ← cons_append, ← append_assoc] at heq
    obtain ⟨hh, -⟩ := append_inj' heq rfl
    exact h.past pre e' post' cmd hh hs

variable {argv : List Sds} {x : Ctx}

theorem starts_callProc {cmd cmd' : Command}
    (h : (Event.command (callProc x cmd' argv)).Starts cmd) : cmd' = cmd := by
  rcases hp : cmd'.proc with _ | _ | id <;> simp only [callProc, hp] at h <;> exact h

variable {table : Sds → Option Command}

theorem starts_processCommand {authenticated : ℕ}
    (h : (Event.command (processCommand table x authenticated argv)).Starts cmd) :
    ¬ (x.requirepass.isSome ∧ authenticated = 0 ∧ cmd.proc ≠ .auth ∧ cmd.proc ≠ .admin) ∧
      ¬ (cmd.needadmin ∧ x.adminpass.isSome ∧ authenticated < 2 ∧ cmd.proc ≠ .admin) := by
  rcases ht : table (argv.headD []) with _ | cmd' <;> simp only [processCommand, ht] at h
  · split_ifs at h <;> exact h.elim
  · split_ifs at h with _ _ hauth hadmin
    iterate 5 exact h.elim
    obtain rfl := starts_callProc h
    exact ⟨hauth, hadmin⟩

theorem processCommand_mayRun (h : Inv user admin c) (hx : Cached user admin c (.command x argv))
    (hs : (Event.command (processCommand table x c.authenticated argv)).Starts cmd) :
    MayRun user admin cmd c.history := by
  obtain ⟨hauth, hadmin⟩ := starts_processCommand hs
  refine ⟨fun hu h1 h2 => h.level ?_, fun ha hn h2 => h.adminLevel ?_⟩
  · by_contra h0
    exact hauth ⟨hx.1 hu, by omega, h1, h2⟩
  · by_contra h0
    exact hadmin ⟨hn, hx.2 ha, by omega, h2⟩

theorem level_cases (a : ℕ) (o : Outcome) :
    o.level a = 0 ∨ (Event.command o).wrong = false ∧
      (o.level a = a ∨ (Event.command o).loginOk = true ∧
        (o.level a = 1 ∨ (Event.command o).adminOk = true)) := by
  rcases o with _ | _ | _ | _ | _ | _ | ⟨cmd, _ | _ | _⟩ | ⟨cmd, _ | _ | _⟩ | _
  case auth.ok =>
    simp only [Outcome.level]
    split_ifs
    · exact .inr ⟨rfl, .inr ⟨rfl, .inl rfl⟩⟩
    · exact .inr ⟨rfl, .inl rfl⟩
  case admin.ok => exact .inr ⟨rfl, .inr ⟨rfl, .inr rfl⟩⟩
  case auth.invalidPassword | admin.invalidPassword => exact .inl rfl
  all_goals exact .inr ⟨rfl, .inl rfl⟩

theorem step_inv {c' : Client} {a : Act}
    (h : Inv user admin c) (ha : Cached user admin c a) (hs : step table c a = some c') :
    Inv user admin c' := by
  cases a
  case command x argv =>
    simp only [step] at hs
    split_ifs at hs
    obtain rfl := Option.some.inj hs
    have hmay : ∀ cmd, (Event.command (processCommand table x c.authenticated argv)).Starts cmd →
        MayRun user admin cmd c.history := fun cmd => processCommand_mayRun h ha
    generalize processCommand table x c.authenticated argv = o at hmay ⊢
    have hlevel := level_cases c.authenticated o
    refine ⟨fun hl => ?_, fun hl => ?_, fun cmd hcmd => ?_, fun pre e post cmd heq hstart => ?_⟩
    · rcases hlevel with h0 | ⟨hw, heq | ⟨hok, -⟩⟩
      · exact absurd hl (by simp only [h0]; omega)
      · exact (h.level (heq ▸ hl)).snoc hw
      · exact granted_last hok
    · rcases hlevel with h0 | ⟨hw, heq | ⟨-, h1 | hok⟩⟩
      · exact absurd hl (by simp only [h0]; omega)
      · exact (h.adminLevel (heq ▸ hl)).snoc hw
      · exact absurd hl (by simp only [h1]; omega)
      · exact granted_last hok
    · rcases o <;> simp only [Outcome.jumping, reduceCtorEq] at hcmd
      split_ifs at hcmd
      obtain rfl := Option.some.inj hcmd
      have hm := hmay _ rfl
      exact ⟨fun hu h1 h2 => (hm.user hu h1 h2).snoc rfl,
        fun hu h1 h2 => (hm.admin hu h1 h2).snoc rfl⟩
    · exact starts_of_snoc h hmay heq hstart
  case hop jumps =>
    rcases hj : c.jumping with _ | cmd <;> simp only [step, hj, Option.map_none, Option.map_some,
      reduceCtorEq] at hs
    obtain rfl := Option.some.inj hs
    have hm := h.jumping cmd hj
    refine ⟨fun hl => (h.level hl).snoc rfl, fun hl => (h.adminLevel hl).snoc rfl,
      fun cmd' hcmd => ?_, fun pre e post cmd' heq hstart => ?_⟩
    · split_ifs at hcmd
      obtain rfl := Option.some.inj hcmd
      exact ⟨fun hu h1 h2 => (hm.user hu h1 h2).snoc rfl,
        fun hu h1 h2 => (hm.admin hu h1 h2).snoc rfl⟩
    · refine starts_of_snoc h (fun cmd'' hc => ?_) heq hstart
      obtain rfl : cmd = cmd'' := hc
      exact hm

theorem run_inv (r : Run (step table) newClient)
    (hr : r.Meets (Cached user admin)) (m : ℕ) : Inv user admin (r.state m) := by
  refine r.invariant hr ⟨by simp [newClient], by simp [newClient], by simp [newClient], ?_⟩
    (fun s a s' h ha hs => step_inv h ha hs) m
  intro pre e post cmd heq
  simp [newClient] at heq

/-- In every run on workers with a cached password, a handler other than those of AUTH and ADMIN
starts only after a successful AUTH or ADMIN with no wrong password since; and on workers with a
cached admin password, a command other than ADMIN that needs it starts only after a successful ADMIN
with no wrong password since. -/
theorem access_granted (table : Sds → Option Command) (r : Run (step table) newClient) :
    (r.Meets (fun _ a => a.requirepassSet = true) →
      ∀ m pre e post cmd, (r.state m).history = pre ++ e :: post → e.Starts cmd →
        cmd.proc ≠ .auth → cmd.proc ≠ .admin → Granted Event.loginOk Event.wrong pre) ∧
    (r.Meets (fun _ a => a.adminpassSet = true) →
      ∀ m pre e post cmd, (r.state m).history = pre ++ e :: post → e.Starts cmd →
        cmd.needadmin = true → cmd.proc ≠ .admin → Granted Event.adminOk Event.wrong pre) := by
  constructor
  · intro hr m pre e post cmd heq hs
    have hc : r.Meets (Cached true false) := hr.mono fun c a h => ⟨fun _ => h, by simp⟩
    exact ((run_inv r hc m).past pre e post cmd heq hs).user rfl
  · intro hr m pre e post cmd heq hs
    have hc : r.Meets (Cached false true) := hr.mono fun c a h => ⟨by simp, fun _ => h⟩
    exact ((run_inv r hc m).past pre e post cmd heq hs).admin rfl

def authCmd : Command := ⟨ascii "auth".toList, 2, false, .auth⟩
def adminCmd : Command := ⟨ascii "admin".toList, 2, false, .admin⟩
def pingCmd : Command := ⟨ascii "ping".toList, -1, false, .other 0⟩

def clientCmd : Command := ⟨ascii "client".toList, -2, true, .other 1⟩

def someTable (name : Sds) : Option Command :=
  [authCmd, adminCmd, pingCmd, clientCmd].find? fun c => c.name == name

/-- A worker with the password `u` and perhaps an admin password, both cached and configured. -/
def someCtx (admin : Option Sds) (jumps : Bool) : Ctx :=
  ⟨some [117], admin, some [117], admin, false, jumps⟩

def adminClientPing : List Act :=
  [.command (someCtx (some [118]) false) [adminCmd.name, [118]],
    .command (someCtx (some [118]) true) [clientCmd.name, ascii "list".toList],
    .hop false, .command (someCtx (some [118]) false) [pingCmd.name]]

theorem access_granted_adminClientPing :
    ∃ r : Run (step someTable) newClient,
      (r.state 4).history = [.command (.admin adminCmd .ok), .command (.run clientCmd)] ++
        .again clientCmd :: [.command (.run pingCmd)] ∧
      Granted Event.adminOk Event.wrong
        [.command (.admin adminCmd .ok), .command (.run clientCmd)] := by
  let r : Run (step someTable) newClient := .ofList adminClientPing (by decide +kernel)
  refine ⟨r, by decide +kernel, ?_⟩
  exact (access_granted someTable r).2 (Run.ofList_meets _ (by decide +kernel)) 4 _
    (.again clientCmd) [.command (.run pingCmd)] clientCmd (by decide +kernel) rfl rfl (by decide)

/-- AUTH is answered with OK, then ADMIN with an error since there is no admin password: the level
stays, and PING runs. -/
def authAdminPing : List Act :=
  [.command (someCtx none false) [authCmd.name, [117]],
    .command (someCtx none false) [adminCmd.name, [118]],
    .command (someCtx none false) [pingCmd.name]]

/-- ADMIN itself, marked `needadmin`. -/
def markedCmd : Command := { adminCmd with needadmin := true }

def firstAdmin : List Act := [.command (someCtx (some [118]) false) [adminCmd.name, [118]]]

/-- A handler starts after an ADMIN that has failed, and the handler of ADMIN starts without one
that has succeeded. -/
theorem failed_or_first_admin :
    (∃ r : Run (step someTable) newClient, r.Meets (fun _ a => a.requirepassSet = true) ∧
      ∃ pre e post cmd, (r.state 3).history = pre ++ e :: post ∧ e.Starts cmd ∧
        cmd.proc ≠ .auth ∧ cmd.proc ≠ .admin ∧ ¬ Granted Event.loginOk Event.failed pre) ∧
    ∃ r : Run (step fun _ => some markedCmd) newClient, r.Meets (fun _ a => a.adminpassSet = true) ∧
      ∃ pre e post cmd, (r.state 1).history = pre ++ e :: post ∧ e.Starts cmd ∧
        cmd.needadmin = true ∧ ¬ Granted Event.adminOk Event.failed pre := by
  constructor
  · refine ⟨.ofList authAdminPing (by decide +kernel), Run.ofList_meets _ (by decide +kernel),
      [.command (.auth authCmd .ok), .command (.admin adminCmd .noPassword)],
      .command (.run pingCmd), [], pingCmd, by decide +kernel, rfl, by decide, by decide, ?_⟩
    rintro ⟨a, e, b, heq, hok, hb⟩
    rcases a with _ | ⟨x, _ | ⟨y, a⟩⟩
    · obtain ⟨-, rfl⟩ := cons.inj heq
      exact absurd (hb _ mem_cons_self) (by decide)
    · obtain ⟨rfl, -⟩ := cons.inj (cons.inj heq).2
      exact absurd hok (by decide)
    · simp at heq
  · refine ⟨.ofList firstAdmin (by decide +kernel), Run.ofList_meets _ (by decide +kernel), [],
      .command (.admin markedCmd .ok), [], markedCmd, by decide +kernel, rfl, rfl, ?_⟩
    rintro ⟨a, e, b, heq, -⟩
    simp at heq

theorem foldl_xor_eq_zero : ∀ {u v : Sds}, u.length = v.length → ∀ d : ℕ,
    ((u.zip v).foldl (fun diff c => diff ||| (c.1 ^^^ c.2).toNat) d = 0 ↔ d = 0 ∧ u = v)
  | [], [], _, d => by simp
  | x :: u, y :: v, h, d => by
    have hxy : (x ^^^ y).toNat = 0 ↔ x = y := by
      rw [← UInt8.toNat_zero, UInt8.toNat_inj]
      exact UInt8.xor_eq_zero_iff
    rw [zip_cons_cons, foldl_cons, foldl_xor_eq_zero (by simpa using h),
      Nat.or_eq_zero_iff, cons.injEq, and_assoc, hxy]

theorem length_passBuffer {s : Sds} {len : ℕ} (hs : len ≤ s.length)
    (hlen : len ≤ Conf.authpassMaxLen) : (passBuffer s len).length = Conf.authpassMaxLen := by
  rw [passBuffer, length_append, length_take, length_replicate]
  omega

/-- What `time_independent_strcmp` compares of an argument. -/
def compared (a : Sds) : Sds := (cstr a).take ((cstr a).length % 2 ^ 32)

theorem length_compared (a : Sds) : (compared a).length = (cstr a).length % 2 ^ 32 := by
  rw [compared, length_take, Nat.min_eq_left (Nat.mod_le _ _)]

theorem compared_eq_cstr {a : Sds} (h : a.length < 2 ^ 32) : compared a = cstr a := by
  have hle : (cstr a).length ≤ a.length := (takeWhile_sublist _).length_le
  rw [compared, Nat.mod_eq_of_lt (by omega), take_length]

theorem samePassword_iff {a p : Sds} (hp : p.length ≤ Conf.authpassMaxLen) :
    samePassword a p = true ↔ compared a = cstr p := by
  have hcp : (cstr p).length ≤ Conf.authpassMaxLen :=
    (takeWhile_sublist _).length_le.trans hp
  have hmod : (cstr p).length % 2 ^ 32 = (cstr p).length :=
    Nat.mod_eq_of_lt (by unfold Conf.authpassMaxLen at hcp; omega)
  rw [samePassword, beq_iff_eq, timeIndependentStrcmp]
  simp only [hmod, ← length_compared]
  by_cases ha : Conf.authpassMaxLen < (compared a).length
  · rw [if_pos (.inl ha)]
    refine iff_of_false one_ne_zero fun heq => ?_
    rw [heq] at ha
    omega
  · have hca : (compared a).length ≤ (cstr a).length := by
      rw [length_compared]
      exact Nat.mod_le _ _
    rw [if_neg (by omega), Nat.or_eq_zero_iff, xor_eq_zero_iff, foldl_xor_eq_zero]
    · constructor
      · rintro ⟨⟨-, hbuf⟩, hlen⟩
        rw [passBuffer, passBuffer, take_length, length_compared] at hbuf
        exact append_inj_left hbuf hlen
      · intro heq
        have htake : (cstr a).take (compared a).length = cstr p := by
          rw [length_compared]
          exact heq
        refine ⟨⟨rfl, ?_⟩, by rw [heq]⟩
        rw [passBuffer, passBuffer, take_length, htake, heq]
    · rw [length_passBuffer hca (by omega), length_passBuffer le_rfl hcp]

theorem login_ok_iff {a p : Sds} (hp : p.length ≤ Conf.authpassMaxLen) :
    login (some p) a = .ok ↔ compared a = cstr p := by
  rw [← samePassword_iff hp, login]
  split_ifs with h <;> simp [h]

theorem confSetPassword_stored {p : Sds} (hp : p ≠ []) (hlen : p.length ≤ Conf.authpassMaxLen)
    (f : Conf.Field (Option Sds)) (c : Conf.VrConf) :
    f.get (Conf.confSetPassword f (.string p) c).1.server = some p := by
  rw [Conf.confSetPassword, if_neg (by omega), if_neg hp]
  exact f.get_put _ _

/-- AUTH and ADMIN accept the configured password only, unless the argument is another string that
agrees with it up to the first zero byte of each. -/
theorem passwords_told_apart_iff {p : Sds} (hp : p ≠ []) (hlen : p.length ≤ Conf.authpassMaxLen)
    (j : ℕ) (c : Conf.VrConf) (x : Ctx) (cmd : Command) (name a : Sds) :
    (cmd.proc = .auth →
      x.confRequirepass = (Conf.Opt.requirepass.set j (.string p) c).1.server.requirepass →
      ((callProc x cmd [name, a] = .auth cmd .ok ↔ a = p) ↔ (compared a = cstr p → a = p))) ∧
    (cmd.proc = .admin →
      x.confAdminpass = (Conf.Opt.adminpass.set j (.string p) c).1.server.adminpass →
      ((callProc x cmd [name, a] = .admin cmd .ok ↔ a = p) ↔ (compared a = cstr p → a = p))) := by
  have hself : compared p = cstr p :=
    compared_eq_cstr (by unfold Conf.authpassMaxLen at hlen; omega)
  have hiff : ((compared a = cstr p ↔ a = p) ↔ (compared a = cstr p → a = p)) :=
    ⟨Iff.mp, fun h => ⟨h, fun heq => heq ▸ hself⟩⟩
  constructor
  · intro hproc hx
    have hstored : x.confRequirepass = some p :=
      hx.trans (confSetPassword_stored hp hlen .requirepass c)
    rw [← hiff, ← login_ok_iff hlen, callProc, hproc, hstored]
    simp
  · intro hproc hx
    have hstored : x.confAdminpass = some p :=
      hx.trans (confSetPassword_stored hp hlen .adminpass c)
    rw [← hiff, ← login_ok_iff hlen, callProc, hproc, hstored]
    simp

def passwordUv : Conf.VrConf := (Conf.Opt.requirepass.set 0 (.string [117, 118]) ⟨.default 1, 0⟩).1

def passwordUvCtx : Ctx :=
  ⟨passwordUv.server.requirepass, none, passwordUv.server.requirepass, none, false, false⟩

theorem passwords_told_apart_uw :
    callProc passwordUvCtx authCmd [authCmd.name, [117, 119]] ≠ .auth authCmd .ok := by
  have h := (passwords_told_apart_iff (p := [117, 118]) (by decide) (by decide) 0
    ⟨.default 1, 0⟩ passwordUvCtx authCmd authCmd.name [117, 119]).1 rfl rfl
  exact mt (h.mpr fun heq => absurd heq (by decide)).mp (by decide)

/-- AUTH with `uv`, a zero byte and `w` is accepted. -/
theorem password_zero_byte :
    callProc passwordUvCtx authCmd [authCmd.name, [117, 118, 0, 119]] = .auth authCmd .ok ∧
      passwordUv.server.requirepass = some [117, 118] := by
  decide +kernel

end Vire.Auth
