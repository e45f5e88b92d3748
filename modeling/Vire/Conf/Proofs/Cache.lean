import Vire.Conf.Cache
import Vire.Conf.Proofs.Set

/-!
# Coherence of the cache

Whatever changes a cached option moves the version on.  So if the version read at the start of
`conf_cache_update` is still the current one, the options read since then are current too.
-/

namespace Vire.Conf

open Vire.Logic

structure Cache.Current (cc : Cache) (s : Server) : Prop where
  maxclients : cc.maxclients = s.maxclients
  requirepass : cc.requirepass = s.requirepass
  adminpass : cc.adminpass = s.adminpass
  maxmemory : cc.maxmemory = s.maxmemory
  maxTimeComplexityLimit : cc.maxTimeComplexityLimit = s.maxTimeComplexityLimit
  slowlogLogSlowerThan : cc.slowlogLogSlowerThan = s.slowlogLogSlowerThan

theorem Cache.current_iff {cc : Cache} {s : Server} :
    cc.Current s ↔ ∀ f, cc.get f = f.opt.get s := by
  constructor
  · rintro ⟨h1, h2, h3, h4, h5, h6⟩ f
    cases f <;> simp only [Cache.get, Cached.opt, Opt.get, h1, h2, h3, h4, h5, h6]
  · intro h
    exact ⟨FieldVal.int.inj (h .maxclients), FieldVal.sds.inj (h .requirepass),
      FieldVal.sds.inj (h .adminpass), FieldVal.longlong.inj (h .maxmemory),
      FieldVal.longlong.inj (h .maxTimeComplexityLimit),
      FieldVal.longlong.inj (h .slowlogLogSlowerThan)⟩

theorem Cache.read_get (s : Server) (cc : Cache) (f g : Cached) :
    (cc.read s f).get g = if g = f then f.opt.get s else cc.get g := by
  cases f <;> cases g <;> rfl

theorem Cache.read_version (s : Server) (cc : Cache) (f : Cached) :
    (cc.read s f).cacheVersion = cc.cacheVersion := by
  cases f <;> rfl

/-- From `c` to `c'` the version moves on, or the cached options stay. -/
def Moves (c c' : VrConf) : Prop :=
  c.version < c'.version ∨
    c'.version = c.version ∧ ∀ f : Cached, f.opt.get c'.server = f.opt.get c.server

theorem Moves.refl (c : VrConf) : Moves c c := .inr ⟨rfl, fun _ => rfl⟩

theorem Moves.le {c c' : VrConf} (h : Moves c c') : c.version ≤ c'.version := by
  rcases h with h | h
  · exact h.le
  · exact h.1.ge

theorem Field.moves_commit {α : Type} (f : Field α) (x : α) (c : VrConf) : Moves c (f.commit x c) :=
  .inl (Nat.lt_succ_self _)

theorem Field.Commits.moves {α : Type} {f : Field α} {P : α → Prop} {S : Setter}
    (h : f.Commits P S) (v : Value) (c : VrConf) : Moves c (S v c).1 := by
  rcases h v c with h | ⟨x, -, h⟩ <;> rw [h]
  · exact .refl c
  · exact f.moves_commit x c

theorem adjustOpenFilesLimit_moves (os : Os) (j : ℕ) (m : ℤ) (c : VrConf) :
    Moves c (adjustOpenFilesLimit os j m c).1 := by
  rw [adjustOpenFilesLimit_eq]
  dsimp only
  split_ifs
  · exact Field.maxclients.moves_commit _ c
  all_goals exact .refl c

/-- CONFIG SET lets only such values through to the setter of `maxclients`. -/
def Opt.Passed (value : Sds) (o : Opt) : Prop :=
  o = .maxclients → ∃ v, string2ll value = some v ∧ 1 ≤ v ∧ v < 2 ^ 31

theorem setIntFrom_version (least : ℤ) (f : Field ℤ) (v : Value) (c : VrConf) :
    c.version ≤ (setIntFrom least f v c).1.version := by
  rcases setIntFrom_cases least f v c with h | ⟨_, -, -, -, h⟩ | ⟨_, -, h⟩ <;> rw [h]
  · exact le_rfl
  · exact Nat.le_succ _

theorem Opt.set_version (j : ℕ) (o : Opt) (v : Value) (c : VrConf) :
    c.version ≤ (o.set j v c).1.version := by
  cases o
  case databases | internalDbsPerDatabases | maxmemorySamples | port | threads | maxclients |
      slowlogMaxLen =>
    exact setIntFrom_version _ _ v c
  case maxmemory => exact ((confSetMaxmemory_commits _).moves v c).le
  case maxmemoryPolicy =>
    rcases confSetMaxmemoryPolicy_cases .maxmemoryPolicy v c with h | ⟨_, _, -, -, h⟩
    all_goals
      simp only [Opt.set, h]
      exact le_rfl
  case maxTimeComplexityLimit | slowlogLogSlowerThan =>
    exact ((confSetLonglong_commits _).moves v c).le
  case bind | commandsNeedAdminpass => exact ((confSetArraySds_commits j _).moves v c).le
  case requirepass | adminpass => exact ((confSetPassword_commits _).moves v c).le

theorem Opt.set_moves_of_uncached {o : Opt} (h : ∀ f : Cached, f.opt ≠ o) (j : ℕ) (v : Value)
    (c : VrConf) : Moves c (o.set j v c).1 := by
  rcases (Opt.set_version j o v c).lt_or_eq with hlt | heq
  · exact .inl hlt
  · exact .inr ⟨heq.symm, fun f => Opt.set_only j o v c _ (h f)⟩

theorem Opt.set_moves (j : ℕ) {o : Opt} {value : Sds} (h : o.Passed value) (c : VrConf) :
    Moves c (o.set j (splitValue value) c).1 := by
  cases o
  case maxclients =>
    obtain ⟨v, hv, h1, hlt⟩ := h rfl
    obtain ⟨hs, hd⟩ := digits_of_string2ll hv h1
    rw [splitValue, if_neg (not_mem_space hs), set_maxclients j hs hd h1 hlt]
    exact Field.maxclients.moves_commit v c
  case maxmemory => exact (confSetMaxmemory_commits _).moves _ c
  case maxTimeComplexityLimit | slowlogLogSlowerThan => exact (confSetLonglong_commits _).moves _ c
  case requirepass | adminpass => exact (confSetPassword_commits _).moves _ c
  all_goals exact Opt.set_moves_of_uncached (by intro f; cases f <;> decide) j _ c

theorem beginSet_spec (j : ℕ) (os : Os) (authenticated : ℕ) (name value : Sds) (c : VrConf)
    (x : Worker) :
    Moves c (beginSet j os authenticated name value c x).1 ∧
      ((beginSet j os authenticated name value c x).2 = x ∨
        ∃ o, o.Passed value ∧
          (beginSet j os authenticated name value c x).2 = { x with pc := .setting o value }) := by
  unfold beginSet
  rcases configSetCheck_cases os j x.cc.adminpass authenticated name value c with
    ⟨e, hc⟩ | ⟨o, ho, -, hc⟩ | ⟨v, hv, h1, ⟨e, hc⟩ | ⟨hlt, hc⟩⟩ <;> rw [hc]
  · exact ⟨.refl c, .inl rfl⟩
  · exact ⟨.refl c, .inr ⟨o, fun h => absurd h ho, rfl⟩⟩
  · exact ⟨adjustOpenFilesLimit_moves os j _ c, .inl rfl⟩
  · exact ⟨adjustOpenFilesLimit_moves os j _ c, .inr ⟨_, fun _ => ⟨v, hv, h1, hlt⟩, rfl⟩⟩

/-- What is known of a worker's cache: it is not ahead of the configuration, and where the versions
agree the options that have been read are current. -/
structure Coherent (c : VrConf) (x : Worker) : Prop where
  le : x.cc.cacheVersion ≤ c.version
  current : (∀ v left, x.pc ≠ .updating v left) → x.cc.cacheVersion = c.version →
    ∀ f : Cached, x.cc.get f = f.opt.get c.server
  reading : ∀ v left, x.pc = .updating v left → v ≤ c.version ∧
    (v = c.version → ∀ f ∉ left, x.cc.get f = f.opt.get c.server)
  passed : ∀ o value, x.pc = .setting o value → o.Passed value

variable {x : Worker}

theorem Coherent.moves {c c' : VrConf} (h : Coherent c x) (hm : Moves c c') :
    Coherent c' x := by
  refine ⟨h.le.trans hm.le, fun hpc hv f => ?_, fun v left hpc => ?_, h.passed⟩
  · rcases hm with hlt | ⟨heq, hsame⟩
    · have := h.le
      omega
    · rw [hsame f]
      exact h.current hpc (hv.trans heq) f
  · obtain ⟨hle, hread⟩ := h.reading v left hpc
    refine ⟨hle.trans hm.le, fun hv f hf => ?_⟩
    rcases hm with hlt | ⟨heq, hsame⟩
    · omega
    · rw [hsame f]
      exact hread (hv.trans heq) f hf

theorem Coherent.goto {c : VrConf} {p : Pc} (h : Coherent c x)
    (hx : ∀ v left, x.pc ≠ .updating v left) (hp : ∀ v left, p ≠ .updating v left)
    (hpass : ∀ o value, p = .setting o value → o.Passed value) : Coherent c { x with pc := p } :=
  ⟨h.le, fun _ => h.current hx, fun v left hpc => absurd hpc (hp v left), hpass⟩

theorem coherent_init (c : VrConf) : Coherent c ⟨.init c.server, .idle⟩ :=
  ⟨Nat.zero_le _, fun _ _ => Cache.current_iff.mp ⟨rfl, rfl, rfl, rfl, rfl, rfl⟩, by simp, by simp⟩

theorem Coherent.beginUpdate {c : VrConf} (h : Coherent c x) :
    Coherent c (beginUpdate c x) := by
  unfold Conf.beginUpdate
  split_ifs
  · exact h
  · refine ⟨h.le, fun hpc => absurd rfl (hpc _ _), fun v left hpc => ?_, by simp⟩
    obtain ⟨rfl, rfl⟩ := Pc.updating.inj hpc
    refine ⟨le_rfl, fun _ f hf => absurd ?_ hf⟩
    cases f <;> decide

variable {j : ℕ}

theorem Coherent.step {c c' : VrConf} {x' : Worker} {a : WorkerAct} (h : Coherent c x)
    (hs : x.step j c a = some (c', x')) : Moves c c' ∧ Coherent c' x' := by
  cases a
  case version =>
    simp only [Worker.step] at hs
    split_ifs at hs
    obtain ⟨rfl, rfl⟩ := Prod.mk.inj (Option.some.inj hs)
    exact ⟨.refl _, h.beginUpdate⟩
  case read =>
    rcases hpc : x.pc with _ | ⟨v, _ | ⟨f, left⟩⟩ | ⟨o, value⟩ <;>
      simp only [Worker.step, hpc, reduceCtorEq] at hs
    obtain ⟨rfl, rfl⟩ := Prod.mk.inj (Option.some.inj hs)
    obtain ⟨hle, hread⟩ := h.reading v _ hpc
    refine ⟨.refl _, by rw [Cache.read_version]; exact h.le, fun hne => absurd rfl (hne v left),
      fun v' left' hpc' => ?_, by simp⟩
    obtain ⟨rfl, rfl⟩ := Pc.updating.inj hpc'
    refine ⟨hle, fun hv g hg => ?_⟩
    rw [Cache.read_get]
    split_ifs with hgf
    · rw [hgf]
    · exact hread hv g (by simp [hgf, hg])
  case done =>
    rcases hpc : x.pc with _ | ⟨v, _ | ⟨f, left⟩⟩ | ⟨o, value⟩ <;>
      simp only [Worker.step, hpc, reduceCtorEq] at hs
    obtain ⟨rfl, rfl⟩ := Prod.mk.inj (Option.some.inj hs)
    obtain ⟨hle, hread⟩ := h.reading v _ hpc
    exact ⟨.refl _, hle, fun _ hv f => hread hv f (by simp), by simp, by simp⟩
  case check os authenticated name value =>
    simp only [Worker.step] at hs
    split_ifs at hs with hpc
    obtain ⟨hm, hx⟩ := beginSet_spec j os authenticated name value c x
    rw [Option.some.inj hs] at hm hx
    refine ⟨hm, ?_⟩
    rcases hx with rfl | ⟨o, ho, rfl⟩
    · exact h.moves hm
    · refine (h.moves hm).goto (by simp [hpc]) (by simp) fun o' value' heq => ?_
      obtain ⟨rfl, rfl⟩ := Pc.setting.inj heq
      exact ho
  case set =>
    rcases hpc : x.pc with _ | ⟨v, left⟩ | ⟨o, value⟩ <;>
      simp only [Worker.step, hpc, reduceCtorEq] at hs
    obtain ⟨rfl, rfl⟩ := Prod.mk.inj (Option.some.inj hs)
    have hm := Opt.set_moves j (h.passed o value hpc) c
    exact ⟨hm, (h.moves hm).goto (by simp [hpc]) (by simp) (by simp)⟩

theorem step_coherent {s s' : State} {a : Act}
    (h : ∀ w x, s.worker w = some x → Coherent s.conf x) (hs : Conf.step j s a = some s') :
    Moves s.conf s'.conf ∧ ∀ w x, s'.worker w = some x → Coherent s'.conf x := by
  -- the worker that moves, and the others
  have hput : ∀ {w : ℕ} {c' : VrConf} {y : Worker}, Moves s.conf c' → Coherent c' y →
      ∀ w' x, Function.update s.worker w (some y) w' = some x → Coherent c' x := by
    intro w c' y hm hy w' x hx
    by_cases hw : w' = w
    · subst hw
      rw [Function.update_self] at hx
      obtain rfl := Option.some.inj hx
      exact hy
    · rw [Function.update_of_ne hw] at hx
      exact (h w' x hx).moves hm
  cases a
  case work w a =>
    simp only [Conf.step, Option.bind_eq_some_iff, Option.map_eq_some_iff] at hs
    obtain ⟨x, hx, ⟨c', x'⟩, hstep, rfl⟩ := hs
    obtain ⟨hm, hc⟩ := (h w x hx).step hstep
    exact ⟨hm, hput hm hc⟩
  case init w =>
    simp only [Conf.step] at hs
    split_ifs at hs
    obtain rfl := Option.some.inj hs
    exact ⟨.refl _, hput (.refl _) (coherent_init s.conf)⟩
  case adjust os m =>
    obtain rfl := Option.some.inj hs
    have hm := adjustOpenFilesLimit_moves os j m s.conf
    exact ⟨hm, fun w x hx => (h w x hx).moves hm⟩

theorem run_coherent {conf : VrConf} (r : Run (Conf.step j) (start conf)) (m w : ℕ)
    (x : Worker) (hx : (r.state m).worker w = some x) : Coherent (r.state m).conf x := by
  refine r.invariant (I := fun s => ∀ w x, s.worker w = some x → Coherent s.conf x)
    (G := fun _ _ => True) (fun _ _ _ => trivial) (by simp [start]) ?_ m w x hx
  intro s a s' h _ hs
  exact (step_coherent h hs).2

/-- In every run the cache of a worker outside of `conf_cache_update` that has the current version
has the current options, and the version never decreases. -/
theorem cache_coherent {conf : VrConf} (r : Run (Conf.step j) (start conf)) :
    (∀ m w x, (r.state m).worker w = some x → (∀ v left, x.pc ≠ .updating v left) →
      x.cc.cacheVersion = (r.state m).conf.version → x.cc.Current (r.state m).conf.server) ∧
    ∀ m m', m ≤ m' → (r.state m).conf.version ≤ (r.state m').conf.version := by
  refine ⟨fun m w x hx hpc hv => Cache.current_iff.mpr ((run_coherent r m w x hx).current hpc hv),
    fun m m' hle => ?_⟩
  induction m', hle using Nat.le_induction with
  | base => exact le_rfl
  | succ m' _ ih =>
    rcases ha : r.act m' with _ | a
    · rw [r.pause_eq ha]
      exact ih
    · exact ih.trans (step_coherent (run_coherent r m') (r.step_eq ha)).1.le

def setMeanwhile : List Act :=
  [.init 0, .init 1, .work 1 (.check ⟨none, fun _ => true⟩ 0 (Opt.name .requirepass) [112]),
    .work 1 .set, .work 0 .version, .work 0 .read, .work 0 .read, .work 0 .read, .work 0 .read,
    .work 0 .read, .work 0 .read, .work 0 .done]

theorem cache_coherent_setMeanwhile :
    ∃ s x, exec (Conf.step 0) (start ⟨.default 4, 0⟩) setMeanwhile = some s ∧
      s.worker 0 = some x ∧ s.conf.version = 1 ∧ x.cc.Current s.conf.server := by
  let r : Run (Conf.step 0) (start ⟨.default 4, 0⟩) := .ofList setMeanwhile (by decide)
  refine ⟨r.state 12, _, rfl, rfl, rfl, ?_⟩
  exact (cache_coherent r).1 12 0 _ rfl (by simp) rfl

end Vire.Conf
