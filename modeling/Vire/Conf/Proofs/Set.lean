import Vire.Conf.Command
import Vire.Decimal

/-!
# What CONFIG SET changes

A setter touches its own option only.  A CONFIG SET that replies with an error has changed nothing,
except where something is written before the refusal: `Opt.Spills` says when.
-/

namespace Vire.Conf

open List

variable {α : Type}

theorem int32_lt (v : ℤ) : int32 v < 2 ^ 31 := by
  have := Int.bmod_lt (x := v) (m := 2 ^ 32) (by norm_num)
  unfold int32
  omega

variable {v : ℤ} {s : Sds}

theorem sdsIsNum_iff : sdsIsNum s = true ↔ s ≠ [] ∧ ∀ b ∈ s, isdigit b = true := by
  simp [sdsIsNum]

theorem sdsIsNum_decimal (n : ℕ) : sdsIsNum (decimal n) = true :=
  sdsIsNum_iff.mpr ⟨decimal_ne_nil n, isdigit_decimal n⟩

theorem foldl_int32 (s : Sds) (hs : ∀ b ∈ s, isdigit b = true) :
    ∀ v : ℕ, s.foldl (fun (v : ℤ) b => int32 (v * 10 + (b.toNat - 48))) (int32 v) =
      int32 (s.foldl (fun v b => 10 * v + (b.toNat - 48)) v : ℕ) := by
  induction s with
  | nil =>
    intro v
    rw [foldl_nil, foldl_nil]
  | cons b s ih =>
    intro v
    rw [foldl_cons, foldl_cons, ← ih fun b hb => hs b (mem_cons_of_mem _ hb)]
    have hb : 48 ≤ b.toNat := by
      have := hs b mem_cons_self
      simp only [isdigit, Bool.and_eq_true, decide_eq_true_eq, UInt8.le_iff_toNat_le] at this
      exact this.1
    have hcast : ((10 * v + (b.toNat - 48) : ℕ) : ℤ) = v * 10 + (b.toNat - 48) := by omega
    rw [hcast]
    unfold int32
    rw [← Int.bmod_add_bmod, Int.bmod_mul_bmod, Int.bmod_add_bmod]

theorem vrAtoi_eq (hs : sdsIsNum s = true) :
    vrAtoi s = if int32 (digitsVal s) < 0 then -1 else int32 (digitsVal s) := by
  obtain ⟨hne, hd⟩ := sdsIsNum_iff.mp hs
  have hall : s.all isdigit = true := all_eq_true.mpr hd
  have hfold : s.foldl (fun (v : ℤ) b => int32 (v * 10 + (b.toNat - 48))) 0 = int32 (digitsVal s) :=
    foldl_int32 s hd 0
  simp only [vrAtoi, hne, hall, not_true_eq_false, or_self, if_false, hfold]

theorem vrAtoi_lt (hs : sdsIsNum s = true) : vrAtoi s < 2 ^ 31 := by
  have := int32_lt (digitsVal s)
  rw [vrAtoi_eq hs]
  split_ifs <;> omega

theorem digits_of_string2ll (h : string2ll s = some v) (hv : 1 ≤ v) :
    sdsIsNum s = true ∧ (digitsVal s : ℤ) = v := by
  obtain ⟨rfl, -⟩ := ll2string_of_string2ll h
  rw [ll2string, if_neg (by omega), digitsVal_decimal]
  exact ⟨sdsIsNum_decimal _, by omega⟩

theorem not_mem_space (h : sdsIsNum s = true) : 32 ∉ s := by
  intro hm
  exact absurd ((sdsIsNum_iff.mp h).2 32 hm) (by decide)

def signed10 (neg : Bool) (ds : Sds) : ℤ := if neg then -(digitsVal ds : ℤ) else digitsVal ds

/-- What `memtoll` takes for the sign, the digits and the unit of an amount. -/
def amountParts (s : Sds) : Bool × Sds × Sds :=
  let neg := (cstr s).head? == some 45
  let t := if neg then (cstr s).tail else cstr s
  (neg, t.takeWhile isdigit, t.dropWhile isdigit)

theorem memtoll_eq (s : Sds) : memtoll s = (memUnit (amountParts s).2.2).bind fun mul =>
    if 128 ≤ (amountParts s).2.1.length + (if (amountParts s).1 then 1 else 0) ∨
        ((amountParts s).1 ∧ (amountParts s).2.1 = []) then none
    else some (wrap
      (max llongMin (min llongMax (signed10 (amountParts s).1 (amountParts s).2.1)) * mul)) := by
  unfold memtoll amountParts
  dsimp only
  split <;> rename_i h <;> rw [h] <;> rfl

theorem memtoll_parts (h : memtoll s = some v) :
    ∃ mul, memUnit (amountParts s).2.2 = some mul ∧
      v =
        wrap
          (max llongMin (min llongMax (signed10 (amountParts s).1 (amountParts s).2.1)) * mul) := by
  rw [memtoll_eq] at h
  obtain ⟨mul, hmul, h⟩ := Option.bind_eq_some_iff.mp h
  obtain ⟨-, h⟩ := Option.ite_none_left_eq_some.mp h
  exact ⟨mul, hmul, (Option.some.inj h).symm⟩

theorem memtoll_le (h : memtoll s = some v) : v ≤ llongMax := by
  obtain ⟨mul, -, rfl⟩ := memtoll_parts h
  exact (wrap_range _).2

/-- A setter leaves the other options alone. -/
def Setter.Only (S : Setter) (o : Opt) : Prop :=
  ∀ v c o', o' ≠ o → o'.get (S v c).1.server = o'.get c.server

def Field.Of (f : Field α) (o : Opt) : Prop :=
  ∀ x s o', o' ≠ o → o'.get (f.put x s) = o'.get s

/-- What a setter of `f` does that never writes a value it refuses and only writes values in `P`. -/
def Field.Commits (f : Field α) (P : α → Prop) (S : Setter) : Prop :=
  ∀ v c, S v c = (c, false) ∨ ∃ x, P x ∧ S v c = (f.commit x c, true)

variable {o : Opt} {P : α → Prop} {S : Setter}

theorem Field.Commits.mem {f : Field α} (h : f.Commits P S) {v : Value} {c : VrConf}
    (hs : (S v c).2 = true) : P (f.get (S v c).1.server) := by
  rcases h v c with h | ⟨x, hx, h⟩ <;> rw [h] at hs ⊢
  · cases hs
  · rwa [Field.commit, f.get_put]

theorem Field.Commits.only {f : Field α} (h : f.Commits P S) (hf : f.Of o) : S.Only o := by
  intro v c o' ho
  rcases h v c with h | ⟨x, -, h⟩ <;> rw [h]
  exact hf x c.server o' ho

theorem confSetMaxmemory_commits (f : Field ℤ) :
    f.Commits (fun v => 0 ≤ v ∧ v ≤ llongMax) (confSetMaxmemory f) := by
  rintro (s | l) c
  · rcases hm : memtoll s with _ | v
    · exact .inl (by simp only [confSetMaxmemory, hm])
    · simp only [confSetMaxmemory, hm]
      split_ifs with hneg
      · exact .inl rfl
      · exact .inr ⟨v, ⟨not_lt.mp hneg, memtoll_le hm⟩, rfl⟩
  · exact .inl rfl

theorem confSetLonglong_commits (f : Field ℤ) : f.Commits InRange (confSetLonglong f) := by
  rintro (s | l) c
  · rcases hv : string2ll s with _ | v
    · exact .inl (by simp only [confSetLonglong, hv])
    · exact .inr ⟨v, (ll2string_of_string2ll hv).2, by simp only [confSetLonglong, hv]⟩
  · exact .inl rfl

theorem confSetPassword_commits (f : Field (Option Sds)) :
    f.Commits (fun s => ∀ p ∈ s, p ≠ [] ∧ p.length ≤ authpassMaxLen) (confSetPassword f) := by
  rintro (s | l) c
  · simp only [confSetPassword]
    split_ifs with hlen hs
    · exact .inl rfl
    · exact .inr ⟨_, by simp, rfl⟩
    · exact .inr ⟨_, by simpa using ⟨hs, not_lt.mp hlen⟩, rfl⟩
  · exact .inl rfl

theorem confSetArraySds_commits (j : ℕ) (f : Field (List Sds)) :
    f.Commits (· ≠ []) (confSetArraySds j f) := by
  rintro (s | l) c
  · exact .inr ⟨[s], by simp, rfl⟩
  · simp only [confSetArraySds]
    split_ifs with hj
    · exact .inr ⟨l, ne_nil_of_length_pos (by omega), rfl⟩
    · exact .inl rfl

theorem setIntFrom_cases (least : ℤ) (f : Field ℤ) (v : Value) (c : VrConf) :
    setIntFrom least f v c = (c, false) ∨
      (∃ s, v = .string s ∧ sdsIsNum s = true ∧ vrAtoi s < least ∧
        setIntFrom least f v c = (f.write (vrAtoi s) c, false)) ∨
      ∃ x, (least ≤ x ∧ x < 2 ^ 31) ∧ setIntFrom least f v c = (f.commit x c, true) := by
  rcases v with s | l
  · simp only [setIntFrom]
    split_ifs with hn hlt
    · exact .inr (.inl ⟨s, rfl, hn, hlt, rfl⟩)
    · exact .inr (.inr ⟨_, ⟨not_lt.mp hlt, vrAtoi_lt hn⟩, rfl⟩)
    · exact .inl rfl
  · exact .inl rfl

variable {least : ℤ}

theorem setIntFrom_of_digits {f : Field ℤ} (hs : sdsIsNum s = true)
    (hd : (digitsVal s : ℤ) = v) (hleast : least ≤ v) (hv : v < 2 ^ 31) (c : VrConf) :
    setIntFrom least f (.string s) c = (f.commit v c, true) := by
  have hat : vrAtoi s = v := by
    rw [vrAtoi_eq hs, hd, int32_of_lt (by omega) hv, if_neg (by omega)]
  simp only [setIntFrom, hs, if_true, hat, if_neg (not_lt.mpr hleast)]

theorem setIntFrom_ll2string {f : Field ℤ} (h0 : 0 ≤ least)
    (hleast : least ≤ v) (hv : v < 2 ^ 31) (c : VrConf) :
    setIntFrom least f (.string (ll2string v)) c = (f.commit v c, true) := by
  have hn : ¬ v < 0 := by omega
  rw [ll2string, if_neg hn]
  exact setIntFrom_of_digits (sdsIsNum_decimal _) (by rw [digitsVal_decimal]; omega) hleast hv c

theorem setIntFrom_only {f : Field ℤ} (hf : f.Of o) :
    (setIntFrom least f).Only o := by
  intro v c o' ho
  rcases setIntFrom_cases least f v c with h | ⟨s, -, -, -, h⟩ | ⟨x, -, h⟩ <;> rw [h]
  · exact hf _ c.server o' ho
  · exact hf _ c.server o' ho

theorem confSetMaxmemoryPolicy_cases (f : Field EvictPolicy) (v : Value) (c : VrConf) :
    confSetMaxmemoryPolicy f v c = (c, false) ∨
      ∃ s p, v = .string s ∧ cstr s = p.name ∧
        confSetMaxmemoryPolicy f v c = (f.write p c, !p.lru) := by
  rcases v with s | l
  · rcases hp : EvictPolicy.all.find? fun p => cstr s == p.name with _ | p
    · exact .inl (by simp only [confSetMaxmemoryPolicy, hp])
    · exact .inr ⟨s, p, rfl, by simpa using find?_some hp,
        by simp only [confSetMaxmemoryPolicy, hp]⟩
  · exact .inl rfl

variable {f : Field EvictPolicy}

theorem confSetMaxmemoryPolicy_only (hf : f.Of o) :
    (confSetMaxmemoryPolicy f).Only o := by
  intro v c o' ho
  rcases confSetMaxmemoryPolicy_cases f v c with h | ⟨s, p, -, -, h⟩ <;> rw [h]
  exact hf p c.server o' ho

theorem Opt.set_only (j : ℕ) (o : Opt) : (o.set j).Only o := by
  cases o
  case' databases | internalDbsPerDatabases | maxmemorySamples | port | threads | maxclients |
      slowlogMaxLen =>
    apply setIntFrom_only
  case' maxmemory => apply (confSetMaxmemory_commits _).only
  case' maxmemoryPolicy => apply confSetMaxmemoryPolicy_only
  case' maxTimeComplexityLimit | slowlogLogSlowerThan => apply (confSetLonglong_commits _).only
  case' bind | commandsNeedAdminpass => apply (confSetArraySds_commits j _).only
  case' requirepass | adminpass => apply (confSetPassword_commits _).only
  all_goals
    intro x s o' ho
    cases o' <;> first | rfl | exact absurd rfl ho

theorem set_maxclients (j : ℕ) (hs : sdsIsNum s = true)
    (hd : (digitsVal s : ℤ) = v) (h1 : 1 ≤ v) (hv : v < 2 ^ 31) (c : VrConf) :
    Opt.maxclients.set j (.string s) c = (Field.maxclients.commit v c, true) :=
  setIntFrom_of_digits hs hd h1 hv c

theorem set_maxclients_ll2string (j : ℕ) (h1 : 1 ≤ v) (hv : v < 2 ^ 31) (c : VrConf) :
    Opt.maxclients.set j (.string (ll2string v)) c = (Field.maxclients.commit v c, true) :=
  setIntFrom_ll2string (by decide) h1 hv c

theorem clientsFor_lt (files : ℕ) (threads : ℤ) : clientsFor files threads < 2 ^ 31 := int32_lt _

theorem adjustOpenFilesLimit_eq (os : Os) (j : ℕ) (m : ℤ) (c : VrConf) :
    adjustOpenFilesLimit os j m c =
      let files := neededFiles m c.server.threads
      let k := clientsFor (os.openFiles files) c.server.threads
      (if 1 ≤ k ∧ os.openFiles files < files then Field.maxclients.commit k c else c,
        if k < 1 then -1 else int32 (os.openFiles files)) := by
  simp only [adjustOpenFilesLimit]
  split_ifs with h1 h2 h2 h2 h2
  · omega
  · rfl
  · rw [set_maxclients_ll2string j h2.1 (clientsFor_lt _ _)]
  · omega
  · omega
  · rfl

/-- The values that are refused although something has been written for them: the setters of
`maxmemory-samples`, `slowlog-max-len` and `maxmemory-policy` check a value when it is in place, and
where the system does not allow enough open files `maxclients` has been lowered to what it does
allow. -/
def Opt.Spills (os : Os) (s : Server) (value : Sds) : Opt → Prop
  | maxmemorySamples =>
    sdsIsNum value ∧ vrAtoi value < 1 ∧ vrAtoi value ≠ s.maxmemorySamples
  | slowlogMaxLen =>
    sdsIsNum value ∧ vrAtoi value < 0 ∧ vrAtoi value ≠ s.slowlogMaxLen
  | maxmemoryPolicy =>
    32 ∉ value ∧ ∃ p : EvictPolicy, p.lru ∧ cstr value = p.name ∧ p ≠ s.maxmemoryPolicy
  | maxclients =>
    ∃ v, string2ll value = some v ∧ 1 ≤ v ∧
      os.openFiles (neededFiles (int32 v) s.threads) < neededFiles (int32 v) s.threads ∧
      ∃ k, clientsFor (os.openFiles (neededFiles (int32 v) s.threads)) s.threads = k ∧
        1 ≤ k ∧ k ≠ v ∧ k ≠ s.maxclients
  | _ => False

def Clean (c : VrConf) (r : VrConf × Bool) : Prop := r.2 = false → r.1.server = c.server

theorem Field.Commits.clean {f : Field α} (h : f.Commits P S) (v : Value) (c : VrConf) :
    Clean c (S v c) := by
  intro hr
  rcases h v c with h | ⟨x, -, h⟩ <;> rw [h] at hr ⊢
  cases hr

variable {c : VrConf}

theorem Field.write_clean_iff {f : Field α} {x : α} :
    Clean c (f.write x c, false) ↔ x = f.get c.server := by
  constructor
  · intro h
    have := congrArg f.get (h rfl)
    rwa [Field.write, f.get_put] at this
  · rintro rfl -
    exact f.put_get c.server

theorem setIntFrom_clean_iff {f : Field ℤ} :
    Clean c (setIntFrom least f (splitValue s) c) ↔
      ¬ (sdsIsNum s = true ∧ vrAtoi s < least ∧ vrAtoi s ≠ f.get c.server) := by
  by_cases hs : sdsIsNum s = true
  · rw [splitValue, if_neg (not_mem_space hs)]
    simp only [setIntFrom, hs, if_true, true_and]
    split_ifs with hlt
    · rw [Field.write_clean_iff]
      tauto
    · exact iff_of_true (fun h => by cases h) (by tauto)
  · refine iff_of_true (fun h => ?_) (by tauto)
    unfold splitValue
    split_ifs
    · rfl
    · simp only [setIntFrom, hs, Bool.false_eq_true, if_false]

theorem EvictPolicy.find_name (p : EvictPolicy) :
    EvictPolicy.all.find? (fun q => p.name == q.name) = some p := by
  cases p <;> decide

theorem confSetMaxmemoryPolicy_of_name {p : EvictPolicy} (hp : cstr s = p.name) (c : VrConf) :
    confSetMaxmemoryPolicy f (.string s) c = (f.write p c, !p.lru) := by
  simp only [confSetMaxmemoryPolicy, hp, EvictPolicy.find_name]

theorem confSetMaxmemoryPolicy_clean_iff :
    Clean c (confSetMaxmemoryPolicy f (splitValue s) c) ↔
      ¬ (32 ∉ s ∧ ∃ p : EvictPolicy, p.lru ∧ cstr s = p.name ∧ p ≠ f.get c.server) := by
  unfold splitValue
  split_ifs with hs
  · exact iff_of_true (fun _ => rfl) fun h => h.1 hs
  by_cases hp : ∃ p : EvictPolicy, cstr s = p.name
  · obtain ⟨p, hp⟩ := hp
    have hinj : ∀ q : EvictPolicy, cstr s = q.name → q = p := by
      intro q hq
      have hfind := q.find_name
      rw [← hq, hp, p.find_name] at hfind
      exact (Option.some.inj hfind).symm
    rw [confSetMaxmemoryPolicy_of_name hp]
    rcases hl : p.lru with _ | _
    · refine iff_of_true (fun h => by cases h) ?_
      rintro ⟨-, q, hq, hqs, -⟩
      rw [hinj q hqs, hl] at hq
      cases hq
    · rw [Bool.not_true, Field.write_clean_iff]
      constructor
      · rintro hget ⟨-, q, -, hqs, hne⟩
        exact hne ((hinj q hqs).trans hget)
      · intro h
        by_contra hne
        exact h ⟨hs, p, hl, hp, hne⟩
  · refine iff_of_true (fun _ => ?_) fun h => hp ⟨_, h.2.choose_spec.2.1⟩
    rcases confSetMaxmemoryPolicy_cases f (.string s) c with h | ⟨s', p, hv, hps, h⟩
    · rw [h]
    · obtain rfl := Value.string.inj hv
      exact absurd ⟨p, hps⟩ hp

variable {os : Os} {j : ℕ}

theorem apply_clean_iff {value : Sds} (hm : o.noModify = false) (ho : o ≠ .maxclients) :
    Clean c (o.set j (splitValue value) c) ↔ ¬ o.Spills os c.server value := by
  cases o <;> first
    | exact absurd hm (by decide)
    | exact absurd rfl ho
    | exact setIntFrom_clean_iff
    | exact confSetMaxmemoryPolicy_clean_iff
    | exact iff_of_true ((confSetMaxmemory_commits _).clean _ c) not_false
    | exact iff_of_true ((confSetLonglong_commits _).clean _ c) not_false
    | exact iff_of_true ((confSetPassword_commits _).clean _ c) not_false

variable {name value : Sds}

theorem configSetApply_clean_iff {c c' : VrConf} :
    (∀ msg, (configSetApply j name value o c').2 = .error msg →
      (configSetApply j name value o c').1.server = c.server) ↔
    ((o.set j (splitValue value) c').2 = false →
      (o.set j (splitValue value) c').1.server = c.server) := by
  unfold configSetApply
  rcases o.set j (splitValue value) c' with ⟨c'', _ | _⟩
  · simp
  · simp

variable {authenticated : ℕ} {admin : Option Sds}

theorem configSet_maxclients (ho : Opt.find name = some .maxclients)
    (hv : string2ll value = some v) (h1 : 1 ≤ v) :
    let r := adjustOpenFilesLimit os j (int32 v) c
    configSet os j admin authenticated name value c =
      if int32 (r.2 - c.server.threads * 2 - minReservedFds) ≠ v then
        (r.1, .error (ascii
          "The operating system is not able to handle the specified number of clients".toList))
      else (Field.maxclients.commit v r.1, .ok) := by
  obtain ⟨hs, hd⟩ := digits_of_string2ll hv h1
  simp only [configSet, configSetCheck, ho, hv, Opt.noModify, Bool.false_eq_true, if_false, if_true,
    if_neg (not_lt.mpr h1)]
  by_cases h2 : int32 ((adjustOpenFilesLimit os j (int32 v) c).2 - c.server.threads * 2 -
      minReservedFds) = v
  · have hlt : v < 2 ^ 31 := h2 ▸ int32_lt _
    simp only [h2, ne_eq, not_true_eq_false, if_false, configSetApply, splitValue,
      if_neg (not_mem_space hs), set_maxclients j hs hd h1 hlt, if_true]
  · simp only [ne_eq, h2, not_false_eq_true, if_true]

theorem adjustOpenFilesLimit_files {m : ℤ}
    (hk : 1 ≤ clientsFor (os.openFiles (neededFiles m c.server.threads)) c.server.threads) :
    int32 ((adjustOpenFilesLimit os j m c).2 - c.server.threads * 2 - minReservedFds) =
      clientsFor (os.openFiles (neededFiles m c.server.threads)) c.server.threads := by
  rw [adjustOpenFilesLimit_eq]
  dsimp only
  rw [if_neg (not_lt.mpr hk)]
  unfold clientsFor int32
  rw [Int.sub_sub, Int.sub_sub, Int.bmod_sub_bmod]

theorem configSet_maxclients_clean_iff (ho : Opt.find name = some .maxclients) :
    (∀ msg, (configSet os j admin authenticated name value c).2 = .error msg →
      (configSet os j admin authenticated name value c).1.server = c.server) ↔
    ¬ Opt.maxclients.Spills os c.server value := by
  rcases hv : string2ll value with _ | v
  · refine iff_of_true (fun msg _ => ?_) ?_
    · simp only [configSet, configSetCheck, ho, hv, Opt.noModify, Bool.false_eq_true, if_false,
        if_true]
    · rintro ⟨v, hv', -⟩
      rw [hv] at hv'
      cases hv'
  by_cases h1 : 1 ≤ v
  case neg =>
    refine iff_of_true (fun msg _ => ?_) ?_
    · simp only [configSet, configSetCheck, ho, hv, Opt.noModify, Bool.false_eq_true, if_false,
        if_true, if_pos (not_le.mp h1)]
    · rintro ⟨v', hv', h1', -⟩
      cases hv.symm.trans hv'
      exact h1 h1'
  rw [configSet_maxclients ho hv h1]
  have hconf := adjustOpenFilesLimit_eq os j (int32 v) c
  by_cases hk : 1 ≤ clientsFor (os.openFiles (neededFiles (int32 v) c.server.threads))
      c.server.threads ∧ os.openFiles (neededFiles (int32 v) c.server.threads) <
        neededFiles (int32 v) c.server.threads
  · -- the limit is too small and `maxclients` is lowered
    dsimp only at hconf ⊢
    rw [adjustOpenFilesLimit_files hk.1]
    by_cases hkv : clientsFor (os.openFiles (neededFiles (int32 v) c.server.threads))
        c.server.threads = v
    · refine iff_of_true (fun msg hmsg => ?_) ?_
      · simp only [hkv, ne_eq, not_true_eq_false, if_false] at hmsg
        cases hmsg
      · rintro ⟨v', hv', -, -, k, rfl, -, hne, -⟩
        cases hv.symm.trans hv'
        exact hne hkv
    · rw [if_pos hkv, hconf, if_pos hk]
      constructor
      · rintro hsame ⟨v', hv', -, -, k, rfl, -, -, hne⟩
        cases hv.symm.trans hv'
        exact hne (congrArg Server.maxclients (hsame _ rfl))
      · intro hsp msg _
        by_contra hne
        refine hsp ⟨v, hv, h1, hk.2, _, rfl, hk.1, hkv, fun heq => hne ?_⟩
        simp only [Field.commit, heq]
        rfl
  · -- nothing was changed on the way
    refine iff_of_true (fun msg hmsg => ?_) ?_
    · simp only [hconf, if_neg hk] at hmsg ⊢
      split_ifs at hmsg ⊢ <;> rfl
    · rintro ⟨v', hv', -, hlt, k, rfl, hk', -⟩
      cases hv.symm.trans hv'
      exact hk ⟨hk', hlt⟩

/-- CONFIG SET is all-or-nothing, but for the values that spill. -/
theorem configSet_unchanged_iff (os : Os) (j : ℕ) (admin : Option Sds) (authenticated : ℕ)
    (name value : Sds) (c : VrConf) :
    (∀ msg, (configSet os j admin authenticated name value c).2 = .error msg →
      (configSet os j admin authenticated name value c).1.server = c.server) ↔
    ∀ o, Opt.find name = some o → ¬ o.Spills os c.server value := by
  rcases ho : Opt.find name with _ | o
  · refine iff_of_true (fun msg _ => ?_) (by simp)
    simp only [configSet, configSetCheck, ho]
  simp only [Option.some.injEq, forall_eq']
  rcases hm : o.noModify with _ | _
  case true =>
    refine iff_of_true (fun msg _ => ?_) ?_
    · simp only [configSet, configSetCheck, ho, hm, if_true]
    · cases o <;> first | exact not_false | exact absurd hm (by decide)
  by_cases hmax : o = .maxclients
  · subst hmax
    exact configSet_maxclients_clean_iff ho
  by_cases hbar : o = .adminpass ∧ barred admin authenticated = true
  · obtain ⟨rfl, hbar⟩ := hbar
    refine iff_of_true (fun msg _ => ?_) not_false
    simp only [configSet, configSetCheck, ho, hm, hmax, hbar, Bool.false_eq_true,
      if_false, and_self, if_true]
  · rw [← apply_clean_iff hm hmax]
    simp only [configSet, configSetCheck, ho, hm, hbar, Bool.false_eq_true, if_false, hmax]
    exact configSetApply_clean_iff

/-- `CONFIG SET maxmemory-samples 0` is refused, and the samples are 0 afterwards. -/
theorem configSet_samples_spilled :
    (configSet ⟨some 1024, fun _ => true⟩ 0 none 0 (Opt.name .maxmemorySamples) (ascii ['0'])
      ⟨.default 4, 0⟩).2 = .error (badfmt (Opt.name .maxmemorySamples) (ascii ['0'])) ∧
    (configSet ⟨some 1024, fun _ => true⟩ 0 none 0 (Opt.name .maxmemorySamples) (ascii ['0'])
      ⟨.default 4, 0⟩).1.server.maxmemorySamples = 0 ∧ (Server.default 4).maxmemorySamples = 5 :=
  ⟨rfl, rfl, rfl⟩

/-- What the check of CONFIG SET can do: it refuses, or lets an option other than `maxclients`
through, and for `maxclients` it has called `adjustOpenFilesLimit` with a number of at least 1. -/
theorem configSetCheck_cases (os : Os) (j : ℕ) (admin : Option Sds) (authenticated : ℕ)
    (name value : Sds) (c : VrConf) :
    (∃ e, configSetCheck os j admin authenticated name value c = (c, .error e)) ∨
    (∃ o, o ≠ .maxclients ∧ ¬ (o = .adminpass ∧ barred admin authenticated = true) ∧
      configSetCheck os j admin authenticated name value c = (c, .ok o)) ∨
    ∃ v, string2ll value = some v ∧ 1 ≤ v ∧
      ((∃ e, configSetCheck os j admin authenticated name value c =
        ((adjustOpenFilesLimit os j (int32 v) c).1, .error e)) ∨
      v < 2 ^ 31 ∧ configSetCheck os j admin authenticated name value c =
        ((adjustOpenFilesLimit os j (int32 v) c).1, .ok .maxclients)) := by
  rcases ho : Opt.find name with _ | o
  · exact .inl ⟨_, by simp only [configSetCheck, ho]; rfl⟩
  rcases hm : o.noModify with _ | _
  case true => exact .inl ⟨_, by simp only [configSetCheck, ho, hm, if_true]; rfl⟩
  by_cases hmax : o = .maxclients
  · subst hmax
    rcases hv : string2ll value with _ | v
    · exact .inl ⟨_, by
        simp only [configSetCheck, ho, hm, hv, Bool.false_eq_true, if_false, if_true]; rfl⟩
    by_cases h1 : 1 ≤ v
    case neg =>
      exact .inl ⟨_, by
        simp only [configSetCheck, ho, hm, hv, Bool.false_eq_true, if_false, if_true,
          if_pos (not_le.mp h1)]; rfl⟩
    refine .inr (.inr ⟨v, rfl, h1, ?_⟩)
    simp only [configSetCheck, ho, hm, hv, Bool.false_eq_true, if_false, if_true,
      if_neg (not_lt.mpr h1)]
    split_ifs with h2
    · exact .inl ⟨_, rfl⟩
    · exact .inr ⟨not_not.mp h2 ▸ int32_lt _, rfl⟩
  by_cases hbar : o = .adminpass ∧ barred admin authenticated = true
  · exact .inl ⟨_, by
      simp only [configSetCheck, ho, hm, Bool.false_eq_true, if_false, if_neg hmax,
        if_pos hbar]; rfl⟩
  · exact .inr (.inl ⟨o, hmax, hbar, by
      simp only [configSetCheck, ho, hm, Bool.false_eq_true, if_false, if_neg hmax, if_neg hbar]⟩)

theorem adjustOpenFilesLimit_only (os : Os) (j : ℕ) (m : ℤ) (c : VrConf) (ho : o ≠ .maxclients) :
    o.get (adjustOpenFilesLimit os j m c).1.server = o.get c.server := by
  simp only [adjustOpenFilesLimit]
  split_ifs
  · rfl
  · exact Opt.set_only j .maxclients _ c o ho
  · rfl

theorem configSet_adminpass
    (h : barred admin authenticated = true) (name value : Sds) (c : VrConf) :
    (configSet os j admin authenticated name value c).1.server.adminpass = c.server.adminpass := by
  have hadj := fun v => adjustOpenFilesLimit_only os j (int32 v) c
    (by decide : Opt.adminpass ≠ .maxclients)
  unfold configSet
  rcases configSetCheck_cases os j admin authenticated name value c with
    ⟨e, hc⟩ | ⟨o, -, hbar, hc⟩ | ⟨v, -, -, ⟨e, hc⟩ | ⟨-, hc⟩⟩ <;> rw [hc]
  · have ho : Opt.adminpass ≠ o := by
      rintro rfl
      exact hbar ⟨rfl, h⟩
    exact FieldVal.sds.inj (Opt.set_only j o _ c _ ho)
  · exact FieldVal.sds.inj (hadj v)
  · exact FieldVal.sds.inj ((Opt.set_only j .maxclients _ _ _ (by decide)).trans (hadj v))

theorem addReplyConfOption_congr {s s' : Server} (h : o.get s = o.get s') :
    addReplyConfOption s o = addReplyConfOption s' o := by
  unfold addReplyConfOption
  rw [h]

theorem configGet_congr {admin admin' : Option Sds} {s s' : Server}
    (h : barred admin authenticated = true) (h' : barred admin' authenticated = true)
    (hs : ∀ o : Opt, o ≠ .adminpass → o.get s = o.get s') (pattern : Sds) :
    configGet admin authenticated pattern s = configGet admin' authenticated pattern s' := by
  unfold configGet
  simp only [h, h', Bool.and_true]
  split
  · split_ifs with ho
    · rfl
    · rw [addReplyConfOption_congr (hs _ (by simpa using ho))]
  · congr 1
    refine flatMap_congr fun o ho => addReplyConfOption_congr (hs o ?_)
    simp only [mem_filter, Bool.and_eq_true, Bool.not_eq_true', decide_eq_false_iff_not] at ho
    exact ho.2.2

/-- The admin password does not leak: with a cached admin password, a client below the level of an
administrator gets the same bytes from CONFIG GET whatever the configured one is, and cannot
change it with CONFIG SET. -/
theorem adminpass_hidden (os : Os) (j : ℕ) (s : Server) (p₁ p₂ q₁ q₂ : Sds) {authenticated : ℕ}
    (hauth : authenticated < 2) :
    (∀ pattern, (configGet (some q₁) authenticated pattern { s with adminpass := some p₁ }).bytes =
      (configGet (some q₂) authenticated pattern { s with adminpass := some p₂ }).bytes) ∧
    ∀ name value c, (configSet os j (some q₁) authenticated name value c).1.server.adminpass =
      c.server.adminpass := by
  have hbar : ∀ q : Sds, barred (some q) authenticated = true := by simp [barred, hauth]
  refine ⟨fun pattern => ?_, configSet_adminpass (hbar q₁)⟩
  rw [configGet_congr (hbar q₁) (hbar q₂) fun o ho => ?_]
  cases o <;> first | rfl | exact absurd rfl ho

theorem adminpass_hidden_star :
    (configGet (some [115]) 1 [42] { Server.default 4 with adminpass := some [115] }).bytes =
      (configGet (some [115]) 1 [42] { Server.default 4 with adminpass := some [116] }).bytes :=
  (adminpass_hidden ⟨none, fun _ => true⟩ 0 (.default 4) [115] [116] [115] [115] (by decide)).1 [42]

end Vire.Conf
