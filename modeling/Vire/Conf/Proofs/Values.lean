import Vire.Conf.Proofs.Set
import Vire.Conf.Proofs.Load

/-!
# Values that read back

The setters keep each option in a range, `Opt.Admits`.  What CONFIG REWRITE prints for a value in
the range, `Opt.printed`, the setter of the option reads back; for passwords and lists only if they
are `Writable`.
-/

namespace Vire.Conf

open List Option

def Opt.least : Opt → ℤ
  | port | threads | slowlogMaxLen => 0
  | _ => 1

def Opt.Admits (o : Opt) : FieldVal → Prop
  | .int v => o.least ≤ v ∧ v < 2 ^ 31
  | .policy p => p.lru = false
  | .longlong v => (if o = .maxmemory then 0 else llongMin) ≤ v ∧ v ≤ llongMax
  | .sds s => ∀ p ∈ s, p ≠ [] ∧ p.length ≤ authpassMaxLen
  | .arraysds l => o = .bind → l ≠ []

def Server.Sane (s : Server) : Prop := ∀ o : Opt, o.Admits (o.get s)

theorem Server.sane_default (cpus : ℕ) : (Server.default cpus).Sane := by
  intro o
  cases o
  case threads =>
    simp only [Opt.Admits, Opt.get, Server.default, Opt.least]
    split_ifs <;> omega
  all_goals simp [Opt.Admits, Opt.get, Server.default, Opt.least, EvictPolicy.lru] <;> decide

variable {v : Value} {c : VrConf} {f : Field ℤ}

theorem setIntFrom_mem {least : ℤ} (h : (setIntFrom least f v c).2 = true) :
    least ≤ f.get (setIntFrom least f v c).1.server ∧
      f.get (setIntFrom least f v c).1.server < 2 ^ 31 := by
  rcases setIntFrom_cases least f v c with hc | ⟨s, -, -, -, hc⟩ | ⟨x, hx, hc⟩ <;> rw [hc] at h ⊢
  · cases h
  · cases h
  · rwa [Field.commit, f.get_put]

theorem confSetMaxmemoryPolicy_mem {f : Field EvictPolicy}
    (h : (confSetMaxmemoryPolicy f v c).2 = true) :
    (f.get (confSetMaxmemoryPolicy f v c).1.server).lru = false := by
  rcases confSetMaxmemoryPolicy_cases f v c with hc | ⟨s, p, -, -, hc⟩ <;> rw [hc] at h ⊢
  · cases h
  · simpa [Field.write, f.get_put] using h

variable {j : ℕ} {o : Opt}

theorem Opt.admits_set (h : (o.set j v c).2 = true) :
    o.Admits (o.get (o.set j v c).1.server) := by
  cases o
  case databases | internalDbsPerDatabases | maxmemorySamples | port | threads | maxclients |
      slowlogMaxLen => exact setIntFrom_mem h
  case maxmemory => exact (confSetMaxmemory_commits _).mem h
  case maxmemoryPolicy => exact confSetMaxmemoryPolicy_mem h
  case maxTimeComplexityLimit | slowlogLogSlowerThan => exact (confSetLonglong_commits _).mem h
  case bind => exact fun _ => (confSetArraySds_commits j _).mem h
  case commandsNeedAdminpass => exact fun h => by cases h
  case requirepass | adminpass => exact (confSetPassword_commits _).mem h

theorem Server.Sane.set (hs : c.server.Sane)
    (h : (o.set j v c).2 = true) : (o.set j v c).1.server.Sane := by
  intro o'
  by_cases ho : o' = o
  · subst ho
    exact Opt.admits_set h
  · rw [Opt.set_only j o v c o' ho]
    exact hs o'

theorem Server.Sane.parse {org : Org} {c c' : VrConf} (hs : c.server.Sane)
    (h : confParseOption j org c o = some c') : c'.server.Sane := by
  unfold confParseOption at h
  split at h
  · cases h
    exact hs
  · dsimp only at h
    split_ifs at h with hset
    cases h
    exact hs.set hset

variable {s : Server}

theorem sane_of_confCreate {j cpus : ℕ} {file : Sds}
    (h : confCreate j cpus file = some s) : s.Sane := by
  have hparse : ∀ (org : Org) (os : List Opt) (c c' : VrConf), c.server.Sane →
      os.foldlM (confParseOption j org) c = some c' → c'.server.Sane := by
    intro org os
    induction os with
    | nil =>
      rintro c c' hc ⟨⟩
      exact hc
    | cons o os ih =>
      intro c c' hc h
      obtain ⟨c1, h1, h2⟩ := bind_eq_some_iff.mp h
      exact ih c1 c' (hc.parse h1) h2
  obtain ⟨p, -, h⟩ := bind_eq_some_iff.mp h
  obtain ⟨org, -, h⟩ := bind_eq_some_iff.mp h
  obtain ⟨c, hc, rfl⟩ := map_eq_some_iff.mp h
  exact hparse org Opt.all _ c (Server.sane_default cpus) hc

theorem Server.Sane.configSet {os : Os} {admin : Option Sds} {authenticated : ℕ}
    {name value : Sds} (hs : c.server.Sane)
    (h : (configSet os j admin authenticated name value c).2 = .ok) :
    (configSet os j admin authenticated name value c).1.server.Sane := by
  have happly : ∀ (o : Opt) (c : VrConf), c.server.Sane →
    (configSetApply j name value o c).2 = .ok →
      (configSetApply j name value o c).1.server.Sane := by
    intro o c hc h
    unfold configSetApply at h ⊢
    dsimp only at h ⊢
    split_ifs at h with hset
    exact hc.set hset
  have hadjust : ∀ m, (adjustOpenFilesLimit os j m c).1.server.Sane := by
    intro m
    simp only [adjustOpenFilesLimit]
    split_ifs with h1 h2
    · exact hs
    · refine hs.set ?_
      rw [set_maxclients_ll2string j (not_lt.mp h1) (clientsFor_lt _ _)]
    · exact hs
  unfold Conf.configSet at h ⊢
  rcases configSetCheck_cases os j admin authenticated name value c with
    ⟨e, hc⟩ | ⟨o, -, -, hc⟩ | ⟨v, -, -, ⟨e, hc⟩ | ⟨-, hc⟩⟩ <;> rw [hc] at h ⊢
  · cases h
  · exact happly o c hs h
  · cases h
  · exact happly _ _ (hadjust _) h

def Opt.printed (s : Server) (o : Opt) : List Sds :=
  match o.get s with
  | .int v => [ll2string v]
  | .policy p => [p.name]
  | .longlong v => [if o = .maxmemory then RewriteState.formatMemory v else ll2string v]
  | .sds p => [p.getD []]
  | .arraysds l => l.reverse

/-- A value that does not change when it is printed and read again: a password without blanks and
quotes, a list of such words that is the same from its end.  With `j` for the index that is never
set, a list of several words is read only if it has that index. -/
def FieldVal.Writable (j : ℕ) : FieldVal → Prop
  | .sds (some p) => Plain p
  | .arraysds l => (∀ t ∈ l, Plain t) ∧ l.reverse = l ∧ (1 < l.length → j < l.length)
  | _ => True

instance (j : ℕ) : (v : FieldVal) → Decidable (v.Writable j)
  | .sds (some p) => inferInstanceAs (Decidable (Plain p))
  | .arraysds _ => inferInstanceAs (Decidable (_ ∧ _ ∧ _))
  | .int _ | .policy _ | .longlong _ | .sds none => isTrue trivial

theorem takeWhile_digits {ds u : Sds} (hd : ∀ b ∈ ds, isdigit b = true)
    (hu : ∀ b ∈ u, isdigit b = false) :
    (ds ++ u).takeWhile isdigit = ds ∧ (ds ++ u).dropWhile isdigit = u := by
  rw [takeWhile_append_of_pos hd, dropWhile_append_of_pos hd]
  rcases u with _ | ⟨b, u⟩
  · simp
  · have hb := hu b mem_cons_self
    rw [takeWhile_cons_of_neg (by simp [hb]), dropWhile_cons_of_neg (by simp [hb])]
    simp

def sign (neg : Bool) : Sds := if neg then [45] else []

theorem sign_append (s : Sds) :
    s = sign (s.head? == some 45) ++ if s.head? == some 45 then s.tail else s := by
  rcases s with _ | ⟨b, s⟩
  · rfl
  · rcases hb : b == 45 with _ | _
    · simp [sign, hb]
    · obtain rfl := beq_iff_eq.mp hb
      rfl

theorem head_digits {ds : Sds} (hd : ∀ b ∈ ds, isdigit b = true) : ds.head? ≠ some 45 := by
  intro h
  exact absurd (hd 45 (mem_of_mem_head? h)) (by decide)

theorem amountParts_append {neg : Bool} {ds u : Sds} (hd : ∀ b ∈ ds, isdigit b = true)
    (hu : ∀ b ∈ u, b ≠ 0 ∧ b ≠ 45 ∧ isdigit b = false) :
    0 ∉ sign neg ++ ds ++ u ∧ amountParts (sign neg ++ ds ++ u) = (neg, ds, u) := by
  have h0 : 0 ∉ sign neg ++ ds ++ u := by
    simp only [mem_append, not_or]
    refine ⟨⟨by cases neg <;> decide, fun h => ?_⟩, fun h => (hu 0 h).1 rfl⟩
    exact absurd (hd 0 h) (by decide)
  refine ⟨h0, ?_⟩
  obtain ⟨htake, hdrop⟩ := takeWhile_digits hd fun b hb => (hu b hb).2.2
  rw [amountParts, cstr_eq_self h0]
  rcases neg with _ | _
  · have hhead : ((sign false ++ ds ++ u).head? == some 45) = false := by
      rw [beq_eq_false_iff_ne, sign, if_neg Bool.false_ne_true, nil_append, head?_append]
      intro h
      rcases or_eq_some_iff.mp h with h | ⟨-, h⟩
      · exact head_digits hd h
      · exact (hu 45 (mem_of_mem_head? h)).2.1 rfl
    simp only [hhead]
    simp only [sign, if_neg Bool.false_ne_true, nil_append, htake, hdrop]
  · simp only [sign, if_true, cons_append, nil_append, head?_cons, tail_cons,
      beq_self_eq_true, htake, hdrop]

theorem memtoll_decimal {n : ℕ} {u : Sds} {mul : ℤ}
    (hu : ∀ b ∈ u, b ≠ 0 ∧ b ≠ 45 ∧ isdigit b = false) (hmul : memUnit u = some mul) (h1 : 1 ≤ mul)
    (hn : n * mul ≤ llongMax) : memtoll (decimal n ++ u) = some (n * mul) := by
  have hparts : amountParts (decimal n ++ u) = (false, decimal n, u) :=
    (@amountParts_append false _ _ (isdigit_decimal n) hu).2
  have hle : (n : ℤ) ≤ llongMax := (le_mul_of_one_le_right (Int.natCast_nonneg n) h1).trans hn
  have hlen : (decimal n).length < 128 := by
    have : n < 10 ^ (18 + 1) := by unfold llongMax at hle; omega
    have := length_decimal_le this
    omega
  have hmin : llongMin ≤ 0 := by decide
  rw [memtoll_eq, hparts, hmul, bind_some, if_neg (by simp; omega), signed10,
    if_neg Bool.false_ne_true, digitsVal_decimal, min_eq_right hle,
    max_eq_right (hmin.trans (Int.natCast_nonneg n)),
    wrap_eq_self_iff.mpr ⟨hmin.trans (by positivity), hn⟩]

theorem memtoll_formatMemory {v : ℤ} (h0 : 0 ≤ v) (h : v ≤ llongMax) :
    memtoll (RewriteState.formatMemory v) = some v := by
  -- the amount is a multiple of the unit that is printed
  have hunit : ∀ (q mul : ℤ) (u : Sds), (∀ b ∈ u, b ≠ 0 ∧ b ≠ 45 ∧ isdigit b = false) →
      memUnit u = some mul → 1 ≤ mul → 0 ≤ q → q * mul = v →
      memtoll (ll2string q ++ u) = some v := by
    intro q mul u hu hmul h1 hq hv
    obtain ⟨n, rfl⟩ := Int.eq_ofNat_of_zero_le hq
    rw [ll2string, if_neg (by omega), Int.natAbs_natCast,
      memtoll_decimal hu hmul h1 (hv.le.trans h), hv]
  have hdiv : ∀ mul : ℤ, 0 < mul → v.tmod mul = 0 → 0 ≤ v.tdiv mul ∧ v.tdiv mul * mul = v := by
    intro mul hpos hmod
    exact ⟨Int.tdiv_nonneg h0 hpos.le, Int.tdiv_mul_cancel_of_tmod_eq_zero hmod⟩
  unfold RewriteState.formatMemory
  split_ifs with hg hm hk
  · obtain ⟨hq, hv⟩ := hdiv _ (by norm_num) hg.2
    exact hunit _ _ _ (by simp [ascii, isdigit]) rfl (by norm_num) hq hv
  · obtain ⟨hq, hv⟩ := hdiv _ (by norm_num) hm.2
    exact hunit _ _ _ (by simp [ascii, isdigit]) rfl (by norm_num) hq hv
  · obtain ⟨hq, hv⟩ := hdiv _ (by norm_num) hk.2
    exact hunit _ _ _ (by simp [ascii, isdigit]) rfl (by norm_num) hq hv
  · simpa using hunit v 1 [] (by simp) rfl le_rfl h0 (mul_one v)

theorem Opt.least_nonneg (o : Opt) : 0 ≤ o.least := by cases o <;> decide

theorem confSetLonglong_ll2string {v : ℤ} (hmin : llongMin ≤ v) (hmax : v ≤ llongMax)
    (c : VrConf) : confSetLonglong f (.string (ll2string v)) c = (f.commit v c, true) := by
  simp only [confSetLonglong, string2ll_ll2string hmin hmax]

theorem confSetMaxmemory_formatMemory {v : ℤ} (h0 : 0 ≤ v) (hmax : v ≤ llongMax) (c : VrConf) :
    confSetMaxmemory f (.string (RewriteState.formatMemory v)) c = (f.commit v c, true) := by
  simp only [confSetMaxmemory, memtoll_formatMemory h0 hmax, if_neg (not_lt.mpr h0)]

theorem EvictPolicy.cstr_name (p : EvictPolicy) : cstr p.name = p.name := by cases p <;> decide

theorem confSetPassword_printed {f : Field (Option Sds)} {p : Option Sds}
    (h : ∀ s ∈ p, s ≠ [] ∧ s.length ≤ authpassMaxLen) (c : VrConf) :
    confSetPassword f (.string (p.getD [])) c = (f.commit p c, true) := by
  rcases p with _ | s
  · rfl
  · obtain ⟨hne, hlen⟩ := h s rfl
    simp only [confSetPassword, getD_some, if_neg (not_lt.mpr hlen), if_neg hne]

theorem confSetArraySds_printed {f : Field (List Sds)} {l : List Sds}
    (hj : 1 < l.length → j < l.length) (hv : Value.ofArgs l = some v) (c : VrConf) :
    confSetArraySds j f v c = (f.commit l c, true) := by
  rcases l with _ | ⟨a, _ | ⟨b, l⟩⟩
  · cases hv
  · obtain rfl := some.inj hv
    rfl
  · obtain rfl := some.inj hv
    exact if_pos (hj (by simp))

theorem Opt.set_printed (ha : o.Admits (o.get s))
    (hw : (o.get s).Writable j) (hv : Value.ofArgs (o.printed s) = some v) (c : VrConf) :
    ∃ c', o.set j v c = (c', true) ∧ o.get c'.server = o.get s := by
  cases o
  case databases | internalDbsPerDatabases | maxmemorySamples | port | threads | maxclients |
      slowlogMaxLen =>
    obtain rfl := some.inj hv
    exact ⟨_, setIntFrom_ll2string (Opt.least_nonneg _) ha.1 ha.2 c, rfl⟩
  case maxTimeComplexityLimit | slowlogLogSlowerThan =>
    obtain rfl := some.inj hv
    exact ⟨_, confSetLonglong_ll2string ha.1 ha.2 c, rfl⟩
  case maxmemory =>
    obtain rfl := some.inj hv
    exact ⟨_, confSetMaxmemory_formatMemory ha.1 ha.2 c, rfl⟩
  case maxmemoryPolicy =>
    obtain rfl := some.inj hv
    have hlru : s.maxmemoryPolicy.lru = false := ha
    have hset := confSetMaxmemoryPolicy_of_name (f := .maxmemoryPolicy)
      (EvictPolicy.cstr_name s.maxmemoryPolicy) c
    rw [hlru] at hset
    exact ⟨_, hset, rfl⟩
  case requirepass | adminpass =>
    obtain rfl := some.inj hv
    exact ⟨_, confSetPassword_printed ha c, rfl⟩
  case bind | commandsNeedAdminpass =>
    obtain ⟨-, hrev, hj⟩ := hw
    exact ⟨_, confSetArraySds_printed hj ((congrArg Value.ofArgs hrev).symm.trans hv) c, rfl⟩

theorem Server.ext_get {s t : Server} (h : ∀ o : Opt, o.get s = o.get t) : s = t := by
  rw [Server.mk.injEq]
  exact ⟨FieldVal.int.inj (h .databases), FieldVal.int.inj (h .internalDbsPerDatabases),
    FieldVal.longlong.inj (h .maxTimeComplexityLimit), FieldVal.longlong.inj (h .maxmemory),
    FieldVal.policy.inj (h .maxmemoryPolicy), FieldVal.int.inj (h .maxmemorySamples),
    FieldVal.int.inj (h .maxclients), FieldVal.int.inj (h .threads),
      FieldVal.arraysds.inj (h .bind),
    FieldVal.int.inj (h .port), FieldVal.longlong.inj (h .slowlogLogSlowerThan),
    FieldVal.int.inj (h .slowlogMaxLen), FieldVal.sds.inj (h .requirepass),
    FieldVal.sds.inj (h .adminpass), FieldVal.arraysds.inj (h .commandsNeedAdminpass)⟩

theorem Opt.mem_all (o : Opt) : o ∈ Opt.all := by cases o <;> decide

theorem Opt.get_of_printed_nil (ha : o.Admits (o.get s))
    (h : o.printed s = []) (cpus : ℤ) : o.get s = o.get (.default cpus) := by
  cases o
  case bind => exact absurd (reverse_eq_nil_iff.mp h) (ha rfl)
  case commandsNeedAdminpass => exact congrArg FieldVal.arraysds (reverse_eq_nil_iff.mp h)
  all_goals cases h

theorem confParseConfServer_printed {cpus : ℤ} {org : Org}
    {f : Sds → List Sds} (hm : org.Means f) (hs : s.Sane) (hw : ∀ o : Opt, (o.get s).Writable j)
    (hf : ∀ o : Opt, f o.name = o.printed s ∨ f o.name = [] ∧ o.get s = o.get (.default cpus))
    (n : ℕ) : ∃ c, confParseConfServer j org ⟨.default cpus, n⟩ = some c ∧ c.server = s := by
  -- the options that are left still have their defaults, the others are as in `s`
  have hloop : ∀ (os : List Opt), os.Nodup → ∀ c : VrConf,
      (∀ o ∈ os, o.get c.server = o.get (.default cpus)) →
      (∀ o ∉ os, o.get c.server = o.get s) →
      ∃ c', os.foldlM (confParseOption j org) c = some c' ∧ ∀ o :
        Opt, o.get c'.server = o.get s := by
    intro os
    induction os with
    | nil => exact fun _ c _ hdone => ⟨c, rfl, fun o => hdone o not_mem_nil⟩
    | cons o os ih =>
      intro hnd c hleft hdone
      obtain ⟨hno, hnd⟩ := nodup_cons.mp hnd
      have hstep : ∃ c', confParseOption j org c o = some c' ∧ o.get c'.server = o.get s ∧
          ∀ o' ≠ o, o'.get c'.server = o'.get c.server := by
        unfold confParseOption
        rw [hm o.name]
        rcases hv : Value.ofArgs (f o.name) with _ | v
        · have hnil : f o.name = [] := Value.ofArgs_eq_none.mp hv
          refine ⟨c, rfl, (hleft o mem_cons_self).trans ?_, fun _ _ => rfl⟩
          rcases hf o with h | ⟨-, h⟩
          · exact (Opt.get_of_printed_nil (hs o) (h.symm.trans hnil) cpus).symm
          · exact h.symm
        · have hp : f o.name = o.printed s := by
            rcases hf o with h | ⟨h, -⟩
            · exact h
            · rw [h] at hv
              cases hv
          obtain ⟨c', hset, hget⟩ := Opt.set_printed (hs o) (hw o) (hp ▸ hv) c
          refine ⟨c', by simp only [hset, if_true], hget, fun o' ho' => ?_⟩
          have := Opt.set_only j o v c o' ho'
          rwa [hset] at this
      obtain ⟨c1, h1, hget, hother⟩ := hstep
      have hne : ∀ o' ∈ os, o' ≠ o := by
        rintro o' ho' rfl
        exact hno ho'
      obtain ⟨c2, h2, hall⟩ := ih hnd c1
        (fun o' ho' => (hother o' (hne o' ho')).trans (hleft o' (mem_cons_of_mem _ ho')))
        fun o' ho' => by
          by_cases h : o' = o
          · exact h ▸ hget
          · exact (hother o' h).trans (hdone o' (by simp [h, ho']))
      exact ⟨c2, by rw [foldlM_cons, h1]; exact h2, hall⟩
  obtain ⟨c, hc, hall⟩ := hloop Opt.all (by decide) ⟨.default cpus, n⟩ (fun _ _ => rfl)
    fun o ho => absurd o.mem_all ho
  exact ⟨c, hc, Server.ext_get hall⟩

end Vire.Conf
