import Vire.Conf.Proofs.Values

/-!
# Numbers in the configuration

The setters of the `long long` options and of `maxclients` store a number as it was written.  An
`int` option keeps it only modulo 2^32, and an amount of memory may stop at the limits of `strtoll`,
wrap around when it is multiplied by its unit, have no digits, or go on behind a zero byte.
-/

namespace Vire.Conf

open List Option

def numeralVal (s : Sds) : Option ℤ :=
  let neg := s.head? == some 45
  let ds := if neg then s.tail else s
  if sdsIsNum ds then some (signed10 neg ds) else none

def units : List (List Char × ℤ) :=
  [([], 1), (['b'], 1), (['k'], 1000), (['k', 'b'], 1024), (['m'], 1000 * 1000),
    (['m', 'b'], 1024 * 1024), (['g'], 1000 * 1000 * 1000), (['g', 'b'], 1024 * 1024 * 1024)]

def unitVal (u : Sds) : Option ℤ :=
  (units.find? fun e => u.map tolower == ascii e.1).map Prod.snd

/-- The integer that `value` stands for as a value of the option. -/
def Opt.Denotes (o : Opt) (value : Sds) (v : ℤ) : Prop :=
  if o = .maxmemory then
    ∃ n u k mul, value = n ++ u ∧ numeralVal n = some k ∧ unitVal u = some mul ∧ v = k * mul
  else numeralVal value = some v

def FieldVal.number : FieldVal → Option ℤ
  | .int v | .longlong v => some v
  | _ => none

variable {u : Sds}

theorem unitVal_letters {mul : ℤ} (h : unitVal u = some mul) :
    ∀ b ∈ u, b ≠ 0 ∧ b ≠ 45 ∧ isdigit b = false := by
  obtain ⟨e, he, -⟩ := map_eq_some_iff.mp h
  have heq : u.map tolower = ascii e.1 := by simpa using find?_some he
  have hmem : e ∈ units := mem_of_find?_eq_some he
  intro b hb
  have hlow : tolower b ∈ ascii e.1 := heq ▸ mem_map_of_mem hb
  have hall : ∀ e ∈ units, ∀ c ∈ ascii e.1, c ∈ ([98, 103, 107, 109] : Sds) := by
    decide +kernel
  have hc := hall e hmem _ hlow
  have h65 : 65 ≤ b := by
    by_contra hlt
    rw [tolower, if_neg fun h => hlt h.1] at hc
    simp only [mem_cons, not_mem_nil, or_false] at hc
    rcases hc with rfl | rfl | rfl | rfl <;> exact hlt (by decide)
  refine ⟨?_, ?_, ?_⟩
  · rintro rfl
    exact absurd h65 (by decide)
  · rintro rfl
    exact absurd h65 (by decide)
  · simp only [isdigit, Bool.and_eq_false_iff, decide_eq_false_iff_not, UInt8.le_iff_toNat_le]
    exact .inr fun h => absurd (h65.trans h) (by decide)

theorem memUnit_eq (hu : 0 ∉ u) : memUnit u = unitVal u := by
  have hcase : ∀ l : List Char, strcaseEq u l = (u.map tolower == ascii l) := by
    intro l
    rw [strcaseEq, cstr_eq_self hu]
  have hnil : (u.map tolower == ascii []) = decide (u = []) := by
    rcases u with _ | ⟨b, u⟩ <;> simp [ascii]
  simp only [memUnit, hcase, unitVal, units, find?_cons, find?_nil, hnil]
  -- both sides go through the same tests in the same order
  generalize decide (u = []) = t0, (u.map tolower == ascii ['b']) = t1,
    (u.map tolower == ascii ['k']) = t2, (u.map tolower == ascii ['k', 'b']) = t3,
    (u.map tolower == ascii ['m']) = t4, (u.map tolower == ascii ['m', 'b']) = t5,
    (u.map tolower == ascii ['g']) = t6, (u.map tolower == ascii ['g', 'b']) = t7
  cases t0 <;> cases t1 <;> try rfl
  cases t2 <;> cases t3 <;> cases t4 <;> cases t5 <;> cases t6 <;> cases t7 <;> rfl

theorem unitVal_pos {mul : ℤ} (h : unitVal u = some mul) : 1 ≤ mul := by
  obtain ⟨e, he, rfl⟩ := map_eq_some_iff.mp h
  exact (by decide : ∀ e ∈ units, 1 ≤ e.2) e (mem_of_find?_eq_some he)

variable {s : Sds}

theorem numeralVal_eq_some {n : Sds} {k : ℤ} : numeralVal n = some k ↔
    ∃ neg ds, n = sign neg ++ ds ∧ sdsIsNum ds = true ∧ k = signed10 neg ds := by
  constructor
  · intro h
    by_cases hnum : sdsIsNum (if n.head? == some 45 then n.tail else n) = true
    · rw [numeralVal, if_pos hnum] at h
      exact ⟨_, _, sign_append n, hnum, (some.inj h).symm⟩
    · rw [numeralVal, if_neg hnum] at h
      cases h
  · rintro ⟨neg, ds, rfl, hnum, rfl⟩
    rcases neg with _ | _
    · have hhead : ((sign false ++ ds).head? == some 45) = false :=
        beq_eq_false_iff_ne.mpr (head_digits (sdsIsNum_iff.mp hnum).2)
      simp only [numeralVal, hhead]
      exact if_pos hnum
    · exact if_pos hnum

theorem eq_of_amountParts (h0 : 0 ∉ s) :
    s = sign (amountParts s).1 ++ (amountParts s).2.1 ++ (amountParts s).2.2 := by
  simp only [amountParts, cstr_eq_self h0, append_assoc, takeWhile_append_dropWhile]
  exact sign_append s

/-- The values of an option that are stored exactly, if they are stored. -/
def Opt.Exact (value : Sds) : Opt → Prop
  | .maxmemorySamples =>
    sdsIsNum value = true → 1 ≤ int32 (digitsVal value) → digitsVal value < 2 ^ 31
  | .slowlogMaxLen =>
    sdsIsNum value = true → 0 ≤ int32 (digitsVal value) → digitsVal value < 2 ^ 31
  | .maxmemory =>
    32 ∉ value → ∀ v, memtoll value = some v → 0 ≤ v →
      0 ∉ value ∧ (amountParts value).2.1 ≠ [] ∧
        ∀ mul, unitVal (amountParts value).2.2 = some mul →
          0 ≤ signed10 (amountParts value).1 (amountParts value).2.1 ∧
          signed10 (amountParts value).1 (amountParts value).2.1 * mul ≤ llongMax
  | _ => True

theorem numeralVal_of_digits (hs : sdsIsNum s = true) : numeralVal s = some (digitsVal s : ℤ) :=
  numeralVal_eq_some.mpr ⟨false, s, rfl, hs, rfl⟩

variable {c : VrConf} {f : Field ℤ}

theorem setIntFrom_exact_iff {least : ℤ} (h0 : 0 ≤ least) :
    ((setIntFrom least f (splitValue s) c).2 = true →
      numeralVal s = some (f.get (setIntFrom least f (splitValue s) c).1.server)) ↔
    (sdsIsNum s = true → least ≤ int32 (digitsVal s) → digitsVal s < 2 ^ 31) := by
  by_cases hs : sdsIsNum s = true
  case neg =>
    refine iff_of_true (fun h => ?_) fun h => absurd h hs
    unfold splitValue at h
    split_ifs at h
    · cases h
    · simp only [setIntFrom, if_neg hs] at h
      cases h
  have hsplit : splitValue s = .string s := if_neg (not_mem_space hs)
  rw [hsplit, setIntFrom, if_pos hs, numeralVal_of_digits hs]
  by_cases hleast : least ≤ int32 (digitsVal s)
  · have hat : vrAtoi s = int32 (digitsVal s) := by rw [vrAtoi_eq hs, if_neg (by omega)]
    rw [hat, if_neg (by omega)]
    simp only [Field.commit, f.get_put, some.injEq, true_imp_iff, hs, hleast]
    constructor
    · intro heq
      have hlt := int32_lt (digitsVal s)
      rw [← heq] at hlt
      exact_mod_cast hlt
    · intro hlt
      rw [int32_of_lt (by omega) (by omega)]
  · have hat : vrAtoi s < least := by
      rw [vrAtoi_eq hs]
      split_ifs <;> omega
    rw [if_pos hat]
    exact iff_of_true (fun h => absurd h Bool.false_ne_true) fun _ h => absurd h hleast

theorem numeralVal_of_string2ll {v : ℤ} (h : string2ll s = some v) : numeralVal s = some v := by
  obtain ⟨rfl, -⟩ := ll2string_of_string2ll h
  rw [numeralVal_eq_some]
  unfold ll2string
  split_ifs with hneg
  · refine ⟨true, decimal v.natAbs, rfl, sdsIsNum_decimal _, ?_⟩
    rw [signed10, if_pos rfl, digitsVal_decimal]
    omega
  · refine ⟨false, decimal v.natAbs, rfl, sdsIsNum_decimal _, ?_⟩
    rw [signed10, if_neg Bool.false_ne_true, digitsVal_decimal]
    omega

theorem confSetLonglong_exact (h : (confSetLonglong f (splitValue s) c).2 = true) :
    numeralVal s = some (f.get (confSetLonglong f (splitValue s) c).1.server) := by
  unfold splitValue at h ⊢
  split_ifs at h ⊢ with hsp
  · cases h
  · rcases hv : string2ll s with _ | v
    · simp only [confSetLonglong, hv] at h
      cases h
    · simp only [confSetLonglong, hv, Field.commit, f.get_put]
      exact numeralVal_of_string2ll hv

theorem confSetMaxmemory_exact_iff :
    ((confSetMaxmemory f (splitValue s) c).2 = true →
      Opt.maxmemory.Denotes s (f.get (confSetMaxmemory f (splitValue s) c).1.server)) ↔
    Opt.maxmemory.Exact s := by
  unfold splitValue
  split_ifs with hsp
  · exact iff_of_true (fun h => absurd h Bool.false_ne_true) fun h => absurd hsp h
  rcases hm : memtoll s with _ | v
  · refine iff_of_true (fun h => ?_) fun _ v hv => ?_
    · simp only [confSetMaxmemory, hm] at h
      cases h
    · rw [hm] at hv
      cases hv
  by_cases hv : v < 0
  · refine iff_of_true (fun h => ?_) fun _ v' hv' h0 => ?_
    · simp only [confSetMaxmemory, hm, if_pos hv] at h
      cases h
    · rw [hm] at hv'
      obtain rfl := some.inj hv'
      omega
  simp only [confSetMaxmemory, hm, if_neg hv, Field.commit, f.get_put, true_imp_iff, Opt.Exact, hsp,
    not_false_eq_true, some.injEq, forall_eq', not_lt.mp hv, Opt.Denotes, if_true]
  constructor
  · rintro ⟨n, u, k, mul, rfl, hn, hu, rfl⟩
    obtain ⟨neg, ds, rfl, hds, rfl⟩ := numeralVal_eq_some.mp hn
    obtain ⟨hne, hd⟩ := sdsIsNum_iff.mp hds
    obtain ⟨h0, hparts⟩ := @amountParts_append neg ds u hd (unitVal_letters hu)
    rw [hparts]
    refine ⟨h0, hne, fun mul' hmul' => ?_⟩
    obtain rfl := some.inj (hu.symm.trans hmul')
    refine ⟨?_, memtoll_le hm⟩
    by_contra hneg
    have hpos : 0 < mul := zero_lt_one.trans_le (unitVal_pos hu)
    exact hv (Int.mul_neg_of_neg_of_pos (not_le.mp hneg) hpos)
  · rintro ⟨h0, hne, hexact⟩
    have hs := eq_of_amountParts h0
    obtain ⟨mul, hmul, rfl⟩ := memtoll_parts hm
    rw [memUnit_eq fun h => h0 (hs ▸ mem_append_right _ h)] at hmul
    obtain ⟨hnn, hle⟩ := hexact mul hmul
    refine ⟨_, _, _, mul, hs, numeralVal_eq_some.mpr ⟨_, _, rfl, ?_, rfl⟩, hmul, ?_⟩
    · refine sdsIsNum_iff.mpr ⟨hne, fun b hb => ?_⟩
      exact mem_takeWhile_imp hb
    · have hmax := (le_mul_of_one_le_right hnn (unitVal_pos hmul)).trans hle
      have hmin : llongMin ≤ signed10 (amountParts s).1 (amountParts s).2.1 :=
        (by decide : llongMin ≤ 0).trans hnn
      rw [min_eq_right hmax, max_eq_right hmin,
        wrap_eq_self_iff.mpr ⟨(show llongMin ≤ 0 by decide).trans
          (Int.mul_nonneg hnn (zero_le_one.trans (unitVal_pos hmul))), hle⟩]

variable {name value : Sds} {j : ℕ} {o : Opt}

theorem configSet_eq_apply {os : Os} {admin : Option Sds} {authenticated : ℕ}
    (ho : Opt.find name = some o) (hm : o.noModify = false) (hmax : o ≠ .maxclients)
    (hadm : o ≠ .adminpass) :
    configSet os j admin authenticated name value c = configSetApply j name value o c := by
  simp only [configSet, configSetCheck, ho, hm, Bool.false_eq_true, if_false, if_neg hmax,
    if_neg fun h : o = .adminpass ∧ _ => hadm h.1]

theorem apply_exact_iff {f : Server → ℤ} (hf : ∀ s, (o.get s).number = some (f s)) :
    ((configSetApply j name value o c).2 = .ok →
      ∃ v, o.Denotes value v ∧
        (o.get (configSetApply j name value o c).1.server).number = some v) ↔
    ((o.set j (splitValue value) c).2 = true →
      o.Denotes value (f (o.set j (splitValue value) c).1.server)) := by
  unfold configSetApply
  rcases o.set j (splitValue value) c with ⟨c', _ | _⟩ <;> simp [hf]

theorem configSet_maxclients_exact {os : Os} {admin : Option Sds} {authenticated : ℕ}
    (ho : Opt.find name = some .maxclients)
    (hok : (configSet os j admin authenticated name value c).2 = .ok) :
    numeralVal value =
      some (configSet os j admin authenticated name value c).1.server.maxclients := by
  rcases hv : string2ll value with _ | v
  · simp [configSet, configSetCheck, ho, hv, Opt.noModify] at hok
  by_cases h1 : 1 ≤ v
  · rw [configSet_maxclients ho hv h1] at hok ⊢
    split_ifs at hok ⊢ with hne
    exact numeralVal_of_string2ll hv
  · simp [configSet, configSetCheck, ho, hv, Opt.noModify, not_le.mp h1] at hok

/-- CONFIG SET of a number replies with an error or stores the number that was written, but for the
values that are not `Exact`. -/
theorem numbers_exact_iff (os : Os) (j : ℕ) (admin : Option Sds) (authenticated : ℕ)
    (name value : Sds) (c : VrConf) (ho : Opt.find name = some o)
    (hnum : (o.get c.server).number.isSome = true) :
    ((configSet os j admin authenticated name value c).2 = .ok →
      ∃ v, o.Denotes value v ∧
        (o.get (configSet os j admin authenticated name value c).1.server).number = some v) ↔
    o.Exact value := by
  cases o
  case maxclients =>
    exact iff_of_true (fun hok => ⟨_, configSet_maxclients_exact ho hok, rfl⟩) trivial
  case maxmemory =>
    rw [configSet_eq_apply ho rfl nofun nofun, apply_exact_iff fun _ => rfl]
    exact confSetMaxmemory_exact_iff
  case maxmemorySamples =>
    rw [configSet_eq_apply ho rfl nofun nofun, apply_exact_iff fun _ => rfl]
    exact setIntFrom_exact_iff zero_le_one
  case slowlogMaxLen =>
    rw [configSet_eq_apply ho rfl nofun nofun, apply_exact_iff fun _ => rfl]
    exact setIntFrom_exact_iff le_rfl
  case maxTimeComplexityLimit | slowlogLogSlowerThan =>
    rw [configSet_eq_apply ho rfl nofun nofun, apply_exact_iff fun _ => rfl]
    exact iff_of_true confSetLonglong_exact trivial
  case databases | internalDbsPerDatabases | port | threads =>
    refine iff_of_true (fun hok => ?_) trivial
    simp [configSet, configSetCheck, ho, Opt.noModify] at hok
  all_goals cases hnum

theorem numbers_exact_gb : ∃ v, Opt.maxmemory.Denotes (ascii "1gb".toList) v ∧
    (Opt.maxmemory.get (configSet ⟨none, fun _ => true⟩ 0 none 0 Opt.maxmemory.name
      (ascii "1gb".toList) ⟨.default 1, 0⟩).1.server).number = some v := by
  refine (numbers_exact_iff _ _ _ _ _ _ _ (o := .maxmemory) (by decide +kernel) rfl).mpr ?_
    (by decide +kernel)
  intro _ v hv _
  refine ⟨by decide +kernel, by decide +kernel, fun mul hmul => ?_⟩
  have h : unitVal (amountParts (ascii "1gb".toList)).2.2 = some (1024 * 1024 * 1024) := by
    decide +kernel
  obtain rfl := some.inj (h.symm.trans hmul)
  decide +kernel

/-- 4294967301 samples become 5, and `17179869185gb` of memory become one gigabyte. -/
theorem numbers_wrapped :
    let os : Os := ⟨none, fun _ => true⟩
    let samples := configSet os 0 none 0 Opt.maxmemorySamples.name (ascii "4294967301".toList)
      ⟨.default 1, 0⟩
    let memory := configSet os 0 none 0 Opt.maxmemory.name (ascii "17179869185gb".toList)
      ⟨.default 1, 0⟩
    samples.2 = .ok ∧ samples.1.server.maxmemorySamples = 5 ∧
      memory.2 = .ok ∧ memory.1.server.maxmemory = 1024 * 1024 * 1024 := by
  decide +kernel

end Vire.Conf
