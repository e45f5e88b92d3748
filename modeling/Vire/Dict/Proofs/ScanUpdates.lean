import Vire.Dict.Proofs.Run
import Vire.Dict.Proofs.Scan
import Vire.Logic.Run

/-!
# Scans of a dictionary that changes

The reversed cursor only goes up, whatever the sizes of the tables are, so each element that stays
in the dictionary has its turn: a call between whose cursor and the next one its reversed hash lies.
The call passes it on, unless the dictionary is being rehashed and the element is in a bucket of the
larger table below that of the cursor.  That cannot be if the bits of the cursor between the masks
of the two tables are zeros above ones.
-/

namespace Vire

open List Option Logic

variable {K V : Type} [HashFn] [Text K]

inductive ScanAct (K V : Type)
  /-- `dictScan` with the cursor that was returned last -/
  | call
  | op (o : DictOp K V)

def scanStep (s : Dict K V × UInt64) : ScanAct K V → Option (Dict K V × UInt64)
  | .call => some (s.1, (dictScan s.1 s.2).2)
  | .op o => (o.exec s.1).map fun r => (r.1, s.2)

/-- An iteration from cursor 0 until the cursor is 0 again, the last call being step `last`. -/
structure ScanIter (d : Dict K V) where
  run : Run scanStep (d, 0)
  last : ℕ
  ends : run.act last = some .call
  returns : (run.state (last + 1)).2 = 0
  goes : ∀ m < last, run.act m = some .call → (run.state (m + 1)).2 ≠ 0

namespace ScanIter

variable {d : Dict K V} (it : ScanIter d)

def dict (m : ℕ) : Dict K V := (it.run.state m).1

def cursor (m : ℕ) : UInt64 := (it.run.state m).2

def Call (m : ℕ) : Prop := m ≤ it.last ∧ it.run.act m = some .call

def Stays (x : Sds) : Prop := ∀ m ≤ it.last, x ∈ texts (it.dict m).entries

def Passed (x : Sds) : Prop := ∃ m, it.Call m ∧ x ∈ texts (dictScan (it.dict m) (it.cursor m)).1

/-- The reversed hash of the element lies between the cursor of the call and the next one. -/
def Turn (m : ℕ) (x : Sds) : Prop :=
  it.Call m ∧ rev (it.cursor m) ≤ rev (UInt64.ofNat (HashFn.hash x)) ∧
    (it.cursor (m + 1) = 0 ∨ rev (UInt64.ofNat (HashFn.hash x)) < rev (it.cursor (m + 1)))

end ScanIter

/-- The cursor is at the bucket of the element. -/
def Dict.Stands (d : Dict K V) (v : UInt64) (x : Sds) : Prop :=
  scanPos d.scanBits (UInt64.ofNat (HashFn.hash x)) = scanPos d.scanBits v

/-- The call does not come to the bucket of the larger table that the element is in. -/
def Dict.LeavesOut (d : Dict K V) (v : UInt64) (x : Sds) : Prop :=
  ∃ e ∈ d.entries, text e.1 = x ∧ d.Skips v e

/-- The bits of the cursor between the masks of the two tables are zeros above ones. -/
def Dict.LowOnes (d : Dict K V) (v : UInt64) : Prop :=
  ∃ j, v.toNat % d.large.size / d.small.size + 1 = 2 ^ j

variable {d d' : Dict K V}

theorem dictAddRaw_refused (hw : d.WF) (hp : d.PowTwo) {k : K} {v : V}
    (h : dictAddRaw d k v = some (d', false)) : Dict.Same d d' ∧ d'.PowTwo := by
  have hs := rehashStepIf_same hw
  obtain ⟨d1, hd1, hs1, -⟩ := dictExpandIfNeeded_some hs.wf
  have hkey : (dictKeyIndex (rehashStepIf d) k).1 = d1 := by
    rw [dictKeyIndex, hd1]
    dsimp only
    split_ifs <;> rfl
  unfold dictAddRaw at h
  dsimp only at h
  split_ifs at h <;> cases h
  rw [hkey]
  exact ⟨hs.trans hs1, hp.expanded (.inl rfl) hw (fun n _ => zeroOrPow_dictNextPower n) hd1⟩

theorem DictOp.call_wf (hh : ∀ x, HashFn.hash x < 2 ^ 32) (hw : d.WF) (hp : d.PowTwo)
    {op : DictOp K V} {res : DictRes K V} (h : op.call d = some (d', res)) : d'.WF ∧ d'.PowTwo := by
  by_cases hfit : op.IntIndex d
  · obtain ⟨hw', hp', -⟩ := op.run_spec hw hp
    rw [op.call_eq hw hfit] at h
    cases h
    exact ⟨hw', hp'⟩
  obtain ⟨k, hk, hnot, hge⟩ : ∃ k, op.adds = some k ∧ text k ∉ texts d.entries ∧
      2 ^ 31 ≤ dictAddIndex d k := by
    simpa [DictOp.IntIndex] using hfit
  have ha := assoc_eq_none.mpr hnot
  have hraw : ∀ {v d' b}, dictAddRaw d k v = some (d', b) →
      b = false ∧ Dict.Same d d' ∧ d'.PowTwo := by
    intro v d' b hadd
    cases b with
    | true => exact absurd hadd (dictAddRaw_ne hh hw v ha hge d')
    | false => exact ⟨rfl, dictAddRaw_refused hw hp hadd⟩
  cases op with
  | add k' v =>
    cases hk
    obtain ⟨⟨d1, b⟩, hadd, hres⟩ := map_eq_some_iff.mp h
    cases hres
    exact ⟨(hraw hadd).2.1.wf, (hraw hadd).2.2⟩
  | replace k' v =>
    cases hk
    obtain ⟨⟨d1, b⟩, hadd, hres⟩ := bind_eq_some_iff.mp h
    obtain ⟨rfl, hs, hp'⟩ := hraw hadd
    rw [dictFind_eq hs.wf, hs.assoc_eq, ha] at hres
    cases hres
  | replaceRaw k' v =>
    cases hk
    rw [call, dictFind_eq hw, ha] at h
    obtain ⟨⟨d1, b⟩, hadd, hres⟩ := map_eq_some_iff.mp h
    cases hres
    exact ⟨(hraw hadd).2.1.wf, (hraw hadd).2.2⟩
  | delete x | find x | expand n | resize | rehash n | empty => cases hk

omit [HashFn] [Text K] in
theorem Dict.Sizes.sized (hp : d.PowTwo) (hd : d.allocated = true) : d.Sized := by
  have hk : ∀ {t : Dictht K V}, ZeroOrPow t.size → t.size < 2 ^ 61 → t.table ≠ [] →
      ∃ k ≤ 63, t.size = 2 ^ k := by
    intro t ht hlt hne
    obtain ⟨k, hk⟩ := ht.resolve_left fun h => hne (length_eq_zero_iff.mp h)
    have := (Nat.pow_lt_pow_iff_right (by norm_num)).mp (hk ▸ hlt)
    exact ⟨k, by omega, hk⟩
  simp only [Dict.allocated, Bool.and_eq_true, decide_eq_true_eq] at hd
  exact ⟨hk hp.ht0 hd.1, hk hp.ht1 hd.2⟩

variable {v : UInt64}

theorem not_skips_of_mem (hw : d.WF) (hs : d.Sized) {e : K × V}
    (he : e ∈ (dictScan d v).1) : ¬ d.Skips v e := by
  rintro ⟨hr, hmem, hlt⟩
  have h : d.size ≠ 0 := by
    intro h0
    simp [dictScan, h0] at he
  obtain ⟨k1, hle, hk1, hlarge⟩ := hs.large hw hr
  obtain ⟨-, hnl, hdisj⟩ := nodup_append.mp (hw.nodup_small_large hr)
  rw [dictScan_rehashing hw hs h hr hlarge, mem_append] at he
  rcases he with he | he
  · exact hdisj e ((d.small.chain_sublist _).subset he) e hmem rfl
  · obtain ⟨i, hi, hidx⟩ := (scanLarger_once hw.large hnl hle hk1 _ v).2 e he
    rw [hlarge, hs.small hw h, mod_div_eq_expansion hle hk1, hidx,
      Nat.mul_add_div (Nat.two_pow_pos _),
      Nat.div_eq_of_lt (Nat.mod_lt _ (Nat.two_pow_pos _))] at hlt
    omega

theorem mem_texts_dictScan (hw : d.WF) (hs : d.Sized) {x : Sds} (hx : x ∈ texts d.entries) :
    x ∈ texts (dictScan d v).1 ↔ d.Stands v x ∧ ¬ d.LeavesOut v x := by
  constructor
  · intro h
    obtain ⟨e, he, rfl⟩ := mem_map.mp h
    refine ⟨(dictScan_once hw hs v).2 e he, ?_⟩
    rintro ⟨e', he', htext, hskip⟩
    obtain rfl : e' = e := inj_on_of_nodup_map hw.nodup he' (mem_of_dictScan hw he) htext
    exact not_skips_of_mem hw hs he hskip
  · rintro ⟨hstands, hleaves⟩
    obtain ⟨e, he, rfl⟩ := mem_map.mp hx
    exact mem_map_of_mem
      (mem_dictScan hw hs he (fun hskip => hleaves ⟨e, he, rfl, hskip⟩) hstands)

theorem stands_of_between (hw : d.WF) (hs : d.Sized) {x : Sds}
    (hx : x ∈ texts d.entries) (hle : rev v ≤ rev (UInt64.ofNat (HashFn.hash x)))
    (hlt : (dictScan d v).2 = 0 ∨ rev (UInt64.ofNat (HashFn.hash x)) < rev (dictScan d v).2) :
    d.Stands v x := by
  have h : d.size ≠ 0 := by
    rw [hw.size_eq, ← length_map (f := fun e : K × V => text e.1)]
    exact (length_pos_of_mem hx).ne'
  have hk : d.scanBits ≤ 64 := hs.scanBits_le.trans (by norm_num)
  rw [dictScan_next hw hs h] at hlt
  refine le_antisymm ?_ (Nat.div_le_div_right hle)
  by_cases hz : scanNext d.scanBits v = 0
  · have := (scanNext_eq_zero_iff hk v).mp hz
    have := scanPos_lt hk (UInt64.ofNat (HashFn.hash x))
    omega
  · have hless := UInt64.lt_iff_toNat_lt.mp (hlt.resolve_left hz)
    have hnext := Nat.mod_le (2 ^ (64 - d.scanBits) * (scanPos d.scanBits v + 1)) (2 ^ 64)
    rw [← rev_scanNext hk] at hnext
    exact Nat.le_of_lt_succ (Nat.div_lt_of_lt_mul (hless.trans_le hnext))

omit [HashFn] [Text K] in
/-- A word behind the cursor in the order of the scan, in the same bucket of the smaller table, is
not below it in the larger one. -/
theorem expansion_le_of_rev_le {k k₁ j : ℕ} (hk : k ≤ k₁) (hk₁ : k₁ ≤ 63) {w : UInt64}
    (hj : v.toNat % 2 ^ k₁ / 2 ^ k + 1 = 2 ^ j) (hpos : scanPos k w = scanPos k v)
    (hle : rev v ≤ rev w) : v.toNat % 2 ^ k₁ / 2 ^ k ≤ w.toNat % 2 ^ k₁ / 2 ^ k := by
  have hlt : v.toNat % 2 ^ k₁ < 2 ^ (k + j) := by
    rw [Nat.add_comm, pow_add]
    exact (Nat.div_lt_iff_lt_mul (Nat.two_pow_pos k)).mp (by omega)
  have hjle : k + j ≤ k₁ := by
    have hexp : v.toNat % 2 ^ k₁ / 2 ^ k < 2 ^ (k₁ - k) := by
      rw [Nat.div_lt_iff_lt_mul (Nat.two_pow_pos k), ← pow_add, Nat.sub_add_cancel hk]
      exact Nat.mod_lt _ (Nat.two_pow_pos _)
    have := (Nat.pow_le_pow_iff_right (by norm_num)).mp (show 2 ^ j ≤ 2 ^ (k₁ - k) by omega)
    omega
  have hdiv : ∀ u : UInt64, scanPos (k + j) u / 2 ^ j = scanPos k u := fun u => by
    rw [scanPos, scanPos, Nat.div_div_eq_div_mul, ← pow_add]
    congr 2
    omega
  -- the lowest bits of the position are those of the cursor between the masks, which are ones
  have hones : scanPos (k + j) v % 2 ^ j = 2 ^ j - 1 := by
    refine Nat.eq_of_testBit_eq fun i => ?_
    rw [Nat.testBit_mod_two_pow, testBit_scanPos (by omega), Nat.testBit_two_pow_sub_one]
    by_cases hi : i < j
    · have hbit := congrArg (Nat.testBit · (j - 1 - i)) (Nat.eq_sub_of_add_eq hj)
      simp only [Nat.testBit_div_two_pow, Nat.testBit_mod_two_pow,
        Nat.testBit_two_pow_sub_one] at hbit
      rw [decide_eq_true (show j - 1 - i + k < k₁ by omega), Bool.true_and,
        decide_eq_true (show j - 1 - i < j by omega)] at hbit
      rw [show k + j - 1 - i = j - 1 - i + k by omega, hbit,
        decide_eq_true (show i < k + j by omega), decide_eq_true hi]
      rfl
    · simp [hi]
  have hge : scanPos (k + j) v ≤ scanPos (k + j) w := Nat.div_le_div_right hle
  have hsame : scanPos (k + j) v = scanPos (k + j) w := by
    have hv := Nat.div_add_mod (scanPos (k + j) v) (2 ^ j)
    have hw := Nat.div_add_mod (scanPos (k + j) w) (2 ^ j)
    have := Nat.mod_lt (scanPos (k + j) w) (Nat.two_pow_pos j)
    rw [hdiv] at hv hw
    rw [hpos] at hw
    omega
  have hmod := scanPos_inj (by omega) hsame
  have hdvd := pow_dvd_pow 2 hjle
  calc v.toNat % 2 ^ k₁ / 2 ^ k = v.toNat % 2 ^ (k + j) / 2 ^ k := by
        rw [← Nat.mod_mod_of_dvd _ hdvd, Nat.mod_eq_of_lt hlt]
    _ = w.toNat % 2 ^ (k + j) / 2 ^ k := by rw [hmod]
    _ ≤ w.toNat % 2 ^ k₁ / 2 ^ k := by
        rw [← Nat.mod_mod_of_dvd w.toNat hdvd]
        exact Nat.div_le_div_right (Nat.mod_le _ _)

theorem not_leavesOut (hw : d.WF) (hs : d.Sized) {x : Sds}
    (hbits : d.isRehashing = true → d.LowOnes v) (hstands : d.Stands v x)
    (hle : rev v ≤ rev (UInt64.ofNat (HashFn.hash x))) : ¬ d.LeavesOut v x := by
  rintro ⟨e, he, rfl, hr, -, hlt⟩
  have h : d.size ≠ 0 := hw.size_eq ▸ (length_pos_of_mem he).ne'
  obtain ⟨k₁, hk, hk₁, hlarge⟩ := hs.large hw hr
  obtain ⟨j, hj⟩ := hbits hr
  rw [hlarge, hs.small hw h] at hj hlt
  rw [idx_eq_mod hlarge, ← toNat_ofNat_mod (by omega)] at hlt
  exact absurd (expansion_le_of_rev_le hk hk₁ hj hstands hle) (not_le.mpr hlt)

namespace ScanIter

variable (it : ScanIter d)

theorem cursor_call {m : ℕ} (h : it.run.act m = some .call) :
    it.cursor (m + 1) = (dictScan (it.dict m) (it.cursor m)).2 := by
  have hstep := it.run.step_eq h
  rw [cursor, ← some.inj hstep]
  rfl

theorem cursor_op {m : ℕ} (h : it.run.act m ≠ some .call) : it.cursor (m + 1) = it.cursor m := by
  cases ha : it.run.act m with
  | none => rw [cursor, it.run.pause_eq ha, cursor]
  | some a =>
    cases a with
    | call => exact absurd ha h
    | op o =>
      have hstep := it.run.step_eq ha
      obtain ⟨r, -, hr⟩ := map_eq_some_iff.mp hstep
      rw [cursor, ← hr]
      rfl

theorem turn_or_le (x : Sds) : ∀ m ≤ it.last, (∃ j, it.Turn j x) ∨
    rev (it.cursor m) ≤ rev (UInt64.ofNat (HashFn.hash x)) := by
  intro m
  induction m with
  | zero =>
    intro _
    rw [cursor, it.run.start, rev_zero]
    exact .inr UInt64.zero_le
  | succ m ih =>
    intro hm
    rcases ih (by omega) with hturn | hle
    · exact .inl hturn
    by_cases hcall : it.run.act m = some .call
    · by_cases hlt : rev (UInt64.ofNat (HashFn.hash x)) < rev (it.cursor (m + 1))
      · exact .inl ⟨m, ⟨by omega, hcall⟩, hle, .inr hlt⟩
      · exact .inr (UInt64.not_lt.mp hlt)
    · rw [it.cursor_op hcall]
      exact .inr hle

theorem exists_turn (x : Sds) : ∃ m, it.Turn m x := by
  rcases it.turn_or_le x it.last le_rfl with hturn | hle
  · exact hturn
  · exact ⟨it.last, ⟨le_rfl, it.ends⟩, hle, .inl it.returns⟩

theorem ok (hh : ∀ x, HashFn.hash x < 2 ^ 32) (hw : d.WF) (hp : d.PowTwo) (hd : d.allocated = true)
    (m : ℕ) : (it.dict m).WF ∧ (it.dict m).Sized := by
  have hinv : (it.dict m).WF ∧ (it.dict m).PowTwo ∧ (it.dict m).allocated = true := by
    refine it.run.invariant (G := fun _ _ => True)
      (I := fun s => s.1.WF ∧ s.1.PowTwo ∧ s.1.allocated = true)
      (fun _ _ _ => trivial) ⟨hw, hp, hd⟩ (fun s a s' hs _ hstep => ?_) m
    cases a with
    | call =>
      cases hstep
      exact hs
    | op o =>
      obtain ⟨r, hr, rfl⟩ := map_eq_some_iff.mp hstep
      obtain ⟨hcall, hmem⟩ := filter_eq_some_iff.mp hr
      obtain ⟨hw', hp'⟩ := DictOp.call_wf hh hs.1 hs.2.1 hcall
      exact ⟨hw', hp', hmem⟩
  exact ⟨hinv.1, hinv.2.1.sized hinv.2.2⟩

end ScanIter

/-- For every hash function, which returns an `unsigned int`, every dictionary and all updates
between the calls: each element that stays in the dictionary is passed on, if at each call during a
rehash the bits of the cursor between the masks of the two tables are zeros above ones. -/
theorem scan_updates_passed (hh : ∀ x, HashFn.hash x < 2 ^ 32) (hw : d.WF) (hp : d.PowTwo)
    (hd : d.allocated = true) (it : ScanIter d)
    (hbits : ∀ m, it.Call m → (it.dict m).isRehashing = true → (it.dict m).LowOnes (it.cursor m))
    (x : Sds) (hx : it.Stays x) : it.Passed x := by
  obtain ⟨m, hcall, hle, hlt⟩ := it.exists_turn x
  obtain ⟨hwm, hsm⟩ := it.ok hh hw hp hd m
  rw [it.cursor_call hcall.2] at hlt
  have hstands := stands_of_between hwm hsm (hx m hcall.1) hle hlt
  refine ⟨m, hcall, (mem_texts_dictScan hwm hsm (hx m hcall.1)).mpr ⟨hstands, ?_⟩⟩
  exact not_leavesOut hwm hsm (hbits m hcall) hstands hle

omit [HashFn] [Text K]

/-- A table of 16 buckets is shrunk to 4 before the third call, whose cursor is 4, so that the bits
between the masks are 01.  A key is deleted and one is added on the way. -/
theorem scan_updates_shrunk :
    let _ : HashFn := ⟨fun x => (x.headD 0).toNat⟩
    let d : Dict Sds Unit :=
      [.expand 16, .add [4] (), .add [6] (), .add [9] (), .add [12] ()].foldl DictOp.run .create
    ∃ it : ScanIter d, it.run.act 2 = some (.op .resize) ∧
      it.Passed [4] ∧ it.Passed [6] ∧ it.Passed [9] := by
  intro _ d
  have hh : ∀ x, HashFn.hash x < 2 ^ 32 := fun x => (UInt8.toNat_lt _).trans (by norm_num)
  have hok : ∀ ops : List (DictOp Sds Unit), (ops.foldl DictOp.run .create).WF ∧
      (ops.foldl DictOp.run .create).PowTwo := fun ops =>
    foldlRecOn (motive := fun d => d.WF ∧ d.PowTwo) ops DictOp.run
      ⟨Dict.wf_create, Dict.powTwo_create⟩ fun d h op _ =>
        ⟨(op.run_spec h.1 h.2).1, (op.run_spec h.1 h.2).2.1⟩
  let r : Run scanStep (d, 0) := .ofList [.call, .call, .op .resize, .call, .op (.delete [12]),
    .op (.rehash 1), .call, .op (.add [7] ()), .call, .call] (by decide +kernel)
  have hgoes : ∀ m < 9, (r.state (m + 1)).2 ≠ 0 := by decide +kernel
  have hbits : ∀ m ≤ 9, (r.state m).1.isRehashing = true → ∃ j ≤ 2,
      (r.state m).2.toNat % (r.state m).1.large.size / (r.state m).1.small.size + 1 = 2 ^ j := by
    decide +kernel
  have hstays : ∀ x ∈ ([[4], [6], [9]] : List Sds), ∀ m ≤ 9, x ∈ texts (r.state m).1.entries := by
    decide +kernel
  let it : ScanIter d := ⟨r, 9, rfl, by decide +kernel, fun m hm _ => hgoes m hm⟩
  have hpassed : ∀ x ∈ ([[4], [6], [9]] : List Sds), it.Passed x := fun x hx =>
    scan_updates_passed hh (hok _).1 (hok _).2 (by decide +kernel) it
      (fun m hm hr => (hbits m hm.1 hr).imp fun j hj => hj.2) x (hstays x hx)
  exact ⟨it, rfl, hpassed _ (by simp), hpassed _ (by simp), hpassed _ (by simp)⟩

/-- A table of 16 buckets is shrunk to 4 between two calls.  The next call looks at the buckets 8
and 12 of the larger table, the one before has looked at bucket 0, and no call looks at bucket 4. -/
theorem scan_misses_bucket :
    let _ : HashFn := ⟨fun x => (x.headD 0).toNat⟩
    ∃ it : ScanIter (DictOp.run (DictOp.run .create (.expand 16)) (.add [4] ()) : Dict Sds Unit),
      it.Stays [4] ∧ ¬ it.Passed [4] := by
  intro _
  let r :
    Run scanStep
      ((DictOp.run (DictOp.run .create (.expand 16)) (.add [4] ()) : Dict Sds Unit), 0) :=
    .ofList [.call, .op .resize, .call, .call, .call, .call] (by decide +kernel)
  have hgoes : ∀ m < 5, (r.state (m + 1)).2 ≠ 0 := by decide +kernel
  have hstays : ∀ m ≤ 5, [4] ∈ texts (r.state m).1.entries := by decide +kernel
  have hnot : ∀ m ≤ 5, [4] ∉ texts (dictScan (r.state m).1 (r.state m).2).1 := by decide +kernel
  exact ⟨⟨r, 5, rfl, by decide +kernel, fun m hm _ => hgoes m hm⟩, hstays,
    fun ⟨m, hm, hx⟩ => hnot m hm.1 hx⟩

end Vire
