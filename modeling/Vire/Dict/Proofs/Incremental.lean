import Vire.Dict.Proofs.ScanUpdates

/-!
# Rehashing in steps

A rehash comes to an end after as many steps as the old table has buckets.  As long as no smaller
table is made, a scan that goes on in the meantime passes each element that stays just once.
-/

namespace Vire

open List Option Logic

variable {K V : Type} [HashFn] [Text K] {d d' : Dict K V} {r : ℕ}

namespace Dict

omit [HashFn] [Text K] in
theorem skipEmpty_out {h : Dictht K V} {v i j : ℕ} (hs : skipEmpty h v i = .out j) (hv : v ≠ 0) :
    i < j := by
  obtain ⟨v, rfl⟩ := Nat.exists_eq_succ_of_ne_zero hv
  rw [skipEmpty] at hs
  split_ifs at hs
  · cases hs
    exact Nat.lt_succ_self i
  · have := skipEmpty_spec h v (i + 1)
    rw [hs] at this
    exact this.1

/-- Unless it is finished, a loop gets past a bucket. -/
theorem dictRehashLoop_goes {n visits : ℕ} {b : Bool} (hr : d.rehashidx = some r)
    (hd : dictRehashLoop n visits d = (d', b)) :
    ∃ r', d'.rehashidx = some r' ∧ r ≤ r' ∧ d'.ht0.size = d.ht0.size ∧
      (b = true → d'.ht0.used ≠ 0) ∧ (n ≠ 0 → visits ≠ 0 → d'.ht0.used ≠ 0 → r < r') := by
  induction n generalizing d visits r with
  | zero =>
    cases hd
    exact ⟨r, hr, le_rfl, rfl, nofun, nofun⟩
  | succ n ih =>
    rw [dictRehashLoop, hr, getD_some] at hd
    split_ifs at hd with hu
    · cases hd
      exact ⟨r, hr, le_rfl, rfl, nofun, fun _ _ h => absurd hu h⟩
    have hskip := skipEmpty_spec d.ht0 visits r
    rcases hs : skipEmpty d.ht0 visits r with ⟨i, v⟩ | i <;> rw [hs] at hskip hd
    · obtain ⟨r', hr', hle, hsize, hused, -⟩ := ih rfl hd
      exact ⟨r', hr', by omega, hsize.trans length_set, hused, fun _ _ _ => by omega⟩
    · cases hd
      exact ⟨i, rfl, hskip.1, rfl, fun _ => hu, fun _ hv _ => skipEmpty_out hs hv⟩

theorem dictRehash_goes {n : ℕ} (hr : d.rehashidx = some r) (hd : (dictRehash d (n + 1)).1 = d') :
    d'.rehashidx = none ∨
      ∃ r', d'.rehashidx = some r' ∧ r < r' ∧ d'.ht0.size = d.ht0.size ∧ d'.ht0.used ≠ 0 := by
  obtain ⟨r', hr', -, hsize, hused, hlt⟩ :=
    dictRehashLoop_goes hr (rfl : dictRehashLoop (n + 1) ((n + 1) * 10) d = _)
  rw [dictRehash, if_pos (isRehashing_iff.mpr ⟨r, hr⟩)] at hd
  dsimp only at hd
  split_ifs at hd with h1 h2 <;> subst hd
  · exact .inr ⟨r', hr', hlt (by omega) (by omega) (hused h1), hsize, hused h1⟩
  · exact .inl rfl
  · exact .inr ⟨r', hr', hlt (by omega) (by omega) h2, hsize, h2⟩

theorem WF.rehashidx_lt (hw : d.WF) (hr : d.rehashidx = some r) (hu : d.ht0.used ≠ 0) :
    r < d.ht0.size := by
  by_contra hle
  refine hu (hw.ht0.used.trans (length_eq_zero_iff.mpr (flatten_eq_nil_iff.mpr fun c hc => ?_)))
  obtain ⟨k, hk, rfl⟩ := mem_iff_getElem.mp hc
  have := hw.moved r k hr ((not_lt.mp hle).trans_lt' hk)
  simpa [Dictht.chain, hk] using this

theorem foldl_dictRehash (ns : List ℕ) (hw : d.WF) (hns : ∀ r, d.rehashidx = some r →
      d.ht0.size ≤ r + ns.length ∧ (ns ≠ [] ∨ d.ht0.used ≠ 0))
    (hd : ns.foldl (fun d n => (dictRehash d (n + 1)).1) d = d') :
    Same d d' ∧ d'.isRehashing = false := by
  induction ns generalizing d with
  | nil =>
    cases hd
    refine ⟨hw.same, isRehashing_eq_false.mpr (eq_none_iff_forall_ne_some.mpr fun r hr => ?_)⟩
    obtain ⟨hle, hused⟩ := hns r hr
    exact absurd (hw.rehashidx_lt hr (hused.resolve_left fun h => h rfl)) hle.not_gt
  | cons n ns ih =>
    have hsame := dictRehash_same hw (n + 1)
    refine (ih hsame.wf (fun r' hr' => ?_) hd).imp_left hsame.trans
    cases hr : d.rehashidx with
    | none => simp [dictRehash, isRehashing, hr] at hr'
    | some r =>
      rcases dictRehash_goes (n := n) hr rfl with hnone | ⟨_, hsome, hlt, hsize, hused⟩
      · simp [hnone] at hr'
      · cases hsome.symm.trans hr'
        have := (hns r hr).1
        rw [length_cons] at this
        exact ⟨by omega, .inr hused⟩

end Dict

/-- As many calls of `dictRehash` as the old table has buckets, of one step or more each, finish a
rehash and keep all entries. -/
theorem rehash_finishes (hw : d.WF) (ns : List ℕ) (hns : d.ht0.size ≤ ns.length) :
    let d' := ns.foldl (fun d n => (dictRehash d (n + 1)).1) d
    d'.isRehashing = false ∧ d'.entries.Perm d.entries := by
  obtain ⟨hsame, hidle⟩ := Dict.foldl_dictRehash ns hw (fun r hr => ⟨by omega, .inl fun h => by
    subst h
    exact (hw.tables (Dict.isRehashing_iff.mpr ⟨r, hr⟩)).1
      (length_eq_zero_iff.mp (Nat.le_zero.mp hns))⟩) rfl
  exact ⟨hidle, hsame.perm⟩

omit [HashFn] in
theorem rehash_finishes_expanded :
    let _ : HashFn := ⟨length⟩
    let d : Dict Sds Unit := DictOp.run (DictOp.run .create (.add [2] ())) (.expand 8)
    d.isRehashing = true ∧
      ([0, 9, 0, 0].foldl (fun d n => (dictRehash d (n + 1)).1) d).isRehashing = false := by
  intro _ d
  obtain ⟨hw, hp, -⟩ := (DictOp.add ([2] : Sds) ()).run_spec Dict.wf_create Dict.powTwo_create
  exact ⟨by decide, (rehash_finishes ((DictOp.expand 8).run_spec hw hp).1 [0, 9, 0, 0]
    (by decide)).1⟩

namespace ScanIter

variable {it : ScanIter d} {i j : ℕ}

/-- The number of buckets of the smaller table, `2 ^ scanBits`, never goes down. -/
def Grows (it : ScanIter d) :
    Prop := ∀ m < it.last, (it.dict m).scanBits ≤ (it.dict (m + 1)).scanBits

theorem Grows.scanBits_le (hg : it.Grows) (hij : i ≤ j) (hj : j ≤ it.last) :
    (it.dict i).scanBits ≤ (it.dict j).scanBits := by
  induction j, hij using Nat.le_induction with
  | base => exact le_rfl
  | succ j hij ih => exact (ih (by omega)).trans (hg j hj)

section

variable (hok : ∀ m ≤ it.last, (it.dict m).WF ∧ (it.dict m).Sized)
include hok

theorem rev_cursor_succ (hi : i < it.last) (hcall : it.run.act i = some .call) :
    (rev (it.cursor (i + 1))).toNat =
      2 ^ (64 - (it.dict i).scanBits) * (scanPos (it.dict i).scanBits (it.cursor i) + 1) := by
  obtain ⟨hw, hs⟩ := hok i hi.le
  have hk : (it.dict i).scanBits ≤ 64 := hs.scanBits_le.trans (by norm_num)
  have hcursor := it.cursor_call hcall
  have hne := it.goes i hi hcall
  rw [← cursor, hcursor] at hne
  have h : (it.dict i).size ≠ 0 := fun h => hne (by simp [dictScan, h])
  rw [dictScan_next hw hs h] at hcursor hne
  have := scanPos_lt hk (it.cursor i)
  have := mt (scanNext_eq_zero_iff hk _).mpr hne
  rw [hcursor, rev_scanNext hk, ← two_pow_split hk, Nat.mul_mod_mul_left,
    Nat.mod_eq_of_lt (by omega)]

theorem rev_cursor_le (hij : i ≤ j) (hj : j ≤ it.last) :
    (rev (it.cursor i)).toNat ≤ (rev (it.cursor j)).toNat := by
  induction j, hij using Nat.le_induction with
  | base => exact le_rfl
  | succ j hij ih =>
    refine (ih (by omega)).trans ?_
    by_cases hcall : it.run.act j = some .call
    · rw [rev_cursor_succ hok hj hcall]
      exact (Nat.lt_mul_div_succ _ (Nat.two_pow_pos _)).le
    · rw [it.cursor_op hcall]

theorem Grows.cursor_lt (hg : it.Grows) (hi : i ≤ it.last) :
    (it.cursor i).toNat < 2 ^ (it.dict i).scanBits := by
  induction i with
  | zero =>
    rw [cursor, it.run.start]
    exact Nat.two_pow_pos _
  | succ i ih =>
    refine lt_of_lt_of_le ?_ (Nat.pow_le_pow_right two_pos (hg i hi))
    by_cases hcall : it.run.act i = some .call
    · rw [it.cursor_call hcall]
      by_cases h : (it.dict i).size = 0
      · simp [dictScan, h]
      · obtain ⟨hw, hs⟩ := hok i (by omega)
        rw [dictScan_next hw hs h]
        exact scanNext_lt (hs.scanBits_le.trans (by norm_num)) _
    · rw [it.cursor_op hcall]
      exact ih (by omega)

/-- A call moves the cursor past the buckets it looks at, and past those they are split into
later. -/
theorem Grows.not_stands (hg : it.Grows) {x : Sds} (hi : it.Call i) (hij : i < j) (hj : j ≤ it.last)
    (hx : (it.dict i).Stands (it.cursor i) x) : ¬ (it.dict j).Stands (it.cursor j) x := by
  have hle := rev_cursor_le hok (Nat.succ_le_of_lt hij) hj
  rw [rev_cursor_succ hok (by omega) hi.2, ← hx] at hle
  have hbits := Nat.sub_le_sub_left (hg.scanBits_le hij.le hj) 64
  exact ne_of_lt ((Nat.div_lt_div_of_lt_of_dvd ((pow_dvd_pow 2 hbits).mul_right _)
    (Nat.lt_mul_div_succ _ (Nat.two_pow_pos _))).trans_le (Nat.div_le_div_right hle))

end

end ScanIter

/-- If the tables do not shrink during an iteration, each element that stays in the dictionary is
passed on by just one call, whatever is added, deleted and rehashed between the calls. -/
theorem scan_growing_once (hh : ∀ x, HashFn.hash x < 2 ^ 32) (hw : d.WF) (hp : d.PowTwo)
    (hd : d.allocated = true) (it : ScanIter d) (hg : it.Grows) (x : Sds) (hx : it.Stays x) :
    ∃! m, it.Call m ∧ x ∈ texts (dictScan (it.dict m) (it.cursor m)).1 := by
  have hok : ∀ m ≤ it.last, (it.dict m).WF ∧ (it.dict m).Sized := fun m _ => it.ok hh hw hp hd m
  have hpass : ∀ {m}, it.Call m → (x ∈ texts (dictScan (it.dict m) (it.cursor m)).1 ↔
      (it.dict m).Stands (it.cursor m) x) := by
    intro m hm
    obtain ⟨hw, hs⟩ := hok m hm.1
    rw [mem_texts_dictScan hw hs (hx m hm.1)]
    refine and_iff_left ?_
    rintro ⟨e, he, -, hskip⟩
    refine Dict.not_skips_of_lt ?_ hskip
    rw [hs.small hw (hw.size_eq ▸ (length_pos_of_mem he).ne')]
    exact hg.cursor_lt hok hm.1
  obtain ⟨m, hm, hle, hlt⟩ := it.exists_turn x
  rw [it.cursor_call hm.2] at hlt
  have hstands := stands_of_between (hok m hm.1).1 (hok m hm.1).2 (hx m hm.1) hle hlt
  refine ⟨m, ⟨hm, (hpass hm).mpr hstands⟩, fun j ⟨hj, hmem⟩ => ?_⟩
  have hagain := (hpass hj).mp hmem
  rcases lt_trichotomy j m with hlt | heq | hlt
  · exact absurd hstands (hg.not_stands hok hj hlt hm.1 hagain)
  · exact heq
  · exact absurd hagain (hg.not_stands hok hm hlt hj.1 hstands)

omit [HashFn] [Text K]

/-- A table of 4 buckets is expanded to 8 between two calls. -/
theorem scan_growing_expanded :
    let _ : HashFn := ⟨fun x => (x.headD 0).toNat⟩
    let d : Dict Sds Unit := DictOp.run .create (.add [2] ())
    ∃ it : ScanIter d, it.run.act 1 = some (.op (.expand 8)) ∧
      ∃! m, it.Call m ∧ [2] ∈ texts (dictScan (it.dict m) (it.cursor m)).1 := by
  intro _ d
  obtain ⟨hw, hp, -⟩ := (DictOp.add ([2] : Sds) ()).run_spec Dict.wf_create Dict.powTwo_create
  have hh : ∀ x, HashFn.hash x < 2 ^ 32 := fun x => (UInt8.toNat_lt _).trans (by norm_num)
  let r : Run scanStep (d, 0) :=
    .ofList [.call, .op (.expand 8), .call, .call, .call] (by decide +kernel)
  have hgoes : ∀ m < 4, (r.state (m + 1)).2 ≠ 0 := by decide +kernel
  have hgrows : ∀ m < 4, (r.state m).1.scanBits ≤ (r.state (m + 1)).1.scanBits := by decide +kernel
  have hstays : ∀ m ≤ 4, [2] ∈ texts (r.state m).1.entries := by decide +kernel
  let it : ScanIter d := ⟨r, 4, rfl, by decide +kernel, fun m hm _ => hgoes m hm⟩
  exact ⟨it, rfl, scan_growing_once hh hw hp (by decide +kernel) it hgrows [2] hstays⟩

end Vire
