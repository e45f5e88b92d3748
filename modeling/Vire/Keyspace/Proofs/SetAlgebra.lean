import Mathlib.Data.Finset.Union
import Vire.Keyspace.Proofs.SetOps

/-!
# Intersection, union and difference

With no writer about, SINTER computes the intersection and SUNION the union.  SDIFF computes the
difference if it looks up the members of the first set in the others; the second algorithm, which is
to remove the members of the others, removes its own members instead.  The number of members SUNION
and SDIFF announce is an `int`.
-/

namespace Vire

open List Logic Prog Handler

theorem int32_zero : int32 0 = 0 := by decide

theorem int32_eq_zero_iff {k : ℕ} : int32 k = 0 ↔ 2 ^ 32 ∣ k := by
  rw [int32, ← Int.dvd_iff_bmod_eq_zero]
  exact Int.natCast_dvd_natCast

theorem int32_eq_self_iff {k : ℕ} : int32 k = k ↔ k < 2 ^ 31 := by
  constructor
  · intro h
    have := Int.bmod_lt (x := (k : ℤ)) (m := 2 ^ 32) (by decide)
    rw [int32] at h
    omega
  · exact fun h => int32_of_lt (by omega) (by omega)

attribute [local irreducible] int32

variable [Host]

inductive HoldsSet : Option Value → Finset Sds → Prop
  | missing : HoldsSet none ∅
  | set {v : SetVal} {S : Finset Sds} (h : v.Sound S) : HoldsSet (some (.set v)) S

theorem HoldsSet.cases {o : Option Value} {S : Finset Sds} (h : HoldsSet o S) :
    (Found.ofValue o = .missing ∧ o = none ∧ S = ∅) ∨
      ∃ v, Found.ofValue o = .found v ∧ o = some (.set v) ∧ v.Sound S := by
  cases h with
  | missing => exact .inl ⟨rfl, rfl, rfl⟩
  | set h => exact .inr ⟨_, rfl, rfl, h⟩

theorem HoldsSet.sound {look : ℕ → Sds → Option Value} {keys : List Sds} {S : Sds → Finset Sds}
    (h : ∀ n, ∀ key ∈ keys, HoldsSet (look n key) (S key)) : Sound look keys := by
  intro n key hkey w hw
  rcases (h n key hkey).cases with ⟨-, hnone, -⟩ | ⟨v, -, hsome, hv⟩
  · rw [hnone] at hw
    cases hw
  · rw [hsome, Option.some.injEq, Value.set.injEq] at hw
    exact hw ▸ ⟨hv.ok, hv.proper⟩

namespace Handler

variable {dictid : ℕ} {Rely : ℕ → Server → Server → Prop} {Inv : Server → Prop}
  {look : ℕ → Sds → Option Value} {n : ℕ} {c : Client} {s : Server} {key : Sds} {keys : List Sds}
  {out : List Reply} {S : Sds → Finset Sds} {v : SetVal} {X : Finset Sds}

/-- `first_length` and the work of both algorithms.  `size` is that of the set at a key, if there is
one. -/
def workOf (size : Sds → Option ℕ) : List Sds → ℕ → DiffWork → DiffWork
  | [], _, work => work
  | key :: keys, j, work =>
    workOf size keys (j + 1) (match size key with | none => work | some n => work.count j n)

variable {Q : Option (SetVal × ℤ) → ℕ → Client → Server → Prop}

section

variable (hsees : Sees dictid Rely Inv look) (hat : Reached dictid Inv out c s)
  (hlook : ∀ n, ∀ key ∈ keys, HoldsSet (look n key) (S key))

include hsees hat

theorem wpAmong_fetchSet_holds (h : HoldsSet (look n key) X)
    {Q : Found SetVal → ℕ → Client → Server → Prop}
    (hmissing : look n key = none → X = ∅ → ∀ c' s', Reached dictid Inv out c' s' →
      Q .missing (n + 1) c' s')
    (hfound : ∀ w c' s', look n key = some (.set w) → w.Sound X → Reached dictid Inv out c' s' →
      Q (.found w) (n + 1) c' s') :
    (fetchSet key).WpAmong Rely n c s Q := by
  refine wpAmong_fetchSet hsees hat fun c' s' hat' _ => ?_
  rcases h.cases with ⟨hof, hnone, hX⟩ | ⟨w, hof, hsome, hw⟩ <;> rw [hof] at hat' ⊢
  · exact hmissing hnone hX c' s' hat'.silent
  · exact hfound w c' s' hsome hw hat'.silent

include hlook

theorem sunionDiffSizes_wp (op : SetOp) {size : Sds → Option ℕ}
    (hsize : ∀ n, ∀ key ∈ keys, size key = (look n key).map fun _ => (S key).card) (j : ℕ)
    (work : DiffWork) {Q : Option DiffWork → ℕ → Client → Server → Prop}
    (hQ : ∀ n' c' s', Reached dictid Inv out c' s' →
      Q (some (if op = .diff then workOf size keys j work else work)) n' c' s') :
    (sunionDiffSizes op keys j work).WpAmong Rely n c s Q := by
  induction keys generalizing n c s j work with
  | nil => exact (ite_self work ▸ hQ n c s hat :)
  | cons key keys ih =>
    obtain ⟨hkey, hkeys⟩ := forall_and.mp fun n => forall_mem_cons.mp (hlook n)
    obtain ⟨hsize1, hsizes⟩ := forall_and.mp fun n => forall_mem_cons.mp (hsize n)
    rw [workOf] at hQ
    rw [sunionDiffSizes, wpAmong_bind]
    refine wpAmong_fetchSet_holds hsees hat (hkey n) ?_ ?_
    · intro hnone _ c1 s1 hat1
      have hnosize : size key = none := by rw [hsize1 n, hnone]; rfl
      rw [hnosize] at hQ
      exact ih hat1 hkeys hsizes _ _ hQ
    · intro w c1 s1 hsome hw hat1
      have hsz : size key = some (setTypeSize w) := by rw [hsize1 n, hsome, hw.size_eq]; rfl
      rw [hsz] at hQ
      refine ih hat1 hkeys hsizes _ _ fun n' c' s' hat' => ?_
      have := hQ n' c' s' hat'
      split_ifs at this ⊢ <;> exact this

theorem unionLoop_wp (hv : v.Sound X) {k : ℤ} (hk : k = int32 X.card)
    (hQ : ∀ v' n' c' s', v'.Sound (X ∪ keys.toFinset.biUnion S) → Reached dictid Inv out c' s' →
      Q (some (v', int32 (X ∪ keys.toFinset.biUnion S).card)) n' c' s') :
    (unionLoop keys v k).WpAmong Rely n c s Q := by
  induction keys generalizing n c s v X k with
  | nil =>
    have hX : X ∪ ([] : List Sds).toFinset.biUnion S = X := by simp
    rw [hX, ← hk] at hQ
    exact hQ v n c s hv hat
  | cons key keys ih =>
    obtain ⟨hkey, hkeys⟩ := forall_and.mp fun n => forall_mem_cons.mp (hlook n)
    rw [toFinset_cons, Finset.biUnion_insert, ← Finset.union_assoc] at hQ
    rw [unionLoop, wpAmong_bind]
    refine wpAmong_fetchSet_holds hsees hat (hkey n) ?_ ?_
    · intro _ hempty c1 s1 hat1
      rw [hempty, Finset.union_empty] at hQ
      exact ih hat1 hkeys hv hk hQ
    · intro w c1 s1 _ hw hat1
      obtain ⟨v1, h1, hadd, hv1⟩ := hv.addElems hw.elems X.card s1.heap
      have htexts : ((setTypeElems w).map Elem.text).toFinset = S key := hw.toFinset_eq
      rw [htexts] at hadd hv1
      rw [← hk, ← Nat.cast_add, Nat.add_comm, Finset.card_sdiff_add_card, Finset.union_comm] at hadd
      rw [wpAmong_bind]
      exact wpAmong_build hadd (ih (hat1.heap hsees _) hkeys hv1 rfl hQ)

theorem diffCheck_wp {ele : Robj} {x : Sds} (hele : ele.Denotes x)
    {Q : Option Bool → ℕ → Client → Server → Prop} (hQ : ∀ n' c' s', Reached dictid Inv out c' s' →
      Q (some (decide (∃ key ∈ keys, x ∈ S key))) n' c' s') :
    (diffCheck ele keys).WpAmong Rely n c s Q := by
  induction keys generalizing n c s with
  | nil => exact hQ n c s hat
  | cons key keys ih =>
    obtain ⟨hkey, hkeys⟩ := forall_and.mp fun n => forall_mem_cons.mp (hlook n)
    have hcons : decide (∃ k ∈ key :: keys, x ∈ S k) =
        (decide (x ∈ S key) || decide (∃ k ∈ keys, x ∈ S k)) := by
      rw [← Bool.decide_or]
      exact decide_eq_decide.mpr (by simp)
    rw [hcons] at hQ
    rw [diffCheck, wpAmong_bind]
    refine wpAmong_fetchSet_holds hsees hat (hkey n) ?_ ?_
    · intro _ hempty c1 s1 hat1
      rw [hempty, decide_eq_false (Finset.notMem_empty x), Bool.false_or] at hQ
      exact ih hat1 hkeys hQ
    · intro w c1 s1 _ hw hat1
      rw [wpAmong_bind, unlockDb, wpAmong_unlockP, hw.setTypeIsMember hele]
      by_cases hx : x ∈ S key
      · rw [if_pos (decide_eq_true hx)]
        rw [decide_eq_true hx, Bool.true_or] at hQ
        exact hQ _ c1 s1 hat1
      · rw [if_neg (by simpa using hx)]
        rw [decide_eq_false hx, Bool.false_or] at hQ
        exact ih hat1 hkeys hQ

theorem diffMembers_wp {es : List Elem} (hes : ∀ e ∈ es, e.Proper) (hv : v.Sound X) {k i : ℤ}
    (hk : k = int32 i) (hQ : ∀ v' n' c' s', v'.Sound
      (X ∪ ((es.map Elem.text).filter fun x => ∀ key ∈ keys, x ∉ S key).toFinset) →
      Reached dictid Inv out c' s' →
      Q (some (v', int32 (i + ((es.map Elem.text).filter fun x => ∀ key ∈ keys, x ∉ S key).length)))
        n' c' s') :
    (diffMembers keys es v k).WpAmong Rely n c s Q := by
  induction es generalizing n c s v X k i with
  | nil =>
    rw [diffMembers, wpAmong_pure, hk]
    simpa using hQ v n c s (by simpa using hv) hat
  | cons e es ih =>
    obtain ⟨he, hes⟩ := forall_mem_cons.mp hes
    rw [diffMembers, wpAmong_bind, wpAmong_inMemory, wpAmong_bind]
    refine diffCheck_wp hsees (hat.heap hsees _) hlook (he.object s.heap) fun n1 c1 s1 hat1 => ?_
    by_cases hx : ∃ key ∈ keys, e.text ∈ S key
    · have hdrop : ¬ ∀ key ∈ keys, e.text ∉ S key := fun hall =>
        let ⟨key, hkey, hmem⟩ := hx
        hall key hkey hmem
      rw [map_cons, filter_cons_of_neg (by simpa using hdrop)] at hQ
      rw [decide_eq_true hx]
      exact ih (hat1.heap hsees _) hes hv hk hQ
    · have hkeep : ∀ key ∈ keys, e.text ∉ S key := fun key hkey hmem => hx ⟨key, hkey, hmem⟩
      rw [map_cons, filter_cons_of_pos (by simpa using hkeep), toFinset_cons,
        Finset.union_insert, ← Finset.insert_union, length_cons, Nat.cast_add, Nat.cast_one,
        Int.add_comm (length _ : ℤ) 1, ← Int.add_assoc] at hQ
      obtain ⟨v1, h1, hadd, hv1⟩ := hv.setTypeAdd (he.object s.heap) s1.heap
      rw [decide_eq_false hx]
      rw [wpAmong_bind]
      refine wpAmong_build (by rw [hadd]; rfl) ?_
      exact ih ((hat1.heap hsees _).heap hsees _) hes hv1
        (show int32 (k + 1) = int32 (i + 1) by rw [hk, int32_int32_add]) hQ

end

def difference (S : Sds → Finset Sds) (key : Sds) (keys : List Sds) : Finset Sds :=
  (S key).filter fun x => ∀ k ∈ keys, x ∉ S k

def twoResult (T : Finset Sds) (others : ℕ) : Finset Sds :=
  if others = 0 ∨ 2 ^ 32 ∣ T.card then T else ∅

section

variable (hsees : Sees dictid Rely Inv look) (hat : Reached dictid Inv out c s)

include hsees hat

theorem diffAlgoOne_wp (hlook : ∀ n, ∀ k ∈ key :: keys, HoldsSet (look n k) (S k))
    (hQ : ∀ v' n' c' s', v'.Sound (difference S key keys) → Reached dictid Inv out c' s' →
      Q (some (v', int32 (difference S key keys).card)) n' c' s') :
    (diffAlgoOne (key :: keys)).WpAmong Rely n c s Q := by
  obtain ⟨hkey, hkeys⟩ := forall_and.mp fun n => forall_mem_cons.mp (hlook n)
  rw [diffAlgoOne, wpAmong_bind]
  have hsound : Sound look (key :: keys) := HoldsSet.sound hlook
  refine copySet_wp hsees hat hsound mem_cons_self fun c1 s1 s2 hat1 _ => ?_
  rcases (hkey n).cases with ⟨hof, -, hempty⟩ | ⟨w, hof, -, hw⟩ <;> rw [hof] at hat1 ⊢
  · have hdiff : difference S key keys = ∅ := by rw [difference, hempty, Finset.filter_empty]
    rw [hdiff, Finset.card_empty, Nat.cast_zero, int32_zero] at hQ
    exact hQ _ _ c1 s2 createIntsetObject_sound hat1.silent
  · obtain ⟨-, -, -, hcopy⟩ := addElems_copyOf hw s1.heap
    have hdiff : ((copyOf w s1.heap).texts.filter fun x => ∀ k ∈ keys, x ∉ S k).toFinset =
        difference S key keys := by
      rw [toFinset_filter, hcopy.toFinset_eq]
      simp [difference]
    have hcard : ((copyOf w s1.heap).texts.filter fun x => ∀ k ∈ keys, x ∉ S k).length =
        (difference S key keys).card := by
      rw [← hdiff, toFinset_card_of_nodup (hcopy.ok.nodup.filter _)]
    dsimp only [Found.map]
    rw [wpAmong_bind]
    refine diffMembers_wp hsees hat1.silent hkeys hcopy.elems createIntsetObject_sound
      int32_zero.symm ?_
    intro v' n' c' s' hv' hat'
    rw [Finset.empty_union, ← SetVal.texts, hdiff] at hv'
    rw [← SetVal.texts, hcard, Int.zero_add]
    exact hQ v' n' c' _ hv' (hat'.heap hsees _)

theorem diffAlgoTwo_rest (hlook : ∀ n, HoldsSet (look n key) X) (hv : v.Sound X)
    (hX : ¬ 2 ^ 32 ∣ X.card) (others : ℕ)
    (hQ : ∀ v' n' c' s', v'.Sound (twoResult X others) → Reached dictid Inv out c' s' →
      Q (some (v', int32 (twoResult X others).card)) n' c' s') :
    (diffAlgoTwo key others false v (int32 X.card)).WpAmong Rely n c s Q := by
  cases others with
  | zero => exact hQ v n c s hv hat
  | succ others =>
    rw [twoResult, if_neg (by simpa using hX), Finset.card_empty, Nat.cast_zero, int32_zero] at hQ
    rw [diffAlgoTwo, wpAmong_bind]
    refine wpAmong_fetchSet_holds hsees hat (hlook n) ?_ ?_
    · intro _ hempty
      exact absurd (by rw [hempty, Finset.card_empty]; exact dvd_zero _) hX
    · intro w c1 s1 _ hw hat1
      obtain ⟨v1, h1, hrem, hv1⟩ := hv.removeElems hw.elems X.card s1.heap
      have htexts : ((setTypeElems w).map Elem.text).toFinset = X := hw.toFinset_eq
      rw [htexts, Finset.inter_self, Int.sub_self, int32_zero] at hrem
      rw [htexts, Finset.sdiff_self] at hv1
      rw [wpAmong_bind]
      refine wpAmong_build (by rw [if_neg Bool.false_ne_true, hrem]) ?_
      exact hQ v1 _ c1 _ hv1 (hat1.heap hsees _)

theorem diffAlgoTwo_wp (hlook : ∀ n, HoldsSet (look n key) X) (others : ℕ)
    (hQ : ∀ v' n' c' s', v'.Sound (twoResult X others) → Reached dictid Inv out c' s' →
      Q (some (v', int32 (twoResult X others).card)) n' c' s') :
    (diffAlgoTwo key (others + 1) true createIntsetObject 0).WpAmong Rely n c s Q := by
  rw [diffAlgoTwo, wpAmong_bind]
  refine wpAmong_fetchSet_holds hsees hat (hlook n) ?_ ?_
  · intro _ hempty c1 s1 hat1
    have hres : twoResult X others = ∅ := by rw [hempty, twoResult, ite_self]
    rw [hres, Finset.card_empty, Nat.cast_zero, int32_zero] at hQ
    exact hQ _ _ c1 s1 createIntsetObject_sound hat1
  · intro w c1 s1 _ hw hat1
    obtain ⟨v1, h1, hadd, hv1⟩ := createIntsetObject_sound.addElems hw.elems 0 s1.heap
    have htexts : ((setTypeElems w).map Elem.text).toFinset = X := hw.toFinset_eq
    rw [htexts, Finset.sdiff_empty, Int.zero_add, int32_zero] at hadd
    rw [htexts, Finset.empty_union] at hv1
    rw [wpAmong_bind]
    refine wpAmong_build (by rw [if_pos rfl, hadd]) ?_
    by_cases hX : 2 ^ 32 ∣ X.card
    · rw [if_pos (int32_eq_zero_iff.mpr hX)]
      rw [twoResult, if_pos (.inr hX)] at hQ
      exact hQ v1 _ c1 _ hv1 (hat1.heap hsees _)
    · rw [if_neg fun h => hX (int32_eq_zero_iff.mp h)]
      exact diffAlgoTwo_rest hsees (hat1.heap hsees _) hlook hv1 hX others hQ

def sunionDiffResult (op : SetOp) (size : Sds → Option ℕ) (S : Sds → Finset Sds) (key : Sds)
    (keys : List Sds) : Finset Sds :=
  match op with
  | .union => (key :: keys).toFinset.biUnion S
  | .diff =>
    if (workOf size (key :: keys) 0 ⟨0, 0, 0⟩).algoOne then difference S key keys
    else twoResult (S key) keys.length

theorem sunionDiffGenericCommand_wp (op : SetOp) {dstkey : Option Sds}
    (hlook : ∀ n, ∀ k ∈ key :: keys, HoldsSet (look n k) (S k)) {size : Sds → Option ℕ}
    (hsize : ∀ n, ∀ k ∈ key :: keys, size k = (look n k).map fun _ => (S k).card)
    {Q : Unit → ℕ → Client → Server → Prop}
    (hQ : ∀ v' n' c' s', v'.Sound (sunionDiffResult op size S key keys) →
      Reached dictid Inv out c' s' →
      (sunionDiffDone dstkey v' (int32 (sunionDiffResult op size S key keys).card)).WpAmong
        Rely n' c' s' Q) :
    (sunionDiffGenericCommand op (key :: keys) dstkey).WpAmong Rely n c s Q := by
  rw [sunionDiffGenericCommand, wpAmong_bind]
  refine sunionDiffSizes_wp hsees hat hlook op hsize 0 ⟨0, 0, 0⟩ fun n1 c1 s1 hat1 => ?_
  rw [wpAmong_bind]
  cases op with
  | union =>
    have hX : ∅ ∪ (key :: keys).toFinset.biUnion S = (key :: keys).toFinset.biUnion S :=
      Finset.empty_union _
    refine unionLoop_wp hsees hat1 hlook createIntsetObject_sound int32_zero.symm
      fun v' n' c' s' hv' => ?_
    rw [hX] at hv' ⊢
    exact hQ v' n' c' s' hv'
  | diff =>
    rw [sunionDiffGenericCommand.result, if_pos rfl]
    unfold sunionDiffResult at hQ
    split_ifs at hQ ⊢ with halgo
    · exact diffAlgoOne_wp hsees hat1 hlook hQ
    · exact diffAlgoTwo_wp hsees hat1 (fun n => hlook n key mem_cons_self) keys.length hQ

end

def intersection (S : Sds → Finset Sds) (key : Sds) (keys : List Sds) : Finset Sds :=
  (S key).filter fun x => ∀ k ∈ keys, x ∈ S k

omit [Host] in
theorem mem_intersection {x : Sds} : x ∈ intersection S key keys ↔ ∀ k ∈ key :: keys, x ∈ S k := by
  rw [intersection, Finset.mem_filter, forall_mem_cons]

theorem sees_alone (dictid : ℕ) (dbs : ℕ → Db Value) (now : ℕ) :
    Sees dictid (fun _ s s' => s' = s) (fun s => s.dbs = dbs ∧ s.now = now)
      fun _ key => Vire.lookupKeyRead (dbs (home dictid key)) key now where
  lock := by
    rintro n s _ hs rfl
    exact ⟨hs, fun key => by rw [hs.1, hs.2]⟩
  heap _ hs := hs

section

variable {see : Sds → Option Value} (hlook : ∀ k ∈ keys, HoldsSet (see k) (S k))

include hlook

theorem seenSizes_alone (n : ℕ) (len : Option ℕ) (idx : ℕ) :
    seenSizes (fun _ => see) keys n len idx = .missing ∧ (∃ k ∈ keys, S k = ∅) ∨
      (∃ i, seenSizes (fun _ => see) keys n len idx = .found i) ∧ ∀ k ∈ keys, ∃ v, see k =
        some (.set v) := by
  induction keys generalizing n len idx with
  | nil => exact .inr ⟨⟨idx, rfl⟩, by simp⟩
  | cons key keys ih =>
    obtain ⟨hkey, hkeys⟩ := forall_mem_cons.mp hlook
    rw [seenSizes, forall_mem_cons]
    rcases hkey.cases with ⟨hof, -, hempty⟩ | ⟨w, hof, hsome, -⟩ <;> simp only [hof]
    · exact .inl ⟨trivial, key, mem_cons_self, hempty⟩
    · have hrest : ∀ n len idx,
          seenSizes (fun _ => see) keys n len idx = .missing ∧ (∃ k ∈ key :: keys, S k = ∅) ∨
            (∃ i, seenSizes (fun _ => see) keys n len idx = .found i) ∧
              (∃ v, see key = some (.set v)) ∧ ∀ k ∈ keys, ∃ v, see k = some (.set v) := by
        intro n len idx
        rcases ih hkeys n len idx with ⟨hmiss, k, hk, hempty⟩ | ⟨hfound, hall⟩
        · exact .inl ⟨hmiss, k, mem_cons_of_mem _ hk, hempty⟩
        · exact .inr ⟨hfound, ⟨w, hsome⟩, hall⟩
      split_ifs
      · exact hrest _ _ _
      · exact hrest _ _ _

theorem seenIn_alone (hall : ∀ k ∈ keys, ∃ v, see k = some (.set v)) (x : Sds) :
    (seenIn (fun _ => see) x keys n).1 = .found (decide (∀ k ∈ keys, x ∈ S k)) := by
  induction keys generalizing n with
  | nil => simp [seenIn]
  | cons key keys ih =>
    obtain ⟨hkey, hkeys⟩ := forall_mem_cons.mp hlook
    obtain ⟨⟨v, hv⟩, hall⟩ := forall_mem_cons.mp hall
    have hmem : x ∈ v.texts ↔ x ∈ S key := by
      rcases hkey.cases with ⟨-, hnone, -⟩ | ⟨w, -, hsome, hw⟩
      · rw [hnone] at hv
        cases hv
      · rw [hsome, Option.some.injEq, Value.set.injEq] at hv
        exact hv ▸ hw.mem_iff x
    rw [seenIn, hv]
    simp only [Found.ofValue, Value.set?, forall_mem_cons, hmem]
    by_cases hx : x ∈ S key
    · rw [if_pos hx, ih hkeys hall]
      simp [hx]
    · simp [hx]

theorem seenMembers_alone (hall : ∀ k ∈ keys, ∃ v, see k = some (.set v)) (xs : List Sds) :
    seenMembers (fun _ => see) keys xs n = some (true, xs.filter fun x => ∀ k ∈ keys, x ∈ S k) := by
  induction xs generalizing n with
  | nil => rfl
  | cons x xs ih =>
    have hx := seenIn_alone hlook hall (n := n) x
    rcases hseen : seenIn (fun _ => see) x keys n with ⟨r, n'⟩
    rw [hseen] at hx
    obtain rfl : r = .found (decide (∀ k ∈ keys, x ∈ S k)) := hx
    rw [seenMembers, hseen]
    by_cases hmem : ∀ k ∈ keys, x ∈ S k
    · rw [filter_cons_of_pos (by simpa using hmem), decide_eq_true hmem]
      simp only [ih, Option.map_some]
    · rw [filter_cons_of_neg (by simpa using hmem), decide_eq_false hmem]
      simp only [ih]

end

theorem sinterSeen_alone {see : Sds → Option Value}
    (hlook : ∀ k ∈ key :: keys, HoldsSet (see k) (S k)) (heap : Heap) :
    sinterSeen (fun _ => see) (key :: keys) heap = .missing ∧ intersection S key keys = ∅ ∨
      ∃ xs, sinterSeen (fun _ => see) (key :: keys) heap = .all xs ∧
        xs.toFinset = intersection S key keys := by
  rcases seenSizes_alone hlook 0 none 0 with ⟨hmiss, k, hk, hempty⟩ | ⟨⟨i, hi⟩, hall⟩
  · refine .inl ⟨by rw [sinterSeen, hmiss], Finset.eq_empty_of_forall_notMem fun x hx => ?_⟩
    have hmem := mem_intersection.mp hx k hk
    rw [hempty] at hmem
    exact Finset.notMem_empty x hmem
  · refine .inr ?_
    have hlt : i < (key :: keys).length := by
      have := seenSizes_lt hi (.inr ⟨rfl, cons_ne_nil _ _⟩)
      rwa [Nat.zero_add] at this
    have hget : (key :: keys).getD i [] = (key :: keys)[i] := by
      rw [getD_eq_getElem?_getD, getElem?_eq_getElem hlt, Option.getD_some]
    have hperm : ((key :: keys)[i] :: (key :: keys).eraseIdx i).Perm (key :: keys) :=
      getElem_cons_eraseIdx_perm hlt
    have hothers : ∀ k ∈ (key :: keys).eraseIdx i, k ∈ key :: keys :=
      fun k hk => mem_of_mem_eraseIdx hk
    obtain ⟨w, hw⟩ := hall _ (getElem_mem hlt)
    rcases (hlook _ (getElem_mem hlt)).cases with ⟨-, hnone, -⟩ | ⟨v, hof, -, hv⟩
    · rw [hnone] at hw
      cases hw
    obtain ⟨-, -, -, hcopy⟩ := addElems_copyOf hv heap
    refine ⟨(copyOf v heap).texts.filter fun x => ∀ k ∈ (key :: keys).eraseIdx i, x ∈ S k, ?_, ?_⟩
    · rw [sinterSeen, hi]
      simp only [hget, hof]
      rw [seenMembers_alone (fun k hk => hlook k (hothers k hk)) fun k hk => hall k (hothers k hk)]
    · ext x
      rw [toFinset_filter, Finset.mem_filter, hcopy.toFinset_eq, mem_intersection]
      simp only [← hperm.mem_iff, forall_mem_cons, decide_eq_true_eq]

end Handler

end Vire
