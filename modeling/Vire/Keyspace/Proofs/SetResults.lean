import Vire.Keyspace.Proofs.SetAlgebra

/-!
# What SINTER, SUNION and SDIFF reply and store

The sources are sets or missing, and nobody else writes.  The destination may be one of the sources,
and may hold anything before.
-/

namespace Vire

open List Logic Prog Handler

/-- The members in some order, under this header. -/
def Sends (n : ℤ) (X : Finset Sds) (out : List Reply) : Prop :=
  ∃ l : List Sds, l.Nodup ∧ l.toFinset = X ∧ out = .multi n :: l.map .bulk

def Lists (X : Finset Sds) : List Reply → Prop := Sends X.card X

theorem Sends.lists_iff {n : ℤ} {X Y : Finset Sds} {out : List Reply} (h : Sends n X out) :
    Lists Y out ↔ X = Y ∧ n = Y.card := by
  obtain ⟨l, hnodup, rfl, rfl⟩ := h
  constructor
  · rintro ⟨l', -, rfl, heq⟩
    obtain ⟨hn, hl⟩ := cons.inj heq
    rw [(map_inj_right fun _ _ => Reply.bulk.inj).mp hl]
    exact ⟨rfl, Reply.multi.inj hn⟩
  · rintro ⟨rfl, rfl⟩
    exact ⟨l, hnodup, rfl, rfl⟩

attribute [local irreducible] int32

section

variable [Host]

/-- The key holds the set and no deadline, and is gone if that is empty.  Nothing else has
changed. -/
def SetPut (dbs : ℕ → Db Value) (i : ℕ) (key : Sds) (X : Finset Sds) (dbs' : ℕ → Db Value) : Prop :=
  ∃ o, KeyPut dbs i key o none dbs' ∧ HoldsSet o X ∧ (o = none ↔ X = ∅)

/-- The reply is the number of members, and `dst` has the set. -/
def SetStored (dbs : ℕ → Db Value) (dictid : ℕ) (dst : Sds) (X : Finset Sds) (out : List Reply)
    (dbs' : ℕ → Db Value) : Prop :=
  out = [.int X.card] ∧ SetPut dbs (home dictid dst) dst X dbs'

/-- The request is answered with the set, and changes no key. -/
def RepliesSet (dictid : ℕ) (proc : Cmd Unit) (argv : List Sds) (now : ℕ)
    (world : ℕ → ℤ) (s : Server) (X : Finset Sds) : Prop :=
  ∃ out s', call dictid proc argv now world s = some (out, s') ∧ Lists X out ∧ s'.dbs = s.dbs

/-- The request is answered with the number of members, and stores the set at `dst`. -/
def StoresSet (dictid : ℕ) (proc : Cmd Unit) (argv : List Sds) (now : ℕ)
    (world : ℕ → ℤ) (s : Server) (dst : Sds) (X : Finset Sds) : Prop :=
  ∃ s', call dictid proc argv now world s = some ([.int X.card], s') ∧
    SetPut s.dbs (home dictid dst) dst X s'.dbs

/-- The keys hold these sets, and those of the empty set may be missing. -/
def Sources (dictid : ℕ) (s : Server) (now : ℕ) (keys : List Sds) (S : Sds → Finset Sds) : Prop :=
  ∀ key ∈ keys, HoldsSet (lookupKeyRead (s.dbs (home dictid key)) key now) (S key)

def sourceSize (dictid : ℕ) (s : Server) (now : ℕ) (S : Sds → Finset Sds) (key : Sds) : Option ℕ :=
  (lookupKeyRead (s.dbs (home dictid key)) key now).map fun _ => (S key).card

variable {dictid : ℕ} {now : ℕ} {s : Server} {c : Client} {dst key : Sds} {keys : List Sds}
  {S : Sds → Finset Sds} {X : Finset Sds} {v : SetVal}

namespace Handler

theorem store_wp {dbs : ℕ → Db Value} (h : KeyPut dbs c.db dst none none s.dbs) (hv : v.Sound X) :
    (storeSet.store dst (some v)).Ends c s fun out dbs' =>
      out = c.out ++ [.int X.card] ∧ SetPut dbs c.db dst X dbs' := by
  rw [Cmd.Ends, storeSet.store, hv.size_eq]
  split_ifs with hpos
  · rw [wp_bind]
    refine wp_dbAdd_put h fun s' h' => ⟨rfl, _, h', .set hv, ?_⟩
    exact iff_of_false (Option.some_ne_none _) (Finset.card_pos.mp hpos).ne_empty
  · obtain rfl : X = ∅ := Finset.card_eq_zero.mp (Nat.eq_zero_of_not_pos hpos)
    exact ⟨rfl, none, h, .missing, iff_of_true rfl rfl⟩

section

/-- The handler has done nothing yet that can be seen. -/
abbrev Begun (dictid : ℕ) (s : Server) : Client → Server → Prop :=
  Reached dictid (fun s' => s'.dbs = s.dbs ∧ s'.now = s.now) []

variable {s₀ : Server} (hat : Begun dictid s₀ c s) (hok : (s₀.dbs (home dictid dst)).Ok)

include hat hok

theorem storeSet_wp (hv : v.Sound X) :
    (storeSet dst (some v)).Ends c s (SetStored s₀.dbs dictid dst X) := by
  obtain ⟨rfl, hout, hdbs, -⟩ := hat
  rw [← hdbs] at hok ⊢
  rw [Cmd.Ends, storeSet, wp_bind, wp_fetchInternalDbByKey, wp_bind, lockDbWrite, wp_lockP, wp_bind]
  refine wp_dbDelete_put (.refl hok) fun s1 h1 => ?_
  rw [wp_bind]
  refine (store_wp h1 hv).mono fun _ c' s' h => ⟨?_, h.2⟩
  rw [h.1, hout, nil_append]

theorem missing_wp (hX : X = ∅) :
    (sinterGenericCommand.missing (some dst)).Ends c s (SetStored s₀.dbs dictid dst X) := by
  obtain ⟨rfl, hout, hdbs, -⟩ := hat
  rw [← hdbs] at hok ⊢
  subst hX
  rw [Cmd.Ends, sinterGenericCommand.missing, wp_bind, wp_fetchInternalDbByKey,
    wp_bind, lockDbWrite, wp_lockP, wp_bind]
  refine wp_dbDelete_put (.refl hok) fun s1 h1 => ?_
  exact ⟨congrArg (· ++ [czero]) hout, none, h1, .missing, iff_of_true rfl rfl⟩

end

theorem sends_texts (hv : v.Sound X) (n : ℤ) :
    Sends n X (.multi n :: (setTypeElems v).map fun e => .bulk e.text) := by
  refine ⟨v.texts, hv.ok.nodup, hv.toFinset_eq, ?_⟩
  rw [SetVal.texts, map_map]
  rfl

section

variable {os : List Robj} (hS : Sources dictid s s.now (key :: keys) S)

include hS

theorem sinterGenericCommand_alone {dstkey : Option Sds} {Q : Post Unit}
    (hmissing : ∀ c' s', intersection S key keys = ∅ → Begun dictid s c' s' →
      (sinterGenericCommand.missing dstkey).Wp c' s' Q)
    (hall : ∀ v c' s', v.Sound (intersection S key keys) → Begun dictid s c' s' →
      (sinterDone dstkey (some v) (intersection S key keys).card).Wp c' s' Q) :
    (sinterGenericCommand (key :: keys) dstkey).Wp (.called dictid os) s Q := by
  have hsee := sinterSeen_alone hS
  refine (wpAmong_alone (n := 0)).mp ?_
  refine sinterGenericCommand_wp (sees_alone dictid s.dbs s.now) ⟨rfl, rfl, rfl, rfl⟩
    (HoldsSet.sound fun _ => hS) (cons_ne_nil _ _) (P := fun _ => True) s.heap trivial
    (fun _ _ _ => trivial) ?_ ?_ ?_ ?_
  · intro heap n' c' s' _ hseen hat
    rcases hsee heap with ⟨-, hempty⟩ | ⟨xs, hxs, -⟩
    · exact wpAmong_alone.mpr (hmissing c' s' hempty hat)
    · cases hseen.symm.trans hxs
  · intro heap n' c' s' _ hseen
    rcases hsee heap with ⟨hmiss, -⟩ | ⟨xs, hxs, -⟩
    · cases hseen.symm.trans hmiss
    · cases hseen.symm.trans hxs
  · intro heap k n' c' s' _ hseen
    rcases hsee heap with ⟨hmiss, -⟩ | ⟨xs, hxs, -⟩
    · cases hseen.symm.trans hmiss
    · cases hseen.symm.trans hxs
  · intro heap ys v n' c' s' _ hseen hnodup hv hat
    rcases hsee heap with ⟨hmiss, -⟩ | ⟨xs, hxs, heq⟩
    · cases hseen.symm.trans hmiss
    · obtain rfl := SinterEnd.all.inj (hseen.symm.trans hxs)
      rw [← toFinset_card_of_nodup hnodup]
      rw [heq] at hv ⊢
      exact wpAmong_alone.mpr (hall v c' s' hv hat)

theorem sunionDiffGenericCommand_alone (op : SetOp) {size : Sds → Option ℕ}
    (hsize : ∀ k ∈ key :: keys, size k = sourceSize dictid s s.now S k)
    {dstkey : Option Sds} {Q : Post Unit}
    (hQ : ∀ v c' s', v.Sound (sunionDiffResult op size S key keys) → Begun dictid s c' s' →
      (sunionDiffDone dstkey v (int32 (sunionDiffResult op size S key keys).card)).Wp c' s' Q) :
    (sunionDiffGenericCommand op (key :: keys) dstkey).Wp (.called dictid os) s Q := by
  refine (wpAmong_alone (n := 0)).mp ?_
  refine sunionDiffGenericCommand_wp (sees_alone dictid s.dbs s.now) ⟨rfl, rfl, rfl, rfl⟩ op
    (fun _ => hS) (fun _ => hsize) fun v n' c' s' hv hat => ?_
  exact wpAmong_alone.mpr (hQ v c' s' hv hat)

theorem sinter_lists :
    (sinterGenericCommand (key :: keys) none).Ends (.called dictid os) s fun out dbs =>
    Lists (intersection S key keys) out ∧ dbs = s.dbs := by
  refine sinterGenericCommand_alone hS ?_ ?_
  · intro c' s' hempty hat
    refine ⟨?_, hat.inv.1⟩
    rw [hempty]
    exact ⟨[], nodup_nil, rfl, congrArg (· ++ [emptymultibulk]) hat.out⟩
  · intro v c' s' hv hat
    refine ⟨?_, hat.inv.1⟩
    change Lists _ (c'.out ++ [.multi (intersection S key keys).card] ++
      (setTypeElems v).map fun e => .bulk e.text)
    rw [hat.out]
    exact sends_texts hv _

theorem sinter_stored (hok : (s.dbs (home dictid dst)).Ok) :
    (sinterGenericCommand (key :: keys) (some dst)).Ends (.called dictid os) s
      (SetStored s.dbs dictid dst (intersection S key keys)) :=
  sinterGenericCommand_alone hS (fun _ _ hempty hat => missing_wp hat hok hempty)
    fun _ _ _ hv hat => storeSet_wp hat hok hv

theorem sunionDiff_lists (op : SetOp) (size : Sds → Option ℕ)
    (hsize : ∀ k ∈ key :: keys, size k = sourceSize dictid s s.now S k) :
    (sunionDiffGenericCommand op (key :: keys) none).Ends (.called dictid os) s fun out dbs =>
      Sends (int32 (sunionDiffResult op size S key keys).card)
        (sunionDiffResult op size S key keys) out ∧ dbs = s.dbs := by
  refine sunionDiffGenericCommand_alone hS op hsize ?_
  intro v c' s' hv hat
  refine ⟨?_, hat.inv.1⟩
  change Sends _ _ (c'.out ++ [.multi _] ++ (setTypeElems v).map fun e => .bulk e.text)
  rw [hat.out]
  exact sends_texts hv _

theorem sunionDiff_stored (op : SetOp) (size : Sds → Option ℕ)
    (hsize : ∀ k ∈ key :: keys, size k = sourceSize dictid s s.now S k)
    (hok : (s.dbs (home dictid dst)).Ok) :
    (sunionDiffGenericCommand op (key :: keys) (some dst)).Ends (.called dictid os) s
      (SetStored s.dbs dictid dst (sunionDiffResult op size S key keys)) :=
  sunionDiffGenericCommand_alone hS op hsize fun _ _ _ hv hat => storeSet_wp hat hok hv

end

omit [Host] in
theorem ends_keys {name : Sds} (hargs : Args c.argv (name :: keys))
    {generic : List Sds → Option Sds → Cmd Unit}
    {Q : List Reply → (ℕ → Db Value) → Prop} (h : (generic keys none).Ends c s Q) :
    (do generic ((← args 1).map text) none : Cmd Unit).Ends c s Q := by
  rw [Cmd.Ends, wp_args, hargs.map_text_drop]
  exact h

omit [Host] in
theorem ends_dst {name : Sds} (hargs : Args c.argv (name :: dst :: keys))
    {generic : List Sds → Option Sds → Cmd Unit} {Q : List Reply → (ℕ → Db Value) → Prop}
    (h : (generic keys (some dst)).Ends c s Q) :
    (do generic ((← args 2).map text) (some (text (← arg 1))) : Cmd Unit).Ends c s Q := by
  rw [Cmd.Ends, wp_args, wp_arg, hargs.map_text_drop, text_arg_one hargs rfl]
  exact h

end Handler

section

variable (hS : Sources dictid s now (key :: keys) S) (world : ℕ → ℤ)

include hS

theorem sinter_replies :
    RepliesSet dictid sinterCommand (ascii "sinter".toList :: key :: keys) now world s
    (intersection S key keys) :=
  call_of_ends (fun hargs => ends_keys hargs (sinter_lists hS)) world

theorem sunionDiff_sends (op : SetOp) {name : Sds} :
    ∃ out s', call dictid (do sunionDiffGenericCommand op ((← args 1).map text) none)
      (name :: key :: keys)
        now world s = some (out, s') ∧
      Sends (int32 (sunionDiffResult op (sourceSize dictid s now S) S key keys).card)
        (sunionDiffResult op (sourceSize dictid s now S) S key keys) out ∧ s'.dbs = s.dbs := by
  obtain ⟨out, s', hcall, hsends⟩ :=
    call_of_ends (fun hargs : Args _ (name :: key :: keys) => ends_keys hargs
    (sunionDiff_lists (s := .called _ now s) hS op (sourceSize dictid s now S)
      fun _ _ => rfl)) world
  exact ⟨out, s', hcall, hsends⟩

variable (hok : (s.dbs (home dictid dst)).Ok)

include hok

theorem sinterstore_stores :
    StoresSet dictid sinterstoreCommand (ascii "sinterstore".toList :: dst :: key :: keys)
      now world s dst (intersection S key keys) := by
  obtain ⟨_, s', hcall, rfl, hput⟩ :=
    call_of_ends (fun hargs => ends_dst hargs (sinter_stored (s := .called _ now s) hS hok)) world
  exact ⟨s', hcall, hput⟩

theorem sunionDiff_stores (op : SetOp) {name : Sds} :
    StoresSet dictid (do sunionDiffGenericCommand op ((← args 2).map text) (some (text (← arg 1))))
      (name :: dst :: key :: keys) now world s dst
      (sunionDiffResult op (sourceSize dictid s now S) S key keys) := by
  obtain ⟨_, s', hcall, rfl, hput⟩ :=
    call_of_ends (fun hargs : Args _ (name :: dst :: key :: keys) =>
    ends_dst hargs (sunionDiff_stored (s := .called _ now s) hS op
      (sourceSize dictid s now S) (fun _ _ => rfl) hok)) world
  exact ⟨s', hcall, hput⟩

end

theorem HoldsSet.unique {o : Option Value} {X Y : Finset Sds} (hX : HoldsSet o X)
    (hY : HoldsSet o Y) :
    X = Y := by
  cases hX with
  | missing => cases hY with | missing => rfl
  | set hv => cases hY with | set hw => rw [← hv.toFinset_eq, hw.toFinset_eq]

theorem StoresSet.iff_eq {proc : Cmd Unit} {argv : List Sds} {world : ℕ → ℤ} {Y : Finset Sds}
    (h : StoresSet dictid proc argv now world s dst X) :
    StoresSet dictid proc argv now world s dst Y ↔ X = Y := by
  constructor
  · rintro ⟨s1, hcall1, o1, hput1, hY, -⟩
    obtain ⟨s2, hcall2, o2, hput2, hX, -⟩ := h
    rw [hcall1, Option.some.injEq, Prod.mk.injEq] at hcall2
    obtain rfl : s1 = s2 := hcall2.2
    rw [← hput1.value, hput2.value] at hY
    exact hX.unique hY
  · rintro rfl
    exact h

/-- SINTER, SINTERSTORE and SUNIONSTORE are always right, SUNION as long as the number of members is
one of type `int`. -/
theorem inter_union_exact_iff (hok : (s.dbs (home dictid dst)).Ok)
    (hS : Sources dictid s now (key :: keys) S) (world : ℕ → ℤ) :
    (RepliesSet dictid sinterCommand (ascii "sinter".toList :: key :: keys) now world s
        (intersection S key keys) ∧
      StoresSet dictid sinterstoreCommand (ascii "sinterstore".toList :: dst :: key :: keys)
        now world s dst (intersection S key keys) ∧
      RepliesSet dictid sunionCommand (ascii "sunion".toList :: key :: keys) now world s
        ((key :: keys).toFinset.biUnion S) ∧
      StoresSet dictid sunionstoreCommand (ascii "sunionstore".toList :: dst :: key :: keys)
        now world s dst ((key :: keys).toFinset.biUnion S)) ↔
      ((key :: keys).toFinset.biUnion S).card < 2 ^ 31 := by
  obtain ⟨out, s', hcall, hsends, hdbs⟩ := sunionDiff_sends hS world .union
  constructor
  · rintro ⟨-, -, ⟨out', s'', hcall', hlists, -⟩, -⟩
    rw [sunionCommand, hcall, Option.some.injEq, Prod.mk.injEq] at hcall'
    rw [← hcall'.1] at hlists
    exact int32_eq_self_iff.mp (hsends.lists_iff.mp hlists).2
  · intro hlt
    refine ⟨sinter_replies hS world, sinterstore_stores hS world hok, ⟨out, s', hcall, ?_, hdbs⟩,
      sunionDiff_stores hS world hok .union⟩
    exact hsends.lists_iff.mpr ⟨rfl, int32_eq_self_iff.mpr hlt⟩

/-- What algorithm 2 leaves of the first set is the difference. -/
def TwoRight (S : Sds → Finset Sds) (key : Sds) (keys : List Sds) : Prop :=
  if keys.length = 0 ∨ 2 ^ 32 ∣ (S key).card then difference S key keys = S key
  else difference S key keys = ∅

omit [Host] in
theorem sunionDiffResult_eq_iff {size : Sds → Option ℕ} :
    sunionDiffResult .diff size S key keys = difference S key keys ↔
      (workOf size (key :: keys) 0 ⟨0, 0, 0⟩).algoOne = true ∨ TwoRight S key keys := by
  unfold sunionDiffResult TwoRight twoResult
  by_cases halgo : (workOf size (key :: keys) 0 ⟨0, 0, 0⟩).algoOne = true
  · rw [if_pos halgo]
    exact iff_of_true rfl (.inl halgo)
  · rw [if_neg halgo, or_iff_right halgo]
    split_ifs
    · exact eq_comm
    · exact eq_comm

theorem difference_exact_iff (hok : (s.dbs (home dictid dst)).Ok)
    (hS : Sources dictid s now (key :: keys) S) (world : ℕ → ℤ) :
    (RepliesSet dictid sdiffCommand (ascii "sdiff".toList :: key :: keys) now world s
        (difference S key keys) ↔
      ((workOf (sourceSize dictid s now S) (key :: keys) 0 ⟨0, 0, 0⟩).algoOne = true ∨
        TwoRight S key keys) ∧ (difference S key keys).card < 2 ^ 31) ∧
    (StoresSet dictid sdiffstoreCommand (ascii "sdiffstore".toList :: dst :: key :: keys)
      now world s dst
        (difference S key keys) ↔
      (workOf (sourceSize dictid s now S) (key :: keys) 0 ⟨0, 0, 0⟩).algoOne = true ∨
        TwoRight S key keys) := by
  obtain ⟨out, s', hcall, hsends, hdbs⟩ := sunionDiff_sends hS world .diff
  refine ⟨?_, ?_⟩
  · rw [← sunionDiffResult_eq_iff, ← int32_eq_self_iff]
    constructor
    · rintro ⟨out', s'', hcall', hlists, -⟩
      rw [sdiffCommand, hcall, Option.some.injEq, Prod.mk.injEq] at hcall'
      rw [← hcall'.1] at hlists
      obtain ⟨hres, hcard⟩ := hsends.lists_iff.mp hlists
      rw [hres] at hcard
      exact ⟨hres, hcard⟩
    · rintro ⟨hres, hcard⟩
      refine ⟨out, s', hcall, hsends.lists_iff.mpr ⟨hres, ?_⟩, hdbs⟩
      rwa [hres]
  · rw [← sunionDiffResult_eq_iff]
    exact (sunionDiff_stores hS world hok .diff).iff_eq

end

def twoSets (key : Sds) : Finset Sds :=
  if key = [97] then {[49], [50], [51, 48, 48]} else if key = [98] then {[50], [120]} else ∅

theorem holdingTwo_sources [Host] (now : ℕ) (keys : List Sds) :
    Sources 0 (holdingTwo wordsSet) now keys twoSets := by
  obtain ⟨ha, hb, hnone⟩ := holdingTwo_keyIs wordsSet
  intro key _
  unfold twoSets
  split_ifs with h1 h2
  · rw [h1, ha.lookupKeyRead]
    exact .set numbersSet_sound
  · rw [h2, hb.lookupKeyRead]
    exact .set wordsSet_sound
  · rw [(hnone key h1 h2).lookupKeyRead]
    exact .missing

theorem exists_sound_card [Host] {N : ℕ} (hN : N < 2 ^ 63) :
    ∃ (v : SetVal) (X : Finset Sds), v.Sound X ∧ X.card = N := by
  have hrange : ∀ n ∈ range N, llongMin ≤ (n : ℤ) ∧ (n : ℤ) ≤ llongMax := fun n hn => by
    have := mem_range.mp hn
    unfold llongMin llongMax
    omega
  have hproper : ∀ e ∈ (range N).map fun n : ℕ => Elem.num n, e.Proper :=
    forall_mem_map.mpr hrange
  obtain ⟨v, -, -, hv⟩ := createIntsetObject_sound.addElems hproper 0 .init
  refine ⟨v, _, hv, ?_⟩
  rw [Finset.empty_union, map_map, toFinset_card_of_nodup, length_map, length_range]
  refine Nodup.map_on (fun m hm n hn h => ?_) nodup_range
  exact Int.ofNat.inj (ll2string_injOn (hrange m hm) (hrange n hn) h)

theorem inter_union_exact_two :
    let _ := Host.plain 1 1 Nat.one_pos
    RepliesSet 0 sinterCommand [ascii "sinter".toList, [97], [98]] 0 (fun _ => 0)
      (holdingTwo wordsSet)
        (intersection twoSets [97] [[98]]) ∧
      StoresSet 0 sinterstoreCommand [ascii "sinterstore".toList, [97], [97], [98]] 0 (fun _ => 0)
        (holdingTwo wordsSet) [97] (intersection twoSets [97] [[98]]) ∧
      RepliesSet 0 sunionCommand [ascii "sunion".toList, [97], [98]] 0 (fun _ => 0)
        (holdingTwo wordsSet) ([[97], [98]].toFinset.biUnion twoSets) ∧
      StoresSet 0 sunionstoreCommand [ascii "sunionstore".toList, [97], [97], [98]] 0 (fun _ => 0)
        (holdingTwo wordsSet) [97] ([[97], [98]].toFinset.biUnion twoSets) := by
  intro _
  exact (inter_union_exact_iff (holdingTwo_keyIs _).1.ok (holdingTwo_sources 0 [[97], [98]])
    (fun _ => 0)).mpr (by decide)

/-- The decimal numbers below `2 ^ 31` are the members of a set whose union is announced as a
negative number of members. -/
theorem sunion_negative_header :
    let _ := Host.plain 1 1 Nat.one_pos
    ∃ (s : Server) (X : Finset Sds), Sources 0 s 0 [[97]] (fun _ => X) ∧ X.card = 2147483648 ∧
      ∃ out s', call 0 sunionCommand [ascii "sunion".toList, [97]] 0 (fun _ => 0) s =
        some (out, s') ∧ out.head? = some (.multi (-2147483648)) := by
  intro _
  obtain ⟨v, X, hv, hX⟩ := exists_sound_card (N := 2147483648) (by decide)
  have hS : Sources 0 (Server.single 0 [97] (.set v)) 0 [[97]] fun _ => X := by
    intro key hkey
    obtain rfl := mem_singleton.mp hkey
    rw [(Server.single_keyIs 0 [97] _).lookupKeyRead]
    exact .set hv
  obtain ⟨out, s', hcall, ⟨l, -, -, rfl⟩, -⟩ := sunionDiff_sends hS (fun _ => 0) .union
  refine ⟨_, X, hS, hX, _, s', hcall, ?_⟩
  have hunion : ([[97]] : List Sds).toFinset.biUnion (fun _ => X) = X := Finset.singleton_biUnion
  have hwrap : int32 2147483648 = -2147483648 := by
    rw [int32]
    decide
  rw [head?_cons, sunionDiffResult, hunion, hX, Nat.cast_ofNat, hwrap]

theorem difference_exact_three :
    let _ := Host.plain 1 1 Nat.one_pos
    RepliesSet 0 sdiffCommand [ascii "sdiff".toList, [97], [98], [99]] 0 (fun _ => 0)
      (holdingTwo wordsSet)
        (difference twoSets [97] [[98], [99]]) ∧
      StoresSet 0 sdiffstoreCommand [ascii "sdiffstore".toList, [97], [97], [98], [99]]
        0 (fun _ => 0) (holdingTwo wordsSet) [97] (difference twoSets [97] [[98], [99]]) := by
  intro _
  have h := difference_exact_iff (holdingTwo_keyIs _).1.ok
    (holdingTwo_sources 0 [[97], [98], [99]]) fun _ => 0
  have hone : (workOf (sourceSize 0 (holdingTwo wordsSet) 0 twoSets) [[97], [98], [99]] 0
      ⟨0, 0, 0⟩).algoOne = true := by
    decide +kernel
  exact ⟨h.1.mpr ⟨.inl hone, by decide⟩, h.2.mpr (.inl hone)⟩

/-- Four sets: one of 1 to 4 and three of 1 alone.  The work of algorithm 1 is `16 / 2`, that of
algorithm 2 is 7, and the difference comes out empty. -/
theorem sdiff_empty :
    let _ := Host.plain 1 1 Nat.one_pos
    let serve := fun r : Cmd Unit × List Sds => call 0 r.1 r.2 0 fun _ => 0
    (serveAll serve
        [(saddCommand, [ascii "sadd".toList, [97], [49], [50], [51], [52]]),
          (saddCommand, [ascii "sadd".toList, [98], [49]]),
          (saddCommand, [ascii "sadd".toList, [99], [49]]),
          (saddCommand, [ascii "sadd".toList, [100], [49]]),
          (sdiffCommand, [ascii "sdiff".toList, [97], [98], [99]]),
          (sdiffCommand, [ascii "sdiff".toList, [97], [98], [99], [100]])]
        (Server.init 0)).map Prod.fst =
      some [[.int 4], [.int 1], [.int 1], [.int 1], [.multi 3, .bulk [50], .bulk [51], .bulk [52]],
        [.multi 0]] := by
  decide +kernel

end Vire
