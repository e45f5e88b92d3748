import Mathlib.Data.Finset.Basic
import Mathlib.Data.Finset.Card
import Vire.Keyspace.Proofs.Db
import Vire.Keyspace.Proofs.Intset
import Vire.Keyspace.Proofs.Object
import Vire.Keyspace.Type.Set

/-!
# A set is a finite set of byte strings

What the functions of the set type do is said in terms of a finite set of byte strings.  The three
notions of equality (integers in an intset, objects and hashes in a dictionary) agree with that of
byte strings.
-/

namespace Vire

open List Option

variable {o : Robj}

theorem Robj.Denotes.representable {s : Sds} (ho : o.Denotes s) :
    isObjectRepresentableAsLongLong o = string2ll s := by
  have htext := ho.text_eq
  unfold Robj.Denotes at ho
  unfold isObjectRepresentableAsLongLong
  rcases he : o.enc with t | t | i | _ <;> rw [he] at ho <;> simp only
  · rw [htext]
  · rw [htext]
  · rw [← ho.2.2, string2ll_ll2string ho.1 ho.2.1]
  · exact ho.elim

theorem createStringObjectFromLongLong_text (i : ℤ) (h : Heap) :
    text (createStringObjectFromLongLong i h).1 = ll2string i := by
  unfold createStringObjectFromLongLong
  split_ifs with hi
  · change ll2string (i.toNat : ℤ) = ll2string i
    rw [Int.toNat_of_nonneg hi.1]
  · rfl

def SetVal.texts (v : SetVal) : List Sds := (setTypeElems v).map Elem.text

theorem SetVal.texts_intset (is : Intset) :
    (SetVal.intset is).texts = is.contents.map ll2string := by
  simp [SetVal.texts, setTypeElems, Elem.text, Function.comp_def]

theorem SetVal.texts_ht (d : Dict Robj Unit) : (SetVal.ht d).texts = Vire.texts d.entries := by
  simp [SetVal.texts, setTypeElems, Elem.text, Vire.texts, Function.comp_def]

variable [Host]

def SetVal.Ok : SetVal → Prop
  | intset is => is.Ok
  | ht d => d.WF

structure SetVal.Is (v : SetVal) (S : Finset Sds) : Prop where
  ok : v.Ok
  mem_iff : ∀ s, s ∈ v.texts ↔ s ∈ S

variable {v v' : SetVal} {S : Finset Sds} {s : Sds} {is : Intset} {d : Dict Robj Unit}

theorem SetVal.Ok.nodup (h : v.Ok) : v.texts.Nodup := by
  cases v with
  | intset is =>
    rw [SetVal.texts_intset]
    refine Nodup.map_on (fun i hi j hj => ll2string_injOn (h.range hi) (h.range hj)) ?_
    exact h.sorted.imp ne_of_lt
  | ht d =>
    rw [SetVal.texts_ht]
    exact Dict.WF.nodup h

theorem SetVal.Ok.size_eq (h : v.Ok) : setTypeSize v = v.texts.length := by
  cases v with
  | intset is => rw [SetVal.texts_intset, length_map]; rfl
  | ht d => rw [SetVal.texts_ht, Vire.texts, length_map]; exact Dict.WF.size_eq h

theorem SetVal.Is.toFinset_eq (h : v.Is S) : v.texts.toFinset = S := by
  ext s
  rw [List.mem_toFinset, h.mem_iff]

theorem SetVal.Is.size_eq (h : v.Is S) : setTypeSize v = S.card := by
  rw [h.ok.size_eq, ← h.toFinset_eq, toFinset_card_of_nodup h.ok.nodup]

theorem SetVal.Is.of_perm (h : v.Is S) (hok : v'.Ok) (hp : v'.texts.Perm v.texts) : v'.Is S :=
  ⟨hok, fun s => hp.mem_iff.trans (h.mem_iff s)⟩

theorem SetVal.Is.insert (h : v.Is S) (hok : v'.Ok) (hp : v'.texts.Perm (s :: v.texts)) :
    v'.Is (Insert.insert s S) := by
  refine ⟨hok, fun x => ?_⟩
  rw [hp.mem_iff, mem_cons, h.mem_iff, Finset.mem_insert]

theorem SetVal.Is.erase (h : v.Is S) (hok : v'.Ok) (hp : v.texts.Perm (s :: v'.texts)) :
    v'.Is (S.erase s) := by
  have hnodup := hp.nodup_iff.mp h.ok.nodup
  refine ⟨hok, fun x => ?_⟩
  rw [Finset.mem_erase, ← h.mem_iff, hp.mem_iff, mem_cons]
  constructor
  · intro hx
    exact ⟨fun heq => (nodup_cons.mp hnodup).1 (heq ▸ hx), .inr hx⟩
  · rintro ⟨hne, heq | hx⟩
    · exact absurd heq hne
    · exact hx

variable {i : ℤ}

theorem SetVal.Is.mem_num (h : (SetVal.intset is).Is S) (hi : string2ll s = some i) :
    i ∈ is.contents ↔ s ∈ S := by
  obtain ⟨htext, hlo, hhi⟩ := ll2string_of_string2ll hi
  rw [← h.mem_iff, SetVal.texts_intset, List.mem_map]
  constructor
  · exact fun hmem => ⟨i, hmem, htext⟩
  · rintro ⟨j, hj, heq⟩
    have hok : is.Ok := h.ok
    rwa [← ll2string_injOn (hok.range hj) ⟨hlo, hhi⟩ (heq.trans htext.symm)]

theorem SetVal.Is.not_mem_of_string2ll (h : (SetVal.intset is).Is S) (hs : string2ll s = none) :
    s ∉ S := by
  rw [← h.mem_iff, SetVal.texts_intset, List.mem_map]
  rintro ⟨i, hi, rfl⟩
  have hok : is.Ok := h.ok
  rw [string2ll_ll2string (hok.range hi).1 (hok.range hi).2] at hs
  cases hs

theorem SetVal.Is.dict_isSome (h : (SetVal.ht d).Is S) (s : Sds) :
    (d.get s).isSome = true ↔ s ∈ S := by
  rw [Dict.get_isSome_iff, ← h.mem_iff, SetVal.texts_ht]

theorem SetVal.Is.setTypeIsMember (h : v.Is S) (ho : o.Denotes s) :
    setTypeIsMember v o = decide (s ∈ S) := by
  refine Bool.eq_iff_iff.mpr (Iff.trans ?_ decide_eq_true_iff.symm)
  cases v with
  | intset is =>
    have hok : is.Ok := h.ok
    simp only [Vire.setTypeIsMember, ho.representable]
    cases hs : string2ll s with
    | none => simp [h.not_mem_of_string2ll hs]
    | some i => simp only [intsetFind_iff hok, h.mem_num hs]
  | ht d =>
    have hok : d.WF := h.ok
    rw [Vire.setTypeIsMember, ho.text_eq, hok.dictFind_isSome, h.dict_isSome]

/-- The objects are ones that the functions of `vr_object.c` make. -/
def SetVal.Proper : SetVal → Prop
  | intset _ => True
  | ht d => ∀ e ∈ d.entries, e.1.Denotes (text e.1)

def Elem.Proper : Elem → Prop
  | num i => llongMin ≤ i ∧ i ≤ llongMax
  | obj o => o.Denotes (Text.text o)

/-- The intset is not too long and the dictionary has no more buckets than fit. -/
def SetVal.Small : SetVal → Prop
  | intset is => intsetLen is ≤ Host.setMaxIntsetEntries
  | ht d => d.Small

theorem SetVal.Proper.elems (hp : v.Proper) (hok : v.Ok) : ∀ e ∈ setTypeElems v, e.Proper := by
  intro e he
  cases v with
  | intset is =>
    obtain ⟨i, hi, rfl⟩ := List.mem_map.mp he
    exact hok.range hi
  | ht d =>
    obtain ⟨x, hx, rfl⟩ := List.mem_map.mp he
    exact hp x hx

variable {d' : Dict Robj Unit}

omit [Host] in
theorem SetVal.Proper.of_perm (hp : (SetVal.ht d).Proper)
    (hperm : d'.entries.Perm d.entries) : (SetVal.ht d').Proper :=
  fun e he => hp e (hperm.mem_iff.mp he)

theorem SetVal.Proper.dictAdd (hp : (SetVal.ht d).Proper) (hw : d.WF) (ho : o.Denotes s) :
    (SetVal.ht (Vire.dictAdd d o ()).1).Proper := by
  obtain ⟨-, -, -, hnew, hold⟩ := dictAdd_spec hw o ()
  cases h : assoc d.entries (text o) with
  | none =>
    intro e he
    rcases mem_cons.mp ((hnew h).mem_iff.mp he) with rfl | he
    · rw [ho.text_eq]
      exact ho
    · exact hp e he
  | some x => exact hp.of_perm (hold (by rw [h]; rfl))

theorem texts_dictAdd_new {V : Type} {d : Dict Robj V} (hw : d.WF) {k : Robj}
    (h : text k ∉ texts d.entries) (x : V) :
    (dictAdd d k x).2 = true ∧ (dictAdd d k x).1.WF ∧
      (texts (dictAdd d k x).1.entries).Perm (text k :: texts d.entries) := by
  obtain ⟨hw', -, hflag, hnew, -⟩ := dictAdd_spec hw k x
  have hnone := assoc_eq_none.mpr h
  rw [hnone] at hflag
  exact ⟨hflag, hw', (hnew hnone).map _⟩

theorem texts_dictAdd_old {V : Type} {d : Dict Robj V} (hw : d.WF) {k : Robj}
    (h : text k ∈ texts d.entries) (x : V) :
    (dictAdd d k x).2 = false ∧ (dictAdd d k x).1.WF ∧
      (texts (dictAdd d k x).1.entries).Perm (texts d.entries) := by
  obtain ⟨hw', -, hflag, -, hold⟩ := dictAdd_spec hw k x
  have hsome : (assoc d.entries (text k)).isSome = true :=
    isSome_iff_ne_none.mpr fun hnone => assoc_eq_none.mp hnone h
  rw [← not_isSome, hsome] at hflag
  exact ⟨hflag, hw', (hold hsome).map _⟩

theorem setTypeConvertLoop_some (l : List ℤ) (d : Dict Robj Unit) (h : Heap) (hw : d.WF)
    (hnodup : (l.map ll2string ++ texts d.entries).Nodup) :
    ∃ d' h', setTypeConvertLoop l d h = some (d', h') ∧ d'.WF ∧
      (texts d'.entries).Perm (l.map ll2string ++ texts d.entries) ∧
      ((∀ i ∈ l, llongMin ≤ i ∧ i ≤ llongMax) → (SetVal.ht d).Proper → (SetVal.ht d').Proper) ∧
      (d.size + l.length ≤ 2 ^ 30 → d.Small → d'.Small) := by
  induction l generalizing d h with
  | nil => exact ⟨d, h, rfl, hw, Perm.refl _, fun _ => id, fun _ => id⟩
  | cons i l ih =>
    obtain ⟨o, ho⟩ : ∃ o, o = createStringObjectFromLongLong i h := ⟨_, rfl⟩
    have htext : text o.1 = ll2string i := by rw [ho, createStringObjectFromLongLong_text]
    rw [map_cons, cons_append, nodup_cons] at hnodup
    have hnot : text o.1 ∉ texts d.entries := fun hmem =>
      hnodup.1 (mem_append_right _ (htext ▸ hmem))
    obtain ⟨hflag, hw', hperm⟩ := texts_dictAdd_new hw hnot ()
    have hmid : (l.map ll2string ++ texts (dictAdd d o.1 ()).1.entries).Perm
        (ll2string i :: (l.map ll2string ++ texts d.entries)) := by
      rw [htext] at hperm
      exact (hperm.append_left _).trans perm_middle
    obtain ⟨d', h', hrun, hwd', hperm', hproper, hsmall⟩ := ih (dictAdd d o.1 ()).1 o.2 hw'
      (hmid.nodup_iff.mpr (nodup_cons.mpr hnodup))
    refine ⟨d', h', ?_, hwd', hperm'.trans hmid, fun hl hp => ?_, fun hlen hs => ?_⟩
    · rw [setTypeConvertLoop, ← ho]
      simp only [hflag, if_true, hrun]
    · obtain ⟨hi, hl⟩ := forall_mem_cons.mp hl
      have hden := (Made.createStringObjectFromLongLong hi.1 hi.2 rfl h).denotes
      exact hproper hl (hp.dictAdd hw (ho ▸ hden))
    · have hadd := hw.size_dictAdd_le o.1 ()
      rw [length_cons] at hlen
      exact hsmall (by omega) (hs.add hw (by omega) _ _)

/-- The dictionary that `setTypeConvert` starts with. -/
theorem dictExpand_create (n : ℕ) :
    Dict.Same (.create : Dict Robj Unit) ((dictExpand .create n).getD .create) ∧
      (n ≤ 2 ^ 30 → ((dictExpand (.create : Dict Robj Unit) n).getD .create).Small) := by
  rcases he : dictExpand (.create : Dict Robj Unit) n with _ | d
  · exact ⟨Dict.wf_create.same, fun _ => Dict.small_create⟩
  · exact ⟨(dictExpand_same Dict.wf_create he).1, fun hn =>
      Dict.small_create.dictExpand (dictNextPower_le (by omega) (by decide)) he⟩

theorem setTypeConvert_some (hok : is.Ok) (h : Heap) :
    ∃ d' h', setTypeConvert is h = some (d', h') ∧ d'.WF ∧
      (texts d'.entries).Perm (SetVal.intset is).texts ∧ (SetVal.ht d').Proper ∧
      (intsetLen is ≤ 2 ^ 30 → d'.Small) := by
  obtain ⟨hsame, hsmall⟩ := dictExpand_create (intsetLen is)
  have hnil := perm_nil.mp hsame.perm
  have hempty :
      texts ((dictExpand (.create : Dict Robj Unit) (intsetLen is)).getD .create).entries = [] := by
    rw [hnil]
    rfl
  have hnodup : (SetVal.intset is).texts.Nodup := SetVal.Ok.nodup (v := .intset is) hok
  rw [SetVal.texts_intset] at hnodup ⊢
  obtain ⟨d', h', hrun, hw, hperm, hproper, hsmall'⟩ :=
    setTypeConvertLoop_some is.contents _ h hsame.wf (by rwa [hempty, append_nil])
  rw [hempty, append_nil] at hperm
  refine ⟨d', h', hrun, hw, hperm, hproper (fun i hi => hok.range hi) fun e he => ?_, fun hlen =>
    hsmall' ?_ (hsmall hlen)⟩
  · rw [hnil] at he
    cases he
  · rw [hsame.wf.size_eq, hnil]
    exact (Nat.zero_add _).trans_le hlen

theorem SetVal.Is.dictAdd (hS : (SetVal.ht d).Is S) (ho : o.Denotes s) :
    (Vire.dictAdd d o ()).2 = decide (s ∉ S) ∧
      (SetVal.ht (Vire.dictAdd d o ()).1).Is (Insert.insert s S) := by
  have htexts := hS.mem_iff s
  rw [SetVal.texts_ht, ← ho.text_eq] at htexts
  rw [← ho.text_eq]
  by_cases hs : text o ∈ S
  · obtain ⟨hflag, hw, hperm⟩ := texts_dictAdd_old hS.ok (htexts.mpr hs) ()
    refine ⟨by simp [hflag, hs], ?_⟩
    rw [Finset.insert_eq_of_mem hs]
    exact hS.of_perm hw (by rwa [SetVal.texts_ht, SetVal.texts_ht])
  · obtain ⟨hflag, hw, hperm⟩ := texts_dictAdd_new hS.ok (fun hmem => hs (htexts.mp hmem)) ()
    exact ⟨by simp [hflag, hs], hS.insert hw (by rwa [SetVal.texts_ht, SetVal.texts_ht])⟩

theorem SetVal.Is.setTypeConvert (hS : (SetVal.intset is).Is S) (h : Heap) :
    ∃ d' h', Vire.setTypeConvert is h = some (d', h') ∧ (SetVal.ht d').Is S ∧
      (SetVal.ht d').Proper ∧ (S.card ≤ 2 ^ 30 → d'.Small) := by
  obtain ⟨d', h', hrun, hw, hperm, hproper, hsmall⟩ := setTypeConvert_some hS.ok h
  exact ⟨d', h', hrun, hS.of_perm hw (by rwa [SetVal.texts_ht]), hproper, hS.size_eq ▸ hsmall⟩

theorem SetVal.Is.intsetAdd (hS : (SetVal.intset is).Is S) (hi : string2ll s = some i) :
    (Vire.intsetAdd is i).2 = decide (s ∉ S) ∧
      (SetVal.intset (Vire.intsetAdd is i).1).Is (Insert.insert s S) := by
  obtain ⟨htext, hlo, hhi⟩ := ll2string_of_string2ll hi
  rcases intsetAdd_spec hS.ok hlo hhi with ⟨hadd, hmem⟩ | ⟨hnot, is', hadd, hadded⟩
  · have hs := (hS.mem_num hi).mp hmem
    rw [hadd, Finset.insert_eq_of_mem hs]
    exact ⟨by simp [hs], hS⟩
  · have hs : s ∉ S := fun hs => hnot ((hS.mem_num hi).mpr hs)
    rw [hadd]
    refine ⟨by simp [hs], hS.insert hadded.ok ?_⟩
    rw [SetVal.texts_intset, SetVal.texts_intset, ← htext]
    exact hadded.perm.map ll2string

theorem SetVal.Is.setTypeAdd (hS : v.Is S) (ho : o.Denotes s) (h : Heap) :
    ∃ v' h', Vire.setTypeAdd v o h = some (decide (s ∉ S), v', h') ∧
      v'.Is (Insert.insert s S) ∧ (v.Proper → v'.Proper) ∧
      ((Insert.insert s S).card ≤ 2 ^ 30 → v.Small → v'.Small) := by
  have hle := Finset.card_le_card (Finset.subset_insert s S)
  cases v with
  | ht d =>
    have ho' := ho.dupStringObjectUnconstant h
    obtain ⟨hflag, hadd⟩ := hS.dictAdd ho'
    exact ⟨_, _,
      by rw [Vire.setTypeAdd, hflag], hadd, fun hp => hp.dictAdd hS.ok ho', fun hcard hs =>
      Dict.Sizes.add hs hS.ok (hS.size_eq.trans_le (hle.trans hcard)) _ ()⟩
  | intset is =>
    simp only [Vire.setTypeAdd, ho.representable]
    cases hi : string2ll s with
    | some i =>
      obtain ⟨hflag, hadd⟩ := hS.intsetAdd hi
      dsimp only
      rw [hflag]
      split_ifs with hlong
      · obtain ⟨d', h', hconv, hd', hproper, hsmall⟩ := hadd.setTypeConvert h
        exact ⟨_, _,
          by rw [hconv, hlong.1]; rfl, hd', fun _ => hproper, fun hcard _ => hsmall hcard⟩
      · refine ⟨_, _, rfl, hadd, fun _ => trivial, fun _ hs => ?_⟩
        by_cases hs' : s ∈ S
        · have hlen : intsetLen (Vire.intsetAdd is i).1 = intsetLen is :=
            hadd.size_eq.trans ((congrArg Finset.card (Finset.insert_eq_of_mem hs')).trans
              hS.size_eq.symm)
          exact hlen.trans_le hs
        · exact not_lt.mp fun hlt => hlong ⟨decide_eq_true hs', hlt⟩
    | none =>
      obtain ⟨d', h', hconv, hd', hproper, hsmall⟩ := hS.setTypeConvert h
      have hs := hS.not_mem_of_string2ll hi
      have ho' := ho.dupStringObjectUnconstant h'
      obtain ⟨hflag, hadd⟩ := hd'.dictAdd ho'
      refine ⟨_, (Vire.dupStringObjectUnconstant o h').2, ?_, hadd,
        fun _ => hproper.dictAdd hd'.ok ho', fun hcard _ => ?_⟩
      · simp [hconv, hflag, hs]
      · exact (hsmall (hle.trans hcard)).add hd'.ok (hd'.size_eq.trans_le (hle.trans hcard)) _ ()

theorem setTypeCreate_is (o : Robj) : (setTypeCreate o).Is ∅ := by
  unfold setTypeCreate
  split_ifs
  · exact ⟨intsetNew_ok, fun s => by simp [createIntsetObject, SetVal.texts_intset, intsetNew]⟩
  · exact ⟨Dict.wf_create, fun s =>
      by simp [createSetObject, SetVal.texts_ht, texts, Dict.entries_create]⟩

theorem SetVal.Is.intsetRemove (hS : (SetVal.intset is).Is S) (hi : string2ll s = some i) :
    (Vire.intsetRemove is i).2 = decide (s ∈ S) ∧
      (SetVal.intset (Vire.intsetRemove is i).1).Is (S.erase s) := by
  obtain ⟨htext, hlo, hhi⟩ := ll2string_of_string2ll hi
  rcases intsetRemove_spec hS.ok i with ⟨hrem, hnot⟩ | ⟨hmem, is', hrem, hok, hperm⟩
  · have hs : s ∉ S := fun hs => hnot ((hS.mem_num hi).mpr hs)
    rw [hrem, Finset.erase_eq_of_notMem hs]
    exact ⟨by simp [hs], hS⟩
  · have hs := (hS.mem_num hi).mp hmem
    rw [hrem]
    refine ⟨by simp [hs], hS.erase hok ?_⟩
    rw [SetVal.texts_intset, SetVal.texts_intset, ← htext]
    exact hperm.map ll2string

theorem SetVal.Is.dictDelete (hS : (SetVal.ht d).Is S) (s : Sds) :
    (Vire.dictDelete d s).2.isSome = decide (s ∈ S) ∧
      (SetVal.ht (Vire.dictDelete d s).1).Is (S.erase s) := by
  obtain ⟨hw, -, hret, hnone, hsome⟩ := dictDelete_spec hS.ok s
  have htexts := hS.mem_iff s
  rw [SetVal.texts_ht] at htexts
  rw [hret]
  rcases he : assoc d.entries s with _ | e
  · have hs : s ∉ S := fun hs => assoc_eq_none.mp he (htexts.mpr hs)
    rw [Finset.erase_eq_of_notMem hs]
    refine ⟨by simp [hs], hS.of_perm hw ?_⟩
    rw [SetVal.texts_ht, SetVal.texts_ht]
    exact (hnone he).map _
  · have hs : s ∈ S := htexts.mp (by
      by_contra hnot
      rw [assoc_eq_none.mpr hnot] at he
      cases he)
    refine ⟨by simp [hs], hS.erase hw ?_⟩
    have hperm := (hsome e he).map fun e => text e.1
    rw [map_cons, (mem_of_assoc he).2] at hperm
    rwa [SetVal.texts_ht, SetVal.texts_ht]

theorem SetVal.Is.setTypeRemove_ht (hS : (SetVal.ht d).Is S) (o : Robj) (h : Heap) :
    (Vire.setTypeRemove (.ht d) o h).1 = decide (text o ∈ S) ∧
      (Vire.setTypeRemove (.ht d) o h).2.1.Is (S.erase (text o)) ∧
      ((SetVal.ht d).Proper → (Vire.setTypeRemove (.ht d) o h).2.1.Proper) ∧
      (d.Small → (Vire.setTypeRemove (.ht d) o h).2.1.Small) := by
  obtain ⟨hflag, hdel⟩ := hS.dictDelete (text o)
  have hproper : (SetVal.ht d).Proper → (SetVal.ht (Vire.dictDelete d (text o)).1).Proper := by
    intro hp
    obtain ⟨-, -, -, hnone, hsome⟩ := dictDelete_spec hS.ok (text o)
    cases he : assoc d.entries (text o) with
    | none => exact hp.of_perm (hnone he)
    | some e => exact fun x hx => hp x ((hsome e he).mem_iff.mpr (mem_cons_of_mem _ hx))
  refine ⟨hflag, ?_⟩
  simp only [Vire.setTypeRemove]
  split_ifs
  · have hsame := resizeIfNeeded_same (d := (Vire.dictDelete d (text o)).1) hdel.ok
    refine ⟨hdel.of_perm hsame.wf ?_, fun hp => (hproper hp).of_perm hsame.perm,
      fun hs => (Dict.Sizes.delete hs (text o)).resizeIfNeeded⟩
    rw [SetVal.texts_ht, SetVal.texts_ht]
    exact hsame.perm.map _
  · exact ⟨hdel, hproper, fun hs => Dict.Sizes.delete hs (text o)⟩

omit [Host] in
theorem intsetRemove_len_le (hok : is.Ok) (i : ℤ) :
    intsetLen (intsetRemove is i).1 ≤ intsetLen is := by
  rcases intsetRemove_spec hok i with ⟨hrem, -⟩ | ⟨-, is', hrem, -, hperm⟩
  · rw [hrem]
  · rw [hrem, intsetLen, intsetLen, hperm.length_eq]
    exact Nat.le_succ _

theorem SetVal.Is.setTypeRemove (hS : v.Is S) (ho : o.Denotes s) (h : Heap) :
    (Vire.setTypeRemove v o h).1 = decide (s ∈ S) ∧
      (Vire.setTypeRemove v o h).2.1.Is (S.erase s) ∧
      (v.Proper → (Vire.setTypeRemove v o h).2.1.Proper) ∧
      (v.Small → (Vire.setTypeRemove v o h).2.1.Small) := by
  cases v with
  | ht d =>
    rw [← ho.text_eq]
    exact hS.setTypeRemove_ht o h
  | intset is =>
    simp only [Vire.setTypeRemove, ho.representable]
    cases hi : string2ll s with
    | some i =>
      obtain ⟨hflag, hrem⟩ := hS.intsetRemove hi
      exact ⟨hflag, hrem, fun _ => trivial, (intsetRemove_len_le hS.ok i).trans⟩
    | none =>
      have hs := hS.not_mem_of_string2ll hi
      rw [Finset.erase_eq_of_notMem hs]
      exact ⟨by simp [hs], hS, id, id⟩

theorem SetVal.Is.text_mem (hS : v.Is S) {e : Elem} (he : e ∈ setTypeElems v) : e.text ∈ S :=
  (hS.mem_iff _).mp (mem_map_of_mem he)

theorem SetVal.Is.setTypeRandomElement (hS : v.Is S) (hne : S.Nonempty) (r : ℕ) :
    ∃ e, (Vire.setTypeRandomElement v r).1 = some e ∧ e ∈ setTypeElems v ∧
      (Vire.setTypeRandomElement v r).2.Is S ∧
      (v.Proper → (Vire.setTypeRandomElement v r).2.Proper) ∧
      (v.Small → (Vire.setTypeRandomElement v r).2.Small) := by
  have hpos : setTypeSize v ≠ 0 := by
    rw [hS.size_eq]
    exact (Finset.card_pos.mpr hne).ne'
  cases v with
  | ht d =>
    have hw : d.WF := hS.ok
    obtain ⟨hsame, hmem⟩ := dictGetRandomKey_spec hw r
    obtain ⟨e, he⟩ := isSome_iff_exists.mp (dictGetRandomKey_isSome hw hpos r)
    refine ⟨.obj e.1, by simp [Vire.setTypeRandomElement, he], mem_map_of_mem (hmem e he),
      hS.of_perm hsame.wf ?_, fun hp => hp.of_perm hsame.perm, fun hs => Dict.Sizes.randomKey hs r⟩
    simp only [Vire.setTypeRandomElement, SetVal.texts_ht]
    exact hsame.perm.map _
  | intset is =>
    have hlt : r % intsetLen is < is.contents.length := Nat.mod_lt _ (Nat.pos_of_ne_zero hpos)
    exact ⟨_, rfl, mem_map_of_mem (Intset.mem_iff.mpr ⟨_, hlt, rfl⟩), hS, id, id⟩

/-- A dictionary of so many members has at most `2 ^ 31` buckets, and an intset takes less than
`2 ^ 32` bytes: it has few members, or it is not allowed more. -/
def SetRoom (S : Finset Sds) : Prop :=
  S.card ≤ 2 ^ 30 ∧ (S.card < 2 ^ 29 ∨ Host.setMaxIntsetEntries + 1 < 2 ^ 29)

theorem SetRoom.mono {T : Finset Sds} (h : SetRoom T) (hsub : S ⊆ T) : SetRoom S := by
  have hle := Finset.card_le_card hsub
  exact ⟨hle.trans h.1, h.2.imp_left hle.trans_lt⟩

theorem setTypeCreate_small (o : Robj) : (setTypeCreate o).Small := by
  unfold setTypeCreate
  split_ifs
  · exact Nat.zero_le _
  · exact Dict.small_create

theorem SetVal.Is.hasRoom (hS : v.Is S) (hs : v.Small) (ho : o.Denotes s)
    (hroom : SetRoom (Insert.insert s S)) : setTypeHasRoom v o = true := by
  have hsize := hS.size_eq
  have hle := Finset.card_le_card (Finset.subset_insert s S)
  cases v with
  | ht d =>
    have hidx := hs.dictAddIndex_lt hS.ok (hsize.trans_le (hle.trans hroom.1)) o
    simp only [setTypeHasRoom, Bool.or_eq_true, decide_eq_true_eq]
    exact .inr hidx
  | intset is =>
    simp only [setTypeHasRoom, ho.representable]
    cases hi : string2ll s with
    | none => rfl
    | some i =>
      rw [Bool.or_eq_true, decide_eq_true_eq, intsetFind_iff hS.ok, hS.mem_num hi]
      refine or_iff_not_imp_left.mpr fun hnot => ?_
      have hlen : intsetLen is + 1 < 2 ^ 29 := by
        have hcard := Finset.card_insert_of_notMem hnot
        have hlen : intsetLen is = S.card := hsize
        have hmax : intsetLen is ≤ Host.setMaxIntsetEntries := hs
        rcases hroom.2 with h | h <;> omega
      calc (intsetLen is + 1) * max is.encoding.bytes (intsetValueEncoding i).bytes
          ≤ (intsetLen is + 1) * 8 :=
            Nat.mul_le_mul_left _ (max_le (IntsetEnc.bytes_le _) (IntsetEnc.bytes_le _))
        _ < 2 ^ 32 := by omega

structure SetVal.Holds (v : SetVal) (S : Finset Sds) : Prop extends v.Is S where
  small : v.Small

end Vire
