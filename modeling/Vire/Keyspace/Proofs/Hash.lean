import Vire.Keyspace.Proofs.Db
import Vire.Keyspace.Proofs.Ziplist
import Vire.Keyspace.Type.Hash
import Vire.Logic.Enumerates

/-!
# A hash is a finite map of byte strings

In both encodings the value of a hash stands for a finite map from byte strings to byte strings, and
what the functions of the hash type do is said in terms of it.
-/

namespace Vire

open Function List Option

open Logic (Enumerates)

variable [Host]

def dictPairs (d : Dict Robj Robj) : List (Sds × Sds) := d.entries.map fun e => (text e.1, text e.2)

/-- The value stands for the map, whatever its entries and objects look like. -/
inductive HashVal.Has : HashVal → (Sds → Option Sds) → Prop
  | ziplist {zl : Ziplist} {ps : List (Sds × Sds)} {m : Sds → Option Sds} (hps : Enumerates ps m)
      (hzl : Flat zl ps) : Has (.ziplist zl) m
  | ht {d : Dict Robj Robj} {m : Sds → Option Sds} (hw : d.WF)
    (hget : ∀ f, (d.get f).map text = m f) :
    Has (.ht d) m

variable {v v' : HashVal} {m : Sds → Option Sds} {f x : Sds} {d : Dict Robj Robj}

theorem Dict.WF.enumerates (hw : d.WF) : Enumerates (dictPairs d) fun f => (d.get f).map text where
  nodup := by
    rw [dictPairs, List.map_map]
    exact hw.nodup
  mem_iff f x := by
    rw [dictPairs, List.mem_map, Dict.get, Option.map_map, map_eq_some_iff]
    constructor
    · rintro ⟨e, he, heq⟩
      cases heq
      exact ⟨e, (assoc_eq_some hw.nodup).mpr ⟨he, rfl⟩, rfl⟩
    · rintro ⟨e, he, rfl⟩
      obtain ⟨hmem, htext⟩ := mem_of_assoc he
      exact ⟨e, hmem, by rw [htext]; rfl⟩

variable {ps : List (Sds × Sds)} {zl : Ziplist}

omit [Host] in
theorem Flat.ziplistPairs (h : Flat zl ps) :
    Vire.ziplistPairs zl = some (ps.map fun p => (zipEntry p.1, zipEntry p.2)) := by
  induction ps generalizing zl with
  | nil =>
    obtain rfl : zl = [] := map_eq_nil_iff.mp h
    rfl
  | cons p ps ih =>
    obtain ⟨w, w', zl, rfl, hzl⟩ := cons_iff.mp h
    rw [Vire.ziplistPairs, ih hzl]
    rfl

theorem HashVal.Has.pairs (h : v.Has m) :
    ∃ l, Enumerates l m ∧ hashTypeLength v = l.length ∧
      ∃ ps, hashTypePairs v = some ps ∧ ps.map (fun p => (p.1.text, p.2.text)) = l := by
  cases h with
  | @ziplist zl ps _ hps hzl =>
    refine ⟨ps, hps, by rw [hashTypeLength, hzl.length_eq]; omega, _,
      by rw [hashTypePairs, hzl.ziplistPairs]; rfl, ?_⟩
    simp [HashItem.text, comp_def]
  | @ht d _ hw hget =>
    refine ⟨dictPairs d, ?_, ?_, _, rfl, ?_⟩
    · have := hw.enumerates
      rwa [funext hget] at this
    · rw [hashTypeLength, hw.size_eq, dictPairs, length_map]
    · rw [List.map_map]
      rfl

theorem HashVal.Has.length_eq_zero (h : v.Has m) : hashTypeLength v = 0 ↔ m = fun _ => none := by
  obtain ⟨l, hl, hlen, -⟩ := h.pairs
  rw [hlen, length_eq_zero_iff, hl.eq_nil_iff, funext_iff]

theorem HashVal.Has.of_update (hget : ∀ f, (d.get f).map text = m f) {d' : Dict Robj Robj}
    {o : Option Robj} (hw' : d'.WF) (hget' : d'.get = Function.update d.get f o) :
    (HashVal.ht d').Has (Function.update m f (o.map text)) := by
  refine .ht hw' fun f' => ?_
  rw [hget']
  by_cases hf : f' = f
  · rw [hf, update_self, update_self]
  · rw [update_of_ne hf, update_of_ne hf, hget]

/-- The objects of the values are ones that the functions of `vr_object.c` make. -/
def HashVal.Proper : HashVal → Prop
  | ziplist _ => True
  | ht d => ∀ f o, d.get f = some o → o.Denotes (text o)

omit [Host] in
theorem HashVal.Proper.of_update (h : (HashVal.ht d).Proper) {d' : Dict Robj Robj} {o : Robj}
    (ho : o.Denotes x)
    (hget' : d'.get = Function.update d.get f (some o)) : (HashVal.ht d').Proper := by
  intro f' o' ho'
  rw [hget'] at ho'
  by_cases hf : f' = f
  · rw [hf, update_self, some.injEq] at ho'
    rw [← ho', ho.text_eq]
    exact ho
  · rw [update_of_ne hf] at ho'
    exact h f' o' ho'

def HashVal.Takes (v : HashVal) (s : Sds) : Prop :=
  match v with
  | .ziplist _ => Short s
  | .ht _ => True

/-- A ziplist has short entries only. -/
def HashVal.Shorts : HashVal → Prop
  | ziplist zl => ∀ s ∈ zl.map text, Short s
  | ht _ => True

/-- The ziplist is not too long and the dictionary has no more buckets than fit. -/
def HashVal.Small : HashVal → Prop
  | ziplist zl => zl.length / 2 ≤ Host.hashMaxZiplistEntries
  | ht d => d.Small

/-- The replies and the dictionary of so many fields are counted right, and a ziplist takes less
than `2 ^ 32` bytes: there are few fields, or it is not allowed more. -/
def HashRoom (m : Sds → Option Sds) : Prop :=
  ∃ l, Enumerates l m ∧ l.length < 2 ^ 30 ∧
    (148 * l.length + 11 < 2 ^ 32 ∨ 148 * (Host.hashMaxZiplistEntries + 1) + 11 < 2 ^ 32)

variable {l : List (Sds × Sds)} {m' : Sds → Option Sds}

omit [Host] in
theorem isSome_update {k : Sds} (h : (m k).isSome = true) (f x : Sds) :
    (Function.update m f (some x) k).isSome = true := by
  by_cases hk : k = f
  · rw [hk, update_self]
    rfl
  · rwa [update_of_ne hk]

theorem HashRoom.length_lt (h : HashRoom m) (hl : Enumerates l m) : l.length < 2 ^ 30 := by
  obtain ⟨l', hl', hlt, -⟩ := h
  rwa [hl.length_eq hl']

theorem HashRoom.mono (h : HashRoom m') (hl : Enumerates l m)
    (hsub : ∀ k, (m k).isSome = true → (m' k).isSome = true) : HashRoom m := by
  obtain ⟨l', hl', hlt, hbytes⟩ := h
  have hle := hl.length_le hl' hsub
  exact ⟨l, hl, hle.trans_lt hlt, hbytes.imp_left fun h => by omega⟩

theorem Dict.WF.size_lt (hw : d.WF) (hget : ∀ f, (d.get f).map text = m f) (h : HashRoom m) :
    d.size < 2 ^ 30 := by
  have hlen := h.length_lt (funext hget ▸ hw.enumerates)
  rwa [dictPairs, length_map, ← hw.size_eq] at hlen

theorem createHashObject_has : createHashObject.Has fun _ => none := .ziplist .nil rfl

/-- An entry made of a string, or an object that the functions of `vr_object.c` make. -/
def HashItem.Proper : HashItem → Prop
  | entry e => e = zipEntry (Text.text e)
  | obj o => o.Denotes (Text.text o)

theorem HashVal.Has.hashTypeGet (h : v.Has m) {field : Robj} (hf : field.Denotes f) (heap : Heap) :
    ∃ item heap', Vire.hashTypeGet v field heap = some (item, heap') ∧
      item.map HashItem.text = m f ∧ (v.Proper → ∀ i ∈ item, i.Proper) := by
  cases h with
  | @ziplist zl ps _ hps hzl =>
    have hdec := (hf.getDecodedObject heap).text_eq
    simp only [Vire.hashTypeGet, hashTypeGetFromZiplist, hdec]
    cases hm : m f with
    | none =>
      rw [hzl.find_none (hps.not_mem_keys hm)]
      exact ⟨none, _, rfl, rfl, fun _ _ hi => by cases hi⟩
    | some x =>
      obtain ⟨ps1, ps2, rfl, hnot⟩ := hps.split hm
      rw [hzl.find_some hnot]
      simp only [hzl.get_value]
      refine ⟨some (.entry (zipEntry x)), _, rfl, by simp [HashItem.text], fun _ i hi => ?_⟩
      cases hi
      exact congrArg zipEntry (text_zipEntry x).symm
  | @ht d _ hw hget =>
    have hfind : hashTypeGetFromHashTable d field = d.get f := by
      rw [hashTypeGetFromHashTable, hf.text_eq, hw.dictFind_map]
    refine ⟨_, heap, rfl, ?_, fun hp i hi => ?_⟩
    · rw [hfind, Option.map_map, ← hget]
      rfl
    · rw [hfind] at hi
      obtain ⟨o, ho, rfl⟩ := mem_map.mp hi
      exact hp f o ho

omit [Host] in
theorem stringObjectLen_eq (o : Robj) : stringObjectLen o = (text o).length := by
  have htext : text o = o.enc.text := rfl
  rcases he : o.enc with t | t | i | _ <;> simp only [stringObjectLen, htext, he]
  exact sdigits10_eq i

omit [Host] in
theorem hashTypeGetValueLength_eq (item : Option HashItem) :
    hashTypeGetValueLength item = ((item.map HashItem.text).map length).getD 0 := by
  rcases item with _ | ⟨⟨s | i⟩ | o⟩
  · rfl
  · rfl
  · exact sdigits10_eq i
  · exact stringObjectLen_eq o

theorem hashTypeConvertLoop_some (ps l : List (Sds × Sds)) (d : Dict Robj Robj) (heap : Heap)
    (hzl : Flat zl ps) (hw : d.WF) (hl : Enumerates l fun f => (d.get f).map text)
    (hm : Enumerates (ps ++ l) m) :
    ∃ d' heap', hashTypeConvertLoop zl d heap = some (d', heap') ∧ (HashVal.ht d').Has m ∧
      ((HashVal.ht d).Proper → (HashVal.ht d').Proper) ∧
      (d.Small → ps.length + l.length ≤ 2 ^ 30 → d'.Small) := by
  induction ps generalizing zl l d heap with
  | nil =>
    obtain rfl : zl = [] := map_eq_nil_iff.mp hzl
    exact ⟨d, heap, rfl, .ht hw fun f => congrFun (hl.map_eq hm) f, id, fun hs _ => hs⟩
  | cons p ps ih =>
    obtain ⟨f, x⟩ := p
    obtain ⟨w, w', zl', rfl, hzl'⟩ := Flat.cons_iff.mp hzl
    rw [hashTypeConvertLoop]
    obtain ⟨field, hfield⟩ : ∃ o, o = tryObjectEncoding ((zipEntry f).object heap).1
        ((zipEntry f).object heap).2 := ⟨_, rfl⟩
    obtain ⟨value, hvalue⟩ : ∃ o, o = tryObjectEncoding ((zipEntry x).object field.2).1
        ((zipEntry x).object field.2).2 := ⟨_, rfl⟩
    have hf : text field.1 = f :=
      hfield ▸ ((zipEntry_object_denotes f heap).tryObjectEncoding _).text_eq
    have hx : value.1.Denotes x := hvalue ▸ (zipEntry_object_denotes x field.2).tryObjectEncoding _
    have hnone : (d.get f).map text = none := by
      have hnodup := hm.nodup
      rw [cons_append, map_cons, nodup_cons, map_append, mem_append] at hnodup
      rw [← not_isSome_iff_eq_none]
      exact fun hsome => hnodup.1 (.inr (hl.mem_keys_iff.mpr hsome))
    have hnew : d.get (text field.1) = none := by rwa [hf, ← map_eq_none_iff]
    have hflag : (dictAdd d field.1 value.1).2 = true := by rw [dictAdd_flag hw, hnew]; rfl
    have hget := get_dictAdd hw field.1 value.1 hnew
    simp only [← hfield, ← hvalue, hflag, if_true]
    rw [hf] at hget
    have hl' :
        Enumerates ((f, x) :: l) fun f => ((dictAdd d field.1 value.1).1.get f).map text := by
      rw [hget]
      change Enumerates _ (Option.map text ∘ Function.update d.get f (some value.1))
      rw [comp_update, map_some, hx.text_eq]
      exact hl.cons hnone x
    obtain ⟨d', heap', hrun, hhas, hproper, hsmall⟩ := ih ((f, x) :: l) _ value.2 hzl'
      (dictAdd_spec hw field.1 value.1).1 hl' (hm.perm perm_middle)
    refine ⟨d', heap', hrun, hhas, fun hp => hproper (hp.of_update hx hget), fun hs hlen => ?_⟩
    have hsize : d.size = l.length := by
      rw [hw.size_eq, ← hw.enumerates.length_eq hl, dictPairs, length_map]
    rw [length_cons] at hlen hsmall
    exact hsmall (hs.add hw (by omega) _ _) (by omega)

theorem hashTypeConvert_some (hzl : Flat zl ps) (hps : Enumerates ps m)
    (heap : Heap) : ∃ d' heap', hashTypeConvert zl heap = some (.ht d', heap') ∧
    (HashVal.ht d').Has m ∧
      (HashVal.ht d').Proper ∧ (HashRoom m → d'.Small) := by
  obtain ⟨d', heap', hrun, hd', hproper, hsmall⟩ :=
    hashTypeConvertLoop_some ps [] .create heap hzl Dict.wf_create .nil (by rwa [append_nil])
  refine ⟨d', heap', by rw [hashTypeConvert, hrun]; rfl, hd', hproper fun f o ho => by simp at ho,
    fun hroom => hsmall Dict.small_create (hroom.length_lt hps).le⟩

theorem HashVal.Has.hashTypeTryConversion (hlimit : Host.hashMaxZiplistValue ≤ 64) (h : v.Has m)
    (args : List Robj) (heap : Heap) :
    ∃ v' heap', Vire.hashTypeTryConversion v args heap = some (v', heap') ∧ v'.Has m ∧
      (∀ a ∈ args, ∀ s, a.Denotes s → v'.Takes s) ∧ (v.Shorts → v'.Shorts) ∧
      (HashRoom m → v.Small → v'.Small) := by
  cases h with
  | ht hw hget => exact ⟨_, _, rfl, .ht hw hget, fun _ _ _ _ => trivial, id, fun _ => id⟩
  | ziplist hps hzl =>
    unfold Vire.hashTypeTryConversion
    split_ifs with hany
    · obtain ⟨d', heap', hconv, hd', -, hsmall⟩ := hashTypeConvert_some hzl hps heap
      exact ⟨.ht d', heap', hconv, hd', fun _ _ _ _ => trivial, fun _ => trivial,
        fun hroom _ => hsmall hroom⟩
    · refine ⟨_, _, rfl, .ziplist hps hzl, fun a ha s hs => hs.short ?_, id, fun _ => id⟩
      intro hsds
      have hle : (text a).length ≤ Host.hashMaxZiplistValue := by
        by_contra hlt
        exact hany (any_eq_true.mpr ⟨a, ha, by simpa [hsds] using hlt⟩)
      omega

variable {field value : Robj}

theorem hashTypeSet_ht (hw : d.WF) (hget : ∀ f, (d.get f).map text = m f)
    (hf : field.Denotes f) (hx : value.Denotes x) (heap : Heap) :
    ∃ d' heap', Vire.hashTypeSet (.ht d) field value heap = some ((m f).isSome, .ht d', heap') ∧
      (HashVal.ht d').Has (Function.update m f (some x)) ∧
      ((HashVal.ht d).Proper → (HashVal.ht d').Proper) ∧
      (d.size ≤ 2 ^ 30 → d.Small → d'.Small) := by
  obtain ⟨fieldNew, hfield⟩ : ∃ o, o = dupStringObjectUnconstant field heap := ⟨_, rfl⟩
  obtain ⟨valueNew, hvalue⟩ : ∃ o, o = dupStringObjectUnconstant value fieldNew.2 := ⟨_, rfl⟩
  have hf' : text fieldNew.1 = f := hfield ▸ (hf.dupStringObjectUnconstant heap).text_eq
  have hx' : valueNew.1.Denotes x := hvalue ▸ hx.dupStringObjectUnconstant fieldNew.2
  obtain ⟨hw', hget'⟩ := get_dictReplace hw fieldNew.1 valueNew.1
  rw [hf'] at hget'
  have hhas := HashVal.Has.of_update hget hw' hget'
  rw [map_some, hx'.text_eq] at hhas
  have hold : (dictFind d f).isSome = (m f).isSome := by
    rw [hw.dictFind_isSome, ← hget, isSome_map]
  simp only [Vire.hashTypeSet, ← hfield, ← hvalue, hf', ← hold]
  cases dictFind d f with
  | none =>
    exact ⟨_, _, rfl, hhas, fun hp => hp.of_update hx' hget', fun hn hs => hs.replace hw hn _ _⟩
  | some e =>
    exact ⟨_, _, rfl, hhas, fun hp => hp.of_update hx' hget', fun hn hs => hs.replace hw hn _ _⟩

omit [Host] in
theorem Flat.hashZiplistSet (hzl : Flat zl ps) (hps : Enumerates ps m) (f x : Sds) :
    ∃ zl' ps', Vire.hashZiplistSet zl f x = some (zl', (m f).isSome) ∧ Flat zl' ps' ∧
      Enumerates ps' (Function.update m f (some x)) ∧ flatPairs ps' ⊆ f :: x :: flatPairs ps := by
  unfold Vire.hashZiplistSet
  cases hm : m f with
  | none =>
    obtain ⟨zl1, hpush1, hzl1⟩ := contents_push_tail zl f
    obtain ⟨zl2, hpush2, hzl2⟩ := contents_push_tail zl1 x
    rw [hzl.find_none (hps.not_mem_keys hm)]
    refine ⟨zl2, ps ++ [(f, x)], ?_, ?_, (hps.cons hm x).perm (perm_append_singleton ..), ?_⟩
    · rw [hpush1, bind_some, hpush2]
      rfl
    · rw [Flat, hzl2, hzl1, hzl]
      simp
    · intro s
      simp
      tauto
  | some y =>
    obtain ⟨ps1, ps2, rfl, hnot⟩ := hps.split hm
    have hlen := hzl.length_eq
    rw [length_append, length_cons] at hlen
    obtain ⟨zl', hins⟩ := ziplistInsert_delete_some zl (p := 2 * ps1.length + 1) (by omega) x
    rw [hzl.find_some hnot]
    refine ⟨zl', ps1 ++ (f, x) :: ps2, ?_, ?_, hps.replace x, ?_⟩
    · dsimp only
      rw [if_pos (by omega), hins]
      rfl
    · have hset : (flatPairs (ps1 ++ (f, y) :: ps2)).set (2 * ps1.length + 1) x =
          flatPairs (ps1 ++ (f, x) :: ps2) := by
        rw [flatPairs_append, flatPairs_append, ← length_flatPairs ps1,
          set_append_right _ _ (Nat.le_succ _),
          flatPairs_cons, flatPairs_cons, Nat.succ_sub (Nat.le_refl _), Nat.sub_self]
        rfl
      rw [Flat, ← hset, contents_replace (by omega) hins, show zl.map Zlentry.content =
        _ from hzl, map_set]
    · intro s
      simp
      tauto

omit [Host] in
theorem HashVal.Shorts.of_subset {zl' : Ziplist} {ps' : List (Sds × Sds)} (hzl : Flat zl ps)
    (hzl' : Flat zl' ps') (hsub : flatPairs ps' ⊆ f :: x :: flatPairs ps) (hf : Short f)
    (hx : Short x) (h : (HashVal.ziplist zl).Shorts) : (HashVal.ziplist zl').Shorts := by
  intro s hs
  rw [hzl'.map_text] at hs
  rcases mem_cons.mp (hsub hs) with rfl | hs
  · exact hf
  · rcases mem_cons.mp hs with rfl | hs
    · exact hx
    · exact h s (by rwa [hzl.map_text])

theorem HashVal.Has.hashTypeSet (h : v.Has m) (hf : field.Denotes f) (hx : value.Denotes x)
    (heap : Heap) :
    ∃ v' heap', Vire.hashTypeSet v field value heap = some ((m f).isSome, v', heap') ∧
      v'.Has (Function.update m f (some x)) ∧ (v.Proper → v'.Proper) ∧
      (∀ s, v.Takes s → v'.Takes s) ∧ (v.Takes f → v.Takes x → v.Shorts → v'.Shorts) ∧
      (HashRoom (Function.update m f (some x)) → v.Small → v'.Small) := by
  cases h with
  | @ziplist zl ps _ hps hzl =>
    obtain ⟨zl', ps', hset, hzl', hps', hsub⟩ := hzl.hashZiplistSet hps f x
    simp only [Vire.hashTypeSet, (hf.getDecodedObject heap).text_eq,
      (hx.getDecodedObject _).text_eq, hset, bind_some]
    split_ifs with hlong
    · obtain ⟨d', heap', hconv, hd', hproper, hsmall⟩ := hashTypeConvert_some hzl' hps' (freeDecoded
        (getDecodedObject value (getDecodedObject field heap).2).1 value (freeDecoded
          (getDecodedObject field heap).1 field
            (getDecodedObject value (getDecodedObject field heap).2).2))
      exact ⟨.ht d', heap', by rw [hconv]; rfl, hd', fun _ => hproper, fun _ _ => trivial,
        fun _ _ _ => trivial, fun hroom _ => hsmall hroom⟩
    · exact ⟨_, _, rfl, .ziplist hps' hzl', fun _ => trivial, fun _ hs => hs,
        Shorts.of_subset hzl hzl' hsub, fun _ _ => not_lt.mp hlong⟩
  | @ht d _ hw hget =>
    obtain ⟨d', heap', hset, hd', hproper, hsmall⟩ := hashTypeSet_ht hw hget hf hx heap
    refine ⟨.ht d', heap', hset, hd', hproper, fun _ _ => trivial, fun _ _ _ => trivial,
      fun hroom => hsmall ?_⟩
    exact (hw.size_lt hget (hroom.mono (funext hget ▸ hw.enumerates) fun k hk =>
      isSome_update hk f x)).le

omit [Host] in
/-- The entry of the value takes the place of the deleted entry of the field. -/
theorem Flat.delete_pair {ps1 ps2 : List (Sds × Sds)} (h : Flat zl (ps1 ++ (f, x) :: ps2)) :
    Flat (ziplistDelete (ziplistDelete zl (2 * ps1.length)) (2 * ps1.length)) (ps1 ++ ps2) := by
  have hdel := contents_deleteFrom_zipEntry (contents_deleteFrom_zipEntry h (2 * ps1.length) 1)
    (2 * ps1.length) 1
  have hpast : ∀ k, drop (2 * ps1.length + k) (flatPairs ps1) = [] := fun k =>
    drop_eq_nil_of_le (by rw [length_flatPairs]; omega)
  rw [Flat, ziplistDelete, ziplistDelete, hdel, ← length_flatPairs]
  simp [drop_append, hpast]

theorem HashVal.Has.hashTypeDelete (h : v.Has m) {field : Robj} (hf : field.Denotes f)
    (heap : Heap) :
    (Vire.hashTypeDelete v field heap).1 = (m f).isSome ∧
      (Vire.hashTypeDelete v field heap).2.1.Has (Function.update m f none) ∧
      (v.Shorts → (Vire.hashTypeDelete v field heap).2.1.Shorts) ∧
      (v.Small → (Vire.hashTypeDelete v field heap).2.1.Small) := by
  cases h with
  | @ziplist zl ps _ hps hzl =>
    simp only [Vire.hashTypeDelete, (hf.getDecodedObject heap).text_eq]
    cases hm : m f with
    | none =>
      rw [hzl.find_none (hps.not_mem_keys hm)]
      refine ⟨rfl, ?_, id, id⟩
      rw [← hm, update_eq_self]
      exact .ziplist hps hzl
    | some y =>
      obtain ⟨ps1, ps2, rfl, hnot⟩ := hps.split hm
      have hdel := hzl.delete_pair
      rw [hzl.find_some hnot]
      refine ⟨rfl, .ziplist hps.remove hdel, fun hshort s hs => hshort s ?_, fun hs => ?_⟩
      · rw [hdel.map_text, flatPairs_append, mem_append] at hs
        rw [hzl.map_text, flatPairs_append, mem_append, flatPairs_cons]
        exact hs.imp_right fun h => mem_cons_of_mem _ (mem_cons_of_mem _ h)
      · refine (Nat.div_le_div_right ?_).trans hs
        rw [hdel.length_eq, hzl.length_eq, length_append, length_append, length_cons]
        omega
  | @ht d _ hw hget =>
    obtain ⟨hw', hget', hret⟩ := get_dictDelete hw f
    have hhas := HashVal.Has.of_update hget hw' hget'
    rw [map_none] at hhas
    have hsome : (dictDelete d f).2.isSome = (m f).isSome := by
      rw [← hget, isSome_map, ← hret, isSome_map]
    simp only [Vire.hashTypeDelete, hf.text_eq, ← hsome]
    cases (dictDelete d f).2 with
    | none => exact ⟨rfl, hhas, fun _ => trivial, fun hs => hs.delete f⟩
    | some e =>
      have hsame := resizeIfNeeded_same (d := (dictDelete d f).1) hw'
      refine ⟨rfl, ?_, fun _ => trivial, fun hs => (Dict.Sizes.delete hs f).resizeIfNeeded⟩
      cases hhas with
      | ht _ hget'' => exact .ht hsame.wf fun f' => by rw [hsame.get_eq, hget'']

structure HashVal.Holds (v : HashVal) (m : Sds → Option Sds) : Prop where
  has : v.Has m
  shorts : v.Shorts
  small : v.Small

theorem createHashObject_holds : createHashObject.Holds fun _ => none :=
  ⟨createHashObject_has, fun _ h => absurd h not_mem_nil, Nat.zero_le _⟩

theorem HashVal.Holds.hasRoom (h : v.Holds m) (hft : v.Takes f) (hxt : v.Takes x)
    (hf : field.Denotes f) (hx : value.Denotes x)
    (hroom : HashRoom (Function.update m f (some x))) : hashTypeHasRoom v field value = true := by
  obtain ⟨hhas, hshort, hs⟩ := h
  cases hhas with
  | @ziplist zl ps _ hps hzl =>
    obtain ⟨zl', ps', hset, hzl', hps', hsub⟩ := hzl.hashZiplistSet hps f x
    obtain ⟨l, hl, -, hbytes⟩ := hroom
    obtain ⟨l', hl', hle⟩ := hps.exists_update f x
    have hlen : zl.length / 2 ≤ Host.hashMaxZiplistEntries := hs
    rw [hzl.length_eq, Nat.mul_div_cancel_left _ Nat.two_pos] at hlen
    rw [hl.length_eq hps'] at hbytes
    rw [hl'.length_eq hps'] at hle
    have hsum := (sum_rawlen hzl').2
    have hshort' : ∀ s ∈ zl'.map text, Short s := Shorts.of_subset hzl hzl' hsub hft hxt hshort
    rw [hzl'.map_text] at hshort'
    have hmost := zipBytes_le hshort'
    rw [length_flatPairs] at hmost
    simp only [hashTypeHasRoom, ziplistHasRoom, hf.text_eq, hx.text_eq, hset, all_some,
      decide_eq_true_eq]
    rcases hbytes with h | h <;> omega
  | @ht d _ hw hget =>
    have hsize := hw.size_lt hget
      (hroom.mono (funext hget ▸ hw.enumerates) fun k hk => isSome_update hk f x)
    simp only [hashTypeHasRoom, Bool.or_eq_true, decide_eq_true_eq]
    exact .inr (Dict.Sizes.dictAddIndex_lt hs hw hsize.le field)

end Vire
