import Mathlib.Algebra.Order.BigOperators.Group.List
import Vire.Keyspace.Proofs.Layout

/-!
# A quicklist is a finite sequence of byte strings

The elements of a quicklist are those of its nodes, one node after the other.  `sz` of a node is not
the length of its ziplist: `quicklistReplaceAtIndex` leaves it as it was.  It is large enough for
the entries of the node, and at most `peak`, a bound on the bytes of the whole list since its
beginning; so `count` keeps within 16 bits, as long as the sum of `sz` and the length of a new
element keeps within 32.
-/

namespace Vire

open List

/-- The bytes of a list: every element has at least one byte more than its own, and those of one
node, fewer than 65536, may have ten. -/
def listBytes (l : List Sds) : ℕ := (l.map fun s => s.length + 1).sum + 9 * min l.length 65535

theorem zipBytes_eq (l : List Sds) :
    zipBytes l = (l.map fun s => s.length + 1).sum + 9 * l.length := by
  induction l with
  | nil => rfl
  | cons s l ih =>
    simp only [zipBytes, map_cons, sum_cons, length_cons] at ih ⊢
    omega

theorem listBytes_mono {l l' : List Sds} (h : l'.Sublist l) : listBytes l' ≤ listBytes l := by
  have hsum : (l'.map fun s => s.length + 1).sum ≤ (l.map fun s => s.length + 1).sum :=
    (h.map _).sum_le_sum fun _ _ => Nat.zero_le _
  have := h.length_le
  rw [listBytes, listBytes]
  omega

theorem zipBytes_le_listBytes {ss l : List Sds} (h : ss.Sublist l) (hlt : ss.length < 2 ^ 16) :
    zipBytes ss ≤ listBytes l := by
  refine le_trans (le_of_eq ?_) (listBytes_mono h)
  rw [zipBytes_eq, listBytes, min_eq_left (by omega)]

theorem listBytes_append_le (l₁ l₂ : List Sds) :
    listBytes (l₁ ++ l₂) ≤ listBytes l₁ + zipBytes l₂ := by
  rw [zipBytes_eq, listBytes, listBytes, map_append, sum_append, length_append]
  omega

theorem length_le_listBytes (l : List Sds) : l.length ≤ listBytes l := by
  have hsum : l.length ≤ (l.map fun s => s.length + 1).sum := by
    have := length_le_sum_of_one_le (l.map fun s => s.length + 1) (by simp)
    rwa [length_map] at this
  exact hsum.trans (Nat.le_add_right ..)

structure QuicklistNode.Is (peak : ℕ) (n : QuicklistNode) (ss : List Sds) : Prop where
  contents : n.zl.map Zlentry.content = ss.map zipEntry
  narrow : NarrowHead n.zl
  ne_nil : ss ≠ []
  count : n.count = ss.length
  count_lt : ss.length < 2 ^ 16
  sz_ge : 2 * ss.length + 11 ≤ n.sz
  sz_le : n.sz ≤ peak + 11

inductive NodesAre (peak : ℕ) : List QuicklistNode → List Sds → Prop
  | nil : NodesAre peak [] []
  | cons {n : QuicklistNode} {nodes : List QuicklistNode} {ss l : List Sds} (hn : n.Is peak ss)
      (h : NodesAre peak nodes l) : NodesAre peak (n :: nodes) (ss ++ l)

structure Quicklist.Is (peak : ℕ) (ql : Quicklist) (l : List Sds) : Prop where
  nodes : NodesAre peak ql.nodes l
  count : ql.count = l.length
  bytes : listBytes l ≤ peak
  peak_lt : peak + 11 < 2 ^ 32

variable {peak peak' : ℕ} {n : QuicklistNode} {nodes nodes₁ nodes₂ : List QuicklistNode}
  {ql : Quicklist} {l l₁ l₂ ss : List Sds} {s : Sds}

theorem QuicklistNode.Is.length_zl (h : n.Is peak ss) : n.zl.length = ss.length := by
  have := congrArg length h.contents
  rwa [length_map, length_map] at this

theorem QuicklistNode.Is.mono (h : n.Is peak ss) (hle : peak ≤ peak') : n.Is peak' ss :=
  { h with sz_le := h.sz_le.trans (Nat.add_le_add_right hle 11) }

theorem Quicklist.Is.length_lt (h : ql.Is peak l) : l.length < 2 ^ 32 := by
  have := h.bytes
  have := h.peak_lt
  have := length_le_listBytes l
  omega

theorem Quicklist.Is.length_eq (h : ql.Is peak l) : listTypeLength ql = l.length := by
  have := h.length_lt
  rw [listTypeLength, quicklistCount, h.count, Nat.mod_eq_of_lt this]

theorem quicklistNew_is (fill : ℤ) (hpeak : peak + 11 < 2 ^ 32) : (quicklistNew fill).Is peak [] :=
  ⟨.nil, rfl, Nat.zero_le _, hpeak⟩

theorem QuicklistNode.Is.updated {zl : Ziplist}
    (hcontents : zl.map Zlentry.content = ss.map zipEntry)
    (hnarrow : NarrowHead zl) (hne : ss ≠ []) (hlt : ss.length < 2 ^ 16)
    (hbytes : zipBytes ss ≤ peak) (hpeak : peak + 11 < 2 ^ 32) :
    QuicklistNode.Is peak ⟨zl, ziplistBlobLen zl, ss.length⟩ ss := by
  obtain ⟨hlo, hhi⟩ := ziplistBlobLen_bounds hcontents (by omega)
  exact ⟨hcontents, hnarrow, hne, rfl, hlt, hlo, hhi.trans (Nat.add_le_add_right hbytes 11)⟩

theorem QuicklistNode.Is.texts_eq (h : n.Is peak ss) : n.zl.map text = ss := by
  rw [map_text_of_contents h.contents, map_map]
  exact map_id'' text_zipEntry ss

theorem QuicklistNode.Is.sound (h : n.Is peak ss) : n.Sound where
  ne_nil := by
    have := h.ne_nil
    rwa [← h.texts_eq, Ne, map_eq_nil_iff] at this
  count := h.count.trans h.length_zl.symm
  fits e he := by
    have hmem := mem_map_of_mem (f := Zlentry.content) he
    rw [h.contents] at hmem
    obtain ⟨s, -, hs⟩ := mem_map.mp hmem
    exact hs ▸ fits_zipEntry s

theorem nodesAre_iff :
    NodesAre peak nodes l ↔ (∀ n ∈ nodes, n.Is peak (n.zl.map text)) ∧ nodeTexts nodes = l := by
  constructor
  · intro h
    induction h with
    | nil => exact ⟨fun n hn => absurd hn not_mem_nil, rfl⟩
    | cons hn _ ih =>
      rw [forall_mem_cons, nodeTexts_cons, hn.texts_eq, ih.2]
      exact ⟨⟨hn, ih.1⟩, rfl⟩
  · rintro ⟨h, rfl⟩
    induction nodes with
    | nil => exact .nil
    | cons n nodes ih =>
      rw [forall_mem_cons] at h
      exact .cons h.1 (ih h.2)

theorem Quicklist.Is.lists (h : ql.Is peak l) : ql.Lists l := by
  obtain ⟨hnodes, htexts⟩ := nodesAre_iff.mp h.nodes
  exact ⟨fun n hn => (hnodes n hn).sound, htexts, h.count⟩

theorem listBytes_put_le (w : Where) (s : Sds) (l : List Sds) :
    listBytes (w.put s l) ≤ listBytes l + (s.length + 10) := by
  cases w with
  | head =>
    rw [Where.put, listBytes, listBytes, map_cons, sum_cons, length_cons]
    omega
  | tail => exact listBytes_append_le l [s]

theorem QuicklistNode.push_some (ss : List Sds) (w : Where) (s : Sds) (hcount : n.count = ss.length)
    (hcontents : n.zl.map Zlentry.content = ss.map zipEntry) (hnarrow : NarrowHead n.zl)
    (hlt : ss.length + 1 < 2 ^ 16) (hbytes : zipBytes (w.put s ss) ≤ peak)
    (hpeak : peak + 11 < 2 ^ 32) :
    ∃ n', n.push s w = some n' ∧ n'.Is peak (w.put s ss) := by
  obtain ⟨zl, hzl⟩ := hnarrow.push_some s w
  have hlen := length_put w s ss
  have his := QuicklistNode.Is.updated (contents_push hzl hcontents) (hnarrow.push hzl)
    (ne_nil_of_length_eq_add_one hlen) (hlen ▸ hlt) hbytes hpeak
  refine ⟨_, by rw [QuicklistNode.push, hzl]; rfl, ?_⟩
  rwa [hcount, Nat.mod_eq_of_lt hlt, ← hlen]

theorem le_of_meetsOptimizationRequirement {sz : ℕ} {fill : ℤ}
    (h : quicklistNodeSizeMeetsOptimizationRequirement sz fill = true) : sz ≤ 65536 := by
  unfold quicklistNodeSizeMeetsOptimizationRequirement at h
  split_ifs at h
  split at h
  · cases h
  · rename_i level hlevel
    have hall : ∀ level ∈ optimizationLevel, level ≤ 65536 := by decide
    exact (of_decide_eq_true h).trans (hall level (mem_of_getElem? hlevel))

theorem sz_le_of_allowInsert {fill : ℤ} {sz : ℕ} (h : quicklistNodeAllowInsert n fill sz = true)
    (hlt : n.sz + sz + 10 < 2 ^ 32) : n.sz ≤ 65536 := by
  unfold quicklistNodeAllowInsert at h
  obtain ⟨overhead, hoverhead⟩ : ∃ overhead,
      overhead = (if sz < 254 then 1 else 5) + if sz < 64 then 1 else if sz < 16384 then 2 else 5 :=
    ⟨_, rfl⟩
  have hle : overhead ≤ 10 := by
    rw [hoverhead]
    split_ifs <;> omega
  rw [← hoverhead] at h
  dsimp only at h
  split_ifs at h with hmeets hsafe
  · have := le_of_meetsOptimizationRequirement hmeets
    omega
  · rw [sizeSafetyLimit] at hsafe
    omega

theorem Quicklist.Is.push (h : ql.Is peak l) (w : Where) (s : Sds)
    (hfit : peak + (s.length + 10) + 11 < 2 ^ 32) :
    ∃ ql', quicklistPush ql s w = some ql' ∧
      ql'.Is (max peak (listBytes (w.put s l))) (w.put s l) := by
  obtain ⟨peak', hpeak'⟩ : ∃ p, p = max peak (listBytes (w.put s l)) := ⟨_, rfl⟩
  have hle : peak ≤ peak' := hpeak' ▸ le_max_left ..
  have hbytes : listBytes (w.put s l) ≤ peak' := hpeak' ▸ le_max_right ..
  have hlt : peak' + 11 < 2 ^ 32 := by
    have := h.bytes
    have := listBytes_put_le w s l
    omega
  have hcount : ql.count + 1 = (w.put s l).length := by rw [length_put, h.count]
  obtain ⟨hnodes, htexts⟩ := nodesAre_iff.mp h.nodes
  -- into a node with the elements `ss`, and `rest` are the other nodes
  have hinto : ∀ {n : QuicklistNode} (ss : List Sds) {rest : List QuicklistNode},
    n.count = ss.length →
      n.zl.map Zlentry.content = ss.map zipEntry → NarrowHead n.zl → ss.length + 1 < 2 ^ 16 →
      (∀ m ∈ rest, m.Is peak (m.zl.map text)) → w.join ss (nodeTexts rest) = l →
      ∃ ql', ql.pushTo n rest s w = some ql' ∧ ql'.Is peak' (w.put s l) := by
    intro n ss rest hcount' hcontents hnarrow hfew hrest hl
    have hput : w.put s l = w.join (w.put s ss) (nodeTexts rest) := by rw [← hl, put_join]
    have hss : zipBytes (w.put s ss) ≤ listBytes (w.put s l) :=
      zipBytes_le_listBytes (hput ▸ sublist_join ..) (by rwa [length_put])
    obtain ⟨n', hpush, hn'⟩ :=
      QuicklistNode.push_some ss w s hcount' hcontents hnarrow hfew (hss.trans hbytes) hlt
    refine ⟨_, by rw [Quicklist.pushTo, hpush]; rfl, nodesAre_iff.mpr ⟨forall_insertNode.mpr
      ⟨hn'.texts_eq.symm ▸ hn', fun m hm => (hrest m hm).mono hle⟩, ?_⟩, hcount, hbytes, hlt⟩
    rw [nodeTexts_insertNode, hn'.texts_eq, hput]
  have hcreate := hinto (n := quicklistCreateNode) [] rfl rfl rfl (by decide) hnodes
    (by cases w <;> simp [Where.join, htexts])
  rw [← hpeak', quicklistPush]
  rcases hnode : w.node ql.nodes with _ | ⟨n, rest⟩
  · exact hcreate
  · have hql := Where.node_eq_some hnode
    rw [hql, forall_insertNode] at hnodes
    rw [hql, nodeTexts_insertNode] at htexts
    dsimp only
    split_ifs with hallow
    · have hsz := sz_le_of_allowInsert hallow (by have := hnodes.1.sz_le; omega)
      have hge := hnodes.1.sz_ge
      exact hinto _ hnodes.1.count hnodes.1.contents hnodes.1.narrow (by omega) hnodes.2 htexts
    · exact hcreate

theorem sublist_nodeTexts (hn : n ∈ nodes) : (n.zl.map text).Sublist (nodeTexts nodes) := by
  exact sublist_flatten_of_mem (mem_map_of_mem hn)

theorem Quicklist.Is.keeps (h : ql.Is peak l) {ql' : Quicklist} {l' : List Sds}
    (hlists : ql'.Lists l')
    (hsub : l'.Sublist l) (hkeeps : KeepsNodes ql.nodes ql'.nodes) : ql'.Is peak l' := by
  have hbytes := (listBytes_mono hsub).trans h.bytes
  refine ⟨nodesAre_iff.mpr ⟨fun n' hn' => ?_, hlists.texts⟩, hlists.count, hbytes, h.peak_lt⟩
  obtain ⟨n, hn, hkept⟩ := hkeeps n' hn'
  have his := (nodesAre_iff.mp h.nodes).1 n hn
  rcases hkept with rfl | ⟨q, num, count, rfl⟩
  · exact his
  have hsound := hlists.sound _ hn'
  have htexts := texts_deleteFrom n.zl q num
  have hcontents := contents_deleteFrom_zipEntry his.contents q num
  rw [← htexts] at hcontents
  have hlen : (ziplistDeleteFrom n.zl q num).length ≤ n.zl.length := by
    have := congrArg length htexts
    rw [length_map, length_append, length_take, length_drop, length_map] at this
    omega
  have hlt : ((ziplistDeleteFrom n.zl q num).map text).length < 2 ^ 16 := by
    have := his.count_lt
    rw [length_map] at this ⊢
    omega
  obtain rfl : count = ((ziplistDeleteFrom n.zl q num).map text).length := by
    rw [length_map]
    exact hsound.count
  refine .updated hcontents (his.narrow.deleteFrom q num) ?_ hlt ?_ h.peak_lt
  · rw [Ne, map_eq_nil_iff]
    exact hsound.ne_nil
  · exact (zipBytes_le_listBytes (hlists.texts ▸ sublist_nodeTexts hn') hlt).trans hbytes

theorem listBytes_set_le (l : List Sds) (p : ℕ) (s : Sds) :
    listBytes (l.set p s) ≤ listBytes l + (s.length + 10) := by
  have hsum : ((l.set p s).map fun s => s.length + 1).sum ≤
      (l.map fun s => s.length + 1).sum + (s.length + 1) := by
    induction l generalizing p with
    | nil => exact Nat.zero_le _
    | cons t l ih =>
      cases p with
      | zero =>
        simp only [set_cons_zero, map_cons, sum_cons]
        omega
      | succ p =>
        have := ih p
        simp only [set_cons_succ, map_cons, sum_cons] at this ⊢
        omega
  rw [listBytes, listBytes, length_set]
  omega

theorem Quicklist.Is.content_eq (h : ql.Is peak l) {p : Place} (hql : ql.nodes = p.nodes) :
    p.e.content = zipEntry (text p.e) := by
  obtain ⟨-, hn, -⟩ := p.forall_nodes.mp (hql ▸ (nodesAre_iff.mp h.nodes).1)
  have hcontents := hn.contents
  rw [map_map, p.zl_eq] at hcontents
  exact map_inj_left.mp hcontents p.e (by simp)

theorem Quicklist.Is.index_some (h : ql.Is peak l) {idx : ℤ} {i : ℕ} (hs : l[i]? = some s)
    (hidx : idx = i ∨ idx = (i : ℤ) - l.length) :
    ∃ entry, quicklistIndex ql idx = some entry ∧ entry.value = zipEntry s := by
  obtain ⟨p, hql, hleft, rfl, -⟩ := h.lists.exists_place hs
  obtain ⟨hi, -⟩ := List.getElem?_eq_some_iff.mp hs
  have hlen := h.lists.place_length hql
  have hpos : p.left.length = i := by rw [hleft, length_take, Nat.min_eq_left hi.le]
  obtain ⟨dir, rfl⟩ : ∃ dir : Where, idx = dir.offsetBetween p.left p.right := by
    rcases hidx with rfl | rfl
    · exact ⟨.head, by rw [Where.offsetBetween, hpos]⟩
    · exact ⟨.tail, by rw [Where.offsetBetween]; omega⟩
  exact ⟨p.entry dir, h.lists.index hql dir, h.content_eq hql⟩

theorem Quicklist.Is.replace (h : ql.Is peak l) {idx : ℤ} {i : ℕ} (hi : i < l.length)
    (hidx : idx = i ∨ idx = (i : ℤ) - l.length) (s : Sds)
    (hfit : peak + (s.length + 10) + 11 < 2 ^ 32) :
    ∃ ql', quicklistReplaceAtIndex ql idx s = some (true, ql') ∧
      ql'.Is (max peak (listBytes (l.set i s))) (l.set i s) := by
  obtain ⟨p, hql, hleft, -, hright⟩ := h.lists.exists_place (getElem?_eq_getElem hi)
  have hpos : p.left.length = i := by rw [hleft, length_take, Nat.min_eq_left hi.le]
  obtain ⟨zl, hzl, hreplace, hlists⟩ := h.lists.replace hql (hpos ▸ hidx) s
  have hle : peak ≤ max peak (listBytes (l.set i s)) := le_max_left ..
  have hset : p.left ++ s :: p.right = l.set i s := by
    rw [set_eq_take_append_cons_drop, if_pos hi, hleft, hright]
  rw [hset] at hlists
  obtain ⟨hpre, hn, hpost⟩ := p.forall_nodes.mp (hql ▸ (nodesAre_iff.mp h.nodes).1)
  refine ⟨_, hreplace, nodesAre_iff.mpr ⟨forall_mem_append.mpr ⟨fun m hm => (hpre m hm).mono hle,
    forall_mem_cons.mpr ⟨?_, fun m hm => (hpost m hm).mono hle⟩⟩, hlists.texts⟩, hlists.count,
    le_max_right .., ?_⟩
  · have hcontents := contents_replace (by simp [p.zl_eq]) hzl
    rw [hn.contents, ← map_set] at hcontents
    have htexts : zl.map text = (p.n.zl.map text).set p.a.length s := by
      rw [map_text_of_contents hcontents, map_map]
      exact map_id'' text_zipEntry _
    have hlen : (zl.map text).length = (p.n.zl.map text).length := by rw [htexts, length_set]
    refine ⟨by rwa [htexts], (hn.narrow.deleteFrom _
      1).insert hzl, ?_, hlen ▸ hn.count, hlen ▸ hn.count_lt,
      hlen ▸ hn.sz_ge, hn.sz_le.trans (Nat.add_le_add_right hle 11)⟩
    rw [← length_pos_iff, hlen, length_pos_iff]
    exact hn.ne_nil
  · have := listBytes_set_le l i s
    have := h.bytes
    omega

theorem Quicklist.Is.pop {w : Where} (h : ql.Is peak (w.put s l)) :
    ∃ ql', quicklistPopCustom ql w = some (some (zipEntry s), ql') ∧ ql'.Is peak l := by
  obtain ⟨p, hql, rfl, rfl, hpop⟩ := h.lists.pop
  refine ⟨_, h.content_eq hql ▸ hpop, h.keeps (h.lists.without hql) ?_ (hql ▸ p.keeps_without)⟩
  cases w with
  | head => exact sublist_cons_self ..
  | tail => exact sublist_append_left ..

theorem Quicklist.Is.delRange (h : ql.Is peak l) (start count : ℤ) (hlo : -(l.length : ℤ) ≤ start)
    (hhi : start < l.length) (hcount : 1 ≤ count) (hstart : start ≤ 0) :
    ∃ ql', quicklistDelRange ql start count = some ql' ∧
      ql'.Is peak (l.take (rangeStart l start) ++
        l.drop (rangeStart l start + rangeExtent l start count)) := by
  have hlt : ∀ n ∈ ql.nodes, n.count < 2 ^ 16 := fun n hn => by
    have his := (nodesAre_iff.mp h.nodes).1 n hn
    exact his.count ▸ his.count_lt
  obtain ⟨ql', hdel, hlists⟩ :=
    h.lists.delRange_exact hlt (h.length_lt.trans (by norm_num)) hlo hhi hcount (by
    rintro p - hleft ⟨hless, hmore⟩
    rw [Place.left, length_append, length_map] at hleft
    omega)
  refine ⟨ql', hdel, h.keeps hlists ?_ (keeps_delRange hdel)⟩
  conv_rhs => rw [← take_append_drop (rangeStart l start) l]
  rw [← drop_drop]
  exact (Sublist.refl _).append (drop_sublist ..)

theorem Quicklist.Is.delRange_head (h : ql.Is peak l) {k : ℕ} (hk : k ≤ l.length) :
    ∃ ql', quicklistDelRange ql 0 k = some ql' ∧ ql'.Is peak (l.drop k) := by
  rcases Nat.eq_zero_or_pos k with rfl | hpos
  · exact ⟨ql, rfl, h⟩
  · have hdel := h.delRange 0 k (by omega) (by omega) (by omega) le_rfl
    have hextent : rangeExtent l 0 k = k := by
      rw [rangeExtent, rangeStart, if_neg (by omega), Int.toNat_natCast, Int.toNat_zero]
      omega
    rwa [hextent, rangeStart, if_neg (by omega), Int.toNat_zero, take_zero, nil_append,
      Nat.zero_add] at hdel

theorem Quicklist.Is.delRange_tail (h : ql.Is peak l) {k : ℕ} (hk : k ≤ l.length) :
    ∃ ql', quicklistDelRange ql (-(k : ℤ)) k = some ql' ∧ ql'.Is peak (l.take (l.length - k)) := by
  rcases Nat.eq_zero_or_pos k with rfl | hpos
  · exact ⟨ql, rfl, by rwa [Nat.sub_zero, take_length]⟩
  · have hdel := h.delRange (-(k : ℤ)) k (by omega) (by omega) (by omega) (by omega)
    have hstart : rangeStart l (-(k : ℤ)) = l.length - k := by
      rw [rangeStart, if_pos (by omega)]
      omega
    have hextent : rangeExtent l (-(k : ℤ)) k = k := by
      rw [rangeExtent, hstart, Int.toNat_natCast]
      omega
    rwa [hextent, hstart, drop_eq_nil_of_le (by omega), append_nil] at hdel

theorem Quicklist.Is.trim (h : ql.Is peak l) (i j : ℤ) :
    ∃ ql', listTypeTrim ql i j = some ql' ∧ ql'.Is peak (listSlice l i j) := by
  unfold listTypeTrim ltrimCounts
  rw [h.length_eq]
  dsimp only
  split_ifs with hempty
  · obtain ⟨ql', hdel, hql'⟩ := h.delRange_head le_rfl
    obtain ⟨ql'', hdel', hql''⟩ := hql'.delRange_tail (Nat.zero_le _)
    refine ⟨ql'', ?_, ?_⟩
    · rw [hdel]
      exact hdel'
    · rw [listSlice_empty hempty]
      rwa [drop_length, take_nil] at hql''
  · obtain ⟨p, k, hp, hstop, hpos, hle, hslice⟩ := listSlice_range hempty
    obtain ⟨ql', hdel, hql'⟩ := h.delRange_head (k := p) (by omega)
    obtain ⟨ql'', hdel', hql''⟩ := hql'.delRange_tail (k := l.length - (p + k)) (by
      rw [length_drop]
      omega)
    have hright : (l.length : ℤ) - clampStop (convertIndexes i j l.length).2 l.length - 1 =
        (l.length - (p + k) : ℕ) := by omega
    have hleft : (l.drop p).length - (l.length - (p + k)) = k := by
      rw [length_drop]
      omega
    refine ⟨ql'', ?_, ?_⟩
    · rw [hright, hp, hdel]
      exact hdel'
    · rwa [hslice, ← hleft]

inductive QuicklistIter.At (peak : ℕ) : QuicklistIter → List Sds → Prop
  | fresh {n : QuicklistNode} {nodes : List QuicklistNode} {ss l : List Sds} {q : ℕ}
    (hn : n.Is peak ss)
      (h : NodesAre peak nodes l) (hq : q ≤ ss.length) :
    At peak ⟨n :: nodes, none, q⟩ (ss.drop q ++ l)
  | moved {n : QuicklistNode} {nodes : List QuicklistNode} {ss l : List Sds} {q : ℕ} (offset : ℤ)
      (hn : n.Is peak ss) (h : NodesAre peak nodes l) (hq : q < ss.length) :
    At peak ⟨n :: nodes, some q, offset⟩ (ss.drop (q + 1) ++ l)

theorem ziplistIndex_nat {zl : Ziplist} {q : ℕ} (hq : q < zl.length) :
    ziplistIndex zl q = some q := by
  rw [ziplistIndex, if_neg (by omega), Int.toNat_natCast, if_pos hq]

theorem QuicklistNode.Is.get (h : n.Is peak ss) (q : ℕ) :
    ziplistGet n.zl q = ss[q]?.map zipEntry := by
  rw [ziplistGet, ← getElem?_map, h.contents, getElem?_map]

theorem quicklistNextLoop_node (hn : n.Is peak ss) (h : NodesAre peak nodes l) {q : ℕ}
    (hq : q < ss.length) (offset : ℤ) :
    ∃ s, ss.drop q ++ l = s :: (ss.drop (q + 1) ++ l) ∧
      (ziplistGet n.zl q).getD initEntry = zipEntry s ∧
      QuicklistIter.At peak ⟨n :: nodes, some q, offset⟩ (ss.drop (q + 1) ++ l) := by
  refine ⟨ss[q], ?_, ?_, .moved offset hn h hq⟩
  · rw [drop_eq_getElem_cons hq, cons_append]
  · rw [hn.get, getElem?_eq_getElem hq]
    rfl

theorem quicklistNextLoop_fresh (h : NodesAre peak nodes (s :: l)) :
    ∃ iter, quicklistNextLoop nodes none 0 = some (zipEntry s, iter) ∧ iter.At peak l := by
  generalize hl : s :: l = l' at h
  cases h with
  | nil => cases hl
  | @cons n nodes ss m hn h =>
    have hpos : 0 < ss.length := length_pos_iff.mpr hn.ne_nil
    have hindex : ziplistIndex n.zl 0 = some 0 := ziplistIndex_nat (q := 0) (by rwa [hn.length_zl])
    obtain ⟨s', hs', hget, hat⟩ := quicklistNextLoop_node hn h hpos 0
    rw [drop_zero, ← hl] at hs'
    obtain ⟨rfl, rfl⟩ := cons.inj hs'
    rw [quicklistNextLoop]
    simp only [hindex, hget]
    exact ⟨_, rfl, hat⟩

theorem QuicklistIter.At.next {iter : QuicklistIter} (h : iter.At peak (s :: l)) :
    ∃ iter', quicklistNext (some iter) = some (zipEntry s, iter') ∧ iter'.At peak l := by
  rw [quicklistNext, Option.bind_some]
  generalize hl : s :: l = l' at h
  cases h with
  | @fresh n nodes ss m q hn h hq =>
    rw [quicklistNextLoop]
    rcases hq.lt_or_eq with hlt | rfl
    · obtain ⟨s', hs', hget, hat⟩ := quicklistNextLoop_node hn h hlt q
      rw [← hl] at hs'
      obtain ⟨rfl, rfl⟩ := cons.inj hs'
      simp only [ziplistIndex_nat (hn.length_zl ▸ hlt), hget]
      exact ⟨_, rfl, hat⟩
    · have hindex : ziplistIndex n.zl (ss.length : ℤ) = none := by
        rw [ziplistIndex, if_neg (by omega), Int.toNat_natCast, hn.length_zl,
          if_neg (Nat.lt_irrefl _)]
      rw [drop_length, nil_append] at hl
      simp only [hindex]
      exact quicklistNextLoop_fresh (hl ▸ h)
  | @moved n nodes ss m q offset hn h hq =>
    rw [quicklistNextLoop]
    by_cases hlt : q + 1 < ss.length
    · obtain ⟨s', hs', hget, hat⟩ := quicklistNextLoop_node hn h hlt (offset + 1)
      rw [← hl] at hs'
      obtain ⟨rfl, rfl⟩ := cons.inj hs'
      simp only [ziplistNext, hn.length_zl, if_pos hlt, hget]
      exact ⟨_, rfl, hat⟩
    · rw [drop_eq_nil_of_le (Nat.not_lt.mp hlt), nil_append] at hl
      simp only [ziplistNext, hn.length_zl, if_neg hlt]
      exact quicklistNextLoop_fresh (hl ▸ h)

theorem QuicklistIter.At.range {iter : QuicklistIter} (h : iter.At peak l) {k : ℕ}
    (hk : k ≤ l.length) :
    listTypeRange k (some iter) = (l.take k).map zipEntry := by
  induction k generalizing iter l with
  | zero => rfl
  | succ k ih =>
    cases l with
    | nil => cases hk
    | cons s l =>
      obtain ⟨iter', hnext, h'⟩ := h.next
      rw [listTypeRange, hnext]
      simp only [ih h' (Nat.le_of_succ_le_succ hk), take_succ_cons, map_cons]

theorem Quicklist.Is.iteratorAt (h : ql.Is peak l) {i : ℕ} (hi : i < l.length) :
    ∃ iter, quicklistGetIteratorAtIdx ql i = some iter ∧ iter.At peak (l.drop i) := by
  obtain ⟨p, hql, hleft, he, hright⟩ := h.lists.exists_place (getElem?_eq_getElem hi)
  have hpos : p.left.length = i := by rw [hleft, length_take, Nat.min_eq_left hi.le]
  obtain ⟨-, hn, hpost⟩ := p.forall_nodes.mp (hql ▸ (nodesAre_iff.mp h.nodes).1)
  have hdrop : l.drop i = (p.n.zl.map text).drop p.a.length ++ nodeTexts p.post := by
    rw [drop_eq_getElem_cons hi, ← hright, ← he, p.zl_eq, Place.right]
    simp
  have hindex := h.lists.index hql .head
  rw [Where.offsetBetween, hpos] at hindex
  refine ⟨⟨p.n :: p.post, none, p.a.length⟩, ?_, ?_⟩
  · rw [quicklistGetIteratorAtIdx, hindex, Option.map_some, hql, Place.nodes]
    simp only [Place.entry, Where.offsetBetween, drop_left]
  · rw [hdrop]
    exact .fresh hn (nodesAre_iff.mpr ⟨hpost, rfl⟩) (by simp [p.zl_eq])

end Vire
