import Vire.Keyspace.Proofs.Ziplist
import Vire.Keyspace.Type.List

/-!
# Layouts of quicklists

A place is an entry of a quicklist with all that is before it and behind it.  `quicklistIndex` finds
every place from both ends, and what a function changes is told by the place where it does so.
-/

namespace Vire

open List Option

structure QuicklistNode.Sound (n : QuicklistNode) : Prop where
  ne_nil : n.zl ≠ []
  count : n.count = n.zl.length
  fits : ∀ e ∈ n.zl, e.content.Fits

def nodeTexts (nodes : List QuicklistNode) : List Sds := nodes.flatMap fun n => n.zl.map text

@[simp]
theorem nodeTexts_nil : nodeTexts [] = [] := rfl

@[simp]
theorem nodeTexts_cons (n : QuicklistNode) (nodes : List QuicklistNode) :
    nodeTexts (n :: nodes) = n.zl.map text ++ nodeTexts nodes := rfl

theorem nodeTexts_singleton (n : QuicklistNode) : nodeTexts [n] = n.zl.map text := append_nil _

@[simp]
theorem nodeTexts_append (nodes1 nodes2 : List QuicklistNode) :
    nodeTexts (nodes1 ++ nodes2) = nodeTexts nodes1 ++ nodeTexts nodes2 := flatMap_append

/-- The quicklist has these elements, in whichever nodes. -/
structure Quicklist.Lists (ql : Quicklist) (l : List Sds) : Prop where
  sound : ∀ n ∈ ql.nodes, n.Sound
  texts : nodeTexts ql.nodes = l
  count : ql.count = l.length

variable {n : QuicklistNode} {ql : Quicklist} {l : List Sds}

section

variable {nodes : List QuicklistNode}

theorem sum_count (h : ∀ n ∈ nodes, n.Sound) :
    (nodes.map QuicklistNode.count).sum = (nodeTexts nodes).length := by
  induction nodes with
  | nil => rfl
  | cons n nodes ih =>
    rw [map_cons, sum_cons, ih fun m hm => h m (mem_cons_of_mem _ hm),
      (h n (mem_cons_self ..)).count, nodeTexts_cons, length_append, length_map]

theorem nodes_eq_nil (hne : ∀ n ∈ nodes, n.zl ≠ []) (h : nodeTexts nodes = []) : nodes = [] := by
  cases nodes with
  | nil => rfl
  | cons n nodes =>
    rw [nodeTexts_cons, append_eq_nil_iff, map_eq_nil_iff] at h
    exact absurd h.1 (hne n (mem_cons_self ..))

end

def Where.put (w : Where) (s : Sds) (l : List Sds) : List Sds :=
  match w with
  | .head => s :: l
  | .tail => l ++ [s]

/-- The sequence with others at one end. -/
def Where.join (w : Where) (ss l : List Sds) : List Sds :=
  match w with
  | .head => ss ++ l
  | .tail => l ++ ss

variable {w : Where} {s : Sds}

theorem length_put (w : Where) (s : Sds) (l : List Sds) : (w.put s l).length = l.length + 1 := by
  cases w with
  | head => rfl
  | tail => exact length_append

theorem put_join (w : Where) (s : Sds) (ss l : List Sds) :
    w.put s (w.join ss l) = w.join (w.put s ss) l := by
  cases w with
  | head => rfl
  | tail => exact append_assoc ..

theorem sublist_join (w : Where) (ss l : List Sds) : ss.Sublist (w.join ss l) := by
  cases w with
  | head => exact sublist_append_left ..
  | tail => exact sublist_append_right ..

theorem Where.node_eq_some {nodes rest : List QuicklistNode} (h : w.node nodes = some (n, rest)) :
    nodes = w.insertNode n rest := by
  cases w with
  | head =>
    cases nodes with
    | nil => cases h
    | cons m nodes =>
      cases h
      rfl
  | tail =>
    rcases eq_nil_or_concat' nodes with rfl | ⟨nodes, m, rfl⟩
    · cases h
    · rw [Where.node, getLast?_concat, dropLast_concat] at h
      cases h
      rfl

variable {P : QuicklistNode → Prop}

theorem forall_insertNode {nodes : List QuicklistNode} :
    (∀ m ∈ w.insertNode n nodes, P m) ↔ P n ∧ ∀ m ∈ nodes, P m := by
  cases w with
  | head => exact forall_mem_cons
  | tail => rw [Where.insertNode, forall_mem_append, forall_mem_singleton, and_comm]

theorem nodeTexts_insertNode (w : Where) (n : QuicklistNode) (nodes : List QuicklistNode) :
    nodeTexts (w.insertNode n nodes) = w.join (n.zl.map text) (nodeTexts nodes) := by
  cases w with
  | head => rfl
  | tail => rw [Where.insertNode, nodeTexts_append, nodeTexts_singleton]; rfl

theorem contents_push {zl zl' : Ziplist} {ss : List Sds} (h : ziplistPush zl s w = some zl')
    (hzl : zl.map Zlentry.content = ss.map zipEntry) :
    zl'.map Zlentry.content = (w.put s ss).map zipEntry := by
  cases w with
  | head =>
    rw [contents_insert h, hzl]
    rfl
  | tail =>
    have hlen : zl.length = (ss.map zipEntry).length := by rw [← hzl, length_map]
    rw [contents_insert h, hzl, hlen, take_length, drop_length, Where.put, map_append]
    rfl

theorem NarrowHead.push {zl zl' : Ziplist} (h : NarrowHead zl)
    (hpush : ziplistPush zl s w = some zl') :
    NarrowHead zl' := by
  cases w with
  | head => exact h.insert hpush
  | tail => exact h.insert hpush

/-- The position of what comes next, between `a` and `b`. -/
def Where.between {α : Type} (a b : List α) : Where → Option ℕ
  | .head => match b with
    | [] => none
    | _ :: _ => some a.length
  | .tail => match a with
    | [] => none
    | _ :: a => some a.length

theorem between_concat {α : Type} (a : List α) (x : α) (b : List α) :
    Where.tail.between (a ++ [x]) b = some a.length := by
  cases a <;> simp [Where.between]

def Where.offsetBetween {α : Type} (a b : List α) : Where → ℤ
  | .head => a.length
  | .tail => -(b.length + 1)

theorem ziplistIndex_offsetBetween (dir : Where) (a b : Ziplist) :
    ziplistIndex (a ++ b) (dir.offsetBetween a b) = dir.between a b := by
  cases dir with
  | head =>
    rw [ziplistIndex, Where.offsetBetween, if_neg (by omega), Int.toNat_natCast, length_append]
    cases b <;> simp [Where.between]
  | tail =>
    have hi : (-(-((b.length : ℤ) + 1)) - 1).toNat = b.length := by omega
    rw [ziplistIndex, Where.offsetBetween, if_pos (by omega)]
    simp only [hi, length_append]
    cases a with
    | nil => simp [Where.between]
    | cons e a =>
      rw [if_pos (by simp), length_cons, show a.length + 1 + b.length - 1 - b.length =
        a.length by omega]
      rfl

structure Quicklist.Place where
  pre : List QuicklistNode
  n : QuicklistNode
  post : List QuicklistNode
  a : Ziplist
  e : Zlentry
  b : Ziplist
  zl_eq : n.zl = a ++ e :: b

namespace Quicklist.Place

variable (p : Place)

def nodes : List QuicklistNode := p.pre ++ p.n :: p.post

def left : List Sds := nodeTexts p.pre ++ p.a.map text

def right : List Sds := p.b.map text ++ nodeTexts p.post

def entry (dir : Where) : QuicklistEntry :=
  ⟨p.pre.length, some p.a.length, dir.offsetBetween p.a p.b, p.e.content⟩

theorem getElem?_nodes : p.nodes[p.pre.length]? = some p.n := by simp [nodes]

theorem getElem?_zl : p.n.zl[p.a.length]? = some p.e := by simp [p.zl_eq]

theorem nodeTexts_eq : nodeTexts p.nodes = p.left ++ text p.e :: p.right := by
  simp [nodes, left, right, p.zl_eq]

theorem forall_nodes :
    (∀ n ∈ p.nodes, P n) ↔ (∀ n ∈ p.pre, P n) ∧ P p.n ∧ ∀ n ∈ p.post, P n := by
  rw [nodes, forall_mem_append, forall_mem_cons]

variable {p} in
theorem count_eq (hn : p.n.Sound) : p.n.count = p.a.length + (p.b.length + 1) := by
  rw [hn.count, p.zl_eq, length_append, length_cons]

theorem zl_eq_concat : p.n.zl = (p.a ++ [p.e]) ++ p.b := by
  rw [p.zl_eq, append_assoc]
  rfl

theorem ziplistIndex_offset (dir : Where) :
    ziplistIndex p.n.zl (dir.offsetBetween p.a p.b) = some p.a.length := by
  cases dir with
  | head => rw [p.zl_eq]; exact ziplistIndex_offsetBetween .head p.a (p.e :: p.b)
  | tail =>
    rw [p.zl_eq_concat, ← between_concat p.a p.e p.b]
    exact ziplistIndex_offsetBetween .tail (p.a ++ [p.e]) p.b

end Quicklist.Place

theorem exists_place {nodes : List QuicklistNode} {u w : List Sds} {x : Sds}
    (h : nodeTexts nodes = u ++ x :: w) :
    ∃ p : Quicklist.Place, nodes = p.nodes ∧ p.left = u ∧ text p.e = x ∧ p.right = w := by
  induction nodes generalizing u with
  | nil => simp at h
  | cons n nodes ih =>
    rw [nodeTexts_cons] at h
    by_cases hlt : u.length < (n.zl.map text).length
    · obtain ⟨w', hn, hw⟩ := (append_eq_append_iff.mp h).resolve_left (by
        rintro ⟨u', hu, -⟩
        rw [hu, length_append] at hlt
        omega)
      cases w' with
      | nil => simp [hn] at hlt
      | cons y w' =>
        obtain ⟨a, eb, hzl, ha, heb⟩ := map_eq_append_iff.mp hn
        obtain ⟨e, b, rfl, he, hb⟩ := map_eq_cons_iff.mp heb
        obtain ⟨rfl, rfl⟩ := cons.inj hw
        exact ⟨⟨[], n, nodes, a, e, b, hzl⟩, rfl, ha, he, congrArg (· ++ nodeTexts nodes) hb⟩
    · obtain ⟨u', rfl⟩ : ∃ u', u = n.zl.map text ++ u' := by
        have hpre := prefix_of_prefix_length_le (prefix_append (n.zl.map text) (nodeTexts nodes))
          (h ▸ prefix_append u (x :: w)) (by omega)
        exact ⟨_, hpre.choose_spec.symm⟩
      rw [append_assoc] at h
      obtain ⟨p, rfl, rfl, hx, hw⟩ := ih (append_cancel_left h)
      exact ⟨⟨n :: p.pre, p.n, p.post, p.a, p.e, p.b, p.zl_eq⟩, rfl, append_assoc .., hx, hw⟩

theorem Quicklist.Lists.exists_place (h : ql.Lists l) {i : ℕ} {s : Sds} (hs : l[i]? = some s) :
    ∃ p : Place, ql.nodes = p.nodes ∧ p.left = l.take i ∧ text p.e = s ∧
      p.right = l.drop (i + 1) := by
  obtain ⟨hi, rfl⟩ := List.getElem?_eq_some_iff.mp hs
  refine Vire.exists_place ?_
  rw [h.texts, ← drop_eq_getElem_cons hi, take_append_drop]

theorem quicklistIndexLoop_eq (pre post : List QuicklistNode) {q : ℕ} (hq : q < n.count)
    (i accum : ℕ) :
    quicklistIndexLoop (accum + (pre.map QuicklistNode.count).sum + q) (pre ++ n :: post) i accum =
      some (i + pre.length, accum + (pre.map QuicklistNode.count).sum) := by
  induction pre generalizing i accum with
  | nil => simp [quicklistIndexLoop, hq]
  | cons m pre ih =>
    have hnext := ih (i + 1) (accum + m.count)
    rw [Nat.add_assoc accum, Nat.add_right_comm i] at hnext
    rw [map_cons, sum_cons, cons_append, quicklistIndexLoop, if_neg (by omega), hnext]
    rfl

section

variable {p : Quicklist.Place} (h : ql.Lists l) (hql : ql.nodes = p.nodes)

include h hql

theorem Quicklist.Lists.place_length : l.length = p.left.length + (p.right.length + 1) := by
  rw [← h.texts, hql, p.nodeTexts_eq, length_append, length_cons]

theorem Quicklist.Lists.index (dir : Where) :
    quicklistIndex ql (dir.offsetBetween p.left p.right) = some (p.entry dir) := by
  have hlen := h.place_length hql
  obtain ⟨hpre, hn, hpost⟩ := p.forall_nodes.mp (hql ▸ h.sound)
  have hpre := sum_count hpre
  have hpost := sum_count hpost
  have hcount := Place.count_eq hn
  have hleft : p.left.length = (nodeTexts p.pre).length + p.a.length := by
    rw [Place.left, length_append, length_map]
  have hright : p.right.length = p.b.length + (nodeTexts p.post).length := by
    rw [Place.right, length_append, length_map]
  have hat : ∀ offset : ℤ, offset = dir.offsetBetween p.a p.b →
      quicklistEntryAt ql p.pre.length offset = some (p.entry dir) := by
    rintro _ rfl
    simp only [quicklistEntryAt, hql, p.getElem?_nodes, map_some, p.ziplistIndex_offset dir,
      bind_some, ziplistGet, p.getElem?_zl, getD_some]
    rfl
  cases dir with
  | head =>
    have hloop := quicklistIndexLoop_eq p.pre p.post (n := p.n) (q := p.a.length) (by omega) 0 0
    rw [hpre, Nat.zero_add, Nat.zero_add, ← hleft] at hloop
    rw [quicklistIndex, Where.offsetBetween, if_neg (by omega), Int.toNat_natCast,
      if_neg (by rw [h.count]; omega), hql, Place.nodes, hloop]
    exact hat _ (by rw [Where.offsetBetween]; omega)
  | tail =>
    have hloop :=
      quicklistIndexLoop_eq p.post.reverse p.pre.reverse (n := p.n) (q := p.b.length) (by omega) 0 0
    rw [map_reverse, sum_reverse, hpost, length_reverse, Nat.zero_add, Nat.zero_add,
      Nat.add_comm _ p.b.length, ← hright] at hloop
    have hi : (-(-((p.right.length : ℤ) + 1)) - 1).toNat = p.right.length := by omega
    have hreverse : ql.nodes.reverse = p.post.reverse ++ p.n :: p.pre.reverse := by
      rw [hql, Place.nodes]
      simp
    have hnode : ql.nodes.length - 1 - p.post.length = p.pre.length := by
      rw [hql, Place.nodes, length_append, length_cons]
      omega
    rw [quicklistIndex, Where.offsetBetween, if_pos (by omega), hi, if_neg (by rw [h.count]; omega),
      hreverse, hloop]
    dsimp only
    rw [hnode]
    exact hat _ (by rw [Where.offsetBetween]; omega)

end

theorem Quicklist.Lists.index_none (h : ql.Lists l) {idx : ℤ}
    (hidx : idx < -l.length ∨ l.length ≤ idx) :
    quicklistIndex ql idx = none := by
  rw [quicklistIndex]
  simp only [h.count]
  split_ifs with hneg hle hle
  · rfl
  · omega
  · rfl
  · omega

theorem mem_contents_deleteFrom {zl : Ziplist} {q num : ℕ} {e : Zlentry}
    (he : e ∈ ziplistDeleteFrom zl q num) :
    ∃ e' ∈ zl, e'.content = e.content := by
  have hmem := mem_map_of_mem (f := Zlentry.content) he
  rw [contents_deleteFrom, mem_append] at hmem
  exact mem_map.mp (hmem.elim mem_of_mem_take mem_of_mem_drop)

theorem map_text_of_contents {zl : Ziplist} {es : List ZipEntry} (h : zl.map Zlentry.content = es) :
    zl.map text = es.map ZipEntry.text := by
  rw [← h, List.map_map]
  rfl

theorem texts_deleteFrom (zl : Ziplist) (q num : ℕ) :
    (ziplistDeleteFrom zl q num).map text =
      (zl.map text).take q ++ (zl.map text).drop (q + num) := by
  rw [map_text_of_contents (contents_deleteFrom zl q num), map_append, map_take, map_drop,
    ← map_text_of_contents rfl]

def QuicklistNode.CutTo (n n' : QuicklistNode) : Prop :=
  ∃ q num count, n' = ⟨ziplistDeleteFrom n.zl q num,
    ziplistBlobLen (ziplistDeleteFrom n.zl q num), count⟩

/-- Every node is one of the old ones, or what is left of one. -/
def KeepsNodes (nodes nodes' : List QuicklistNode) :
    Prop := ∀ n' ∈ nodes', ∃ n ∈ nodes, n' = n ∨ n.CutTo n'

namespace Quicklist.Place

variable {p : Place} {m k : ℕ} {post : List QuicklistNode}

/-- The node without `m` entries from the place on, unless none is left, and other nodes behind
it. -/
def cut (p : Place) (m : ℕ) (post : List QuicklistNode) : List QuicklistNode :=
  if p.a = [] ∧ p.b.length < m then post
  else
    let zl := ziplistDeleteFrom p.n.zl p.a.length m
    ⟨zl, ziplistBlobLen zl, p.n.count - m⟩ :: post

theorem texts_cut (p : Place) (m : ℕ) : (ziplistDeleteFrom p.n.zl p.a.length m).map text =
    p.a.map text ++ (text p.e :: p.b.map text).drop m := by
  rw [texts_deleteFrom, p.zl_eq, map_append, map_cons, take_left' (length_map _),
    ← drop_drop, drop_left' (length_map _)]

theorem nodeTexts_cut (p : Place) (m : ℕ) (post : List QuicklistNode) :
    nodeTexts (p.cut m post) =
      p.a.map text ++ ((text p.e :: p.b.map text).drop m ++ nodeTexts post) := by
  rw [cut]
  split_ifs with hgone
  · rw [hgone.1, drop_eq_nil_of_le (by rw [length_cons, length_map]; exact hgone.2)]
    rfl
  · rw [nodeTexts_cons, p.texts_cut, append_assoc]

theorem nodeTexts_cut_drop (p : Place) {k : ℕ} (hm : m = min k (p.b.length + 1))
    (hpost : nodeTexts post = (nodeTexts p.post).drop (k - m)) :
    nodeTexts (p.cut m post) = p.a.map text ++ (text p.e :: p.right).drop k := by
  rw [nodeTexts_cut, hpost, right, ← cons_append, drop_append, length_cons, length_map]
  rcases Nat.le_total k (p.b.length + 1) with hle | hle
  · rw [hm, Nat.min_eq_left hle, Nat.sub_self, Nat.sub_eq_zero_of_le hle]
  · have hnil : ∀ j, p.b.length + 1 ≤ j → (text p.e :: p.b.map text).drop j = [] := fun j hj =>
      drop_eq_nil_of_le (by simpa using hj)
    rw [hm, Nat.min_eq_right hle, hnil _ le_rfl, hnil _ hle]

theorem forall_cut (hpost : ∀ n ∈ post, P n)
    (hcut : ¬ (p.a = [] ∧ p.b.length < m) → P ⟨ziplistDeleteFrom p.n.zl p.a.length m,
      ziplistBlobLen (ziplistDeleteFrom p.n.zl p.a.length m), p.n.count - m⟩) :
        ∀ n ∈ p.cut m post, P n := by
  rw [cut]
  split_ifs with hgone
  · exact hpost
  · exact forall_mem_cons.mpr ⟨hcut hgone, hpost⟩

theorem sound_cut (hn : p.n.Sound) (hm : m ≤ p.b.length + 1) (hpost : ∀ n ∈ post, n.Sound) :
    ∀ n ∈ p.cut m post, n.Sound := by
  refine forall_cut hpost fun hleft => ?_
  have hlen := congrArg length (p.texts_cut m)
  rw [length_map, length_append, length_map, length_drop, length_cons,
    length_map] at hlen
  have hcount := count_eq hn
  refine ⟨ne_nil_of_length_pos ?_, ?_, fun e he => ?_⟩
  · have : 0 < p.a.length ∨ m < p.b.length + 1 := by
      rw [← not_lt, ← length_eq_zero_iff] at *
      omega
    dsimp only
    omega
  · dsimp only
    omega
  · obtain ⟨e', he', hcontent⟩ := mem_contents_deleteFrom he
    exact hcontent ▸ hn.fits e' he'

def without (p : Place) : List QuicklistNode := p.pre ++ p.cut 1 p.post

theorem keeps_without (p : Place) : KeepsNodes p.nodes p.without := by
  rw [KeepsNodes, without, forall_mem_append]
  refine ⟨fun n hn => ⟨n, by simp [nodes, hn], .inl rfl⟩,
    forall_cut (fun n hn => ⟨n, by simp [nodes, hn], .inl rfl⟩) fun _ =>
      ⟨p.n, by simp [nodes], .inr ⟨_, _, _, rfl⟩⟩⟩

theorem delIndex (hql : ql.nodes = p.nodes) (hn : p.n.Sound) :
    quicklistDelIndex ql p.pre.length p.a.length =
      some { ql with nodes := p.without, count := ql.count - 1 } := by
  have hone : p.n.count - 1 = 0 ↔ p.a = [] ∧ p.b.length < 1 := by
    rw [count_eq hn, ← length_eq_zero_iff]
    omega
  rw [quicklistDelIndex, hql, p.getElem?_nodes, map_some, without, cut]
  simp only [hone]
  split_ifs
  · simp [nodes, eraseIdx_append_of_length_le]
  · simp [nodes, ziplistDelete]

end Quicklist.Place

section

variable {p : Quicklist.Place} (h : ql.Lists l) (hql : ql.nodes = p.nodes)

include h hql

theorem Quicklist.Lists.without :
    ({ ql with nodes := p.without, count := ql.count - 1 } : Quicklist).Lists
      (p.left ++ p.right) := by
  obtain ⟨hpre, hn, hpost⟩ := p.forall_nodes.mp (hql ▸ h.sound)
  refine ⟨?_, ?_, ?_⟩
  · exact forall_mem_append.mpr ⟨hpre, Place.sound_cut hn (Nat.le_add_left ..) hpost⟩
  · simp [Place.without, Place.nodeTexts_cut, Place.left, Place.right]
  · have := h.place_length hql
    rw [h.count, length_append]
    dsimp only
    omega

theorem Quicklist.Lists.replace {idx : ℤ}
    (hidx : idx = p.left.length ∨ idx = p.left.length - l.length) (s : Sds) :
    ∃ zl, ziplistInsert (ziplistDelete p.n.zl p.a.length) p.a.length s = some zl ∧
      quicklistReplaceAtIndex ql idx s =
        some (true, { ql with nodes := p.pre ++ { p.n with zl := zl } :: p.post }) ∧
      ({ ql with nodes := p.pre ++ { p.n with zl := zl } :: p.post } : Quicklist).Lists
        (p.left ++ s :: p.right) := by
  have hlen := h.place_length hql
  obtain ⟨dir, rfl⟩ : ∃ dir : Where, idx = dir.offsetBetween p.left p.right := by
    rcases hidx with rfl | rfl
    · exact ⟨.head, rfl⟩
    · exact ⟨.tail, by rw [Where.offsetBetween]; omega⟩
  obtain ⟨zl, hzl⟩ := ziplistInsert_delete_some p.n.zl (p := p.a.length) (by simp [p.zl_eq]) s
  obtain ⟨hpre, hn, hpost⟩ := p.forall_nodes.mp (hql ▸ h.sound)
  have hcontents : zl.map Zlentry.content =
      p.a.map Zlentry.content ++ zipEntry s :: p.b.map Zlentry.content := by
    rw [contents_replace (by simp [p.zl_eq]) hzl, p.zl_eq]
    simp
  have htexts := map_text_of_contents hcontents
  rw [map_append, map_cons, ← map_text_of_contents rfl, ← map_text_of_contents rfl] at htexts
  refine ⟨zl, hzl, ?_, forall_mem_append.mpr ⟨hpre, forall_mem_cons.mpr ⟨⟨?_, ?_, ?_⟩, hpost⟩⟩,
    ?_, ?_⟩
  · rw [quicklistReplaceAtIndex, h.index hql dir]
    simp only [Place.entry, hql, p.getElem?_nodes, bind_eq_bind, bind_some, hzl]
    simp [Place.nodes]
  · rintro rfl
    simp at hcontents
  · have := congrArg length hcontents
    rw [length_map, length_append, length_cons, length_map, length_map] at this
    rw [Place.count_eq hn, this]
  · intro e he
    have hmem := mem_map_of_mem (f := Zlentry.content) he
    rw [hcontents, mem_append, mem_cons] at hmem
    have hold : ∀ e' ∈ p.n.zl, e'.content = e.content → e.content.Fits :=
      fun e' he' hc => hc ▸ hn.fits e' he'
    rcases hmem with hmem | hmem | hmem
    · obtain ⟨e', he', hc⟩ := mem_map.mp hmem
      exact hold e' (by simp [p.zl_eq, he']) hc
    · exact hmem ▸ fits_zipEntry s
    · obtain ⟨e', he', hc⟩ := mem_map.mp hmem
      exact hold e' (by simp [p.zl_eq, he']) hc
  · simp only [nodeTexts_append, nodeTexts_cons, htexts, Place.left, Place.right, append_assoc]
    rw [show ZipEntry.text (zipEntry s) = s from text_zipEntry s]
    rfl
  · rw [h.count, hlen, length_append, length_cons]

end

theorem Quicklist.Lists.pop (h : ql.Lists (w.put s l)) :
    ∃ p : Place, ql.nodes = p.nodes ∧ text p.e = s ∧ p.left ++ p.right = l ∧
      quicklistPopCustom ql w =
        some (some p.e.content, { ql with nodes := p.without, count := ql.count - 1 }) := by
  have hput : ∃ u v, w.put s l = u ++ s :: v ∧ u ++ v = l ∧
      (w = .head ∧ u = [] ∨ w = .tail ∧ v = []) := by
    cases w with
    | head => exact ⟨[], l, rfl, rfl, .inl ⟨rfl, rfl⟩⟩
    | tail => exact ⟨l, [], rfl, append_nil l, .inr ⟨rfl, rfl⟩⟩
  obtain ⟨u, v, huv, rfl, hend⟩ := hput
  obtain ⟨p, hql, rfl, rfl, rfl⟩ := Vire.exists_place (h.texts.trans huv)
  obtain ⟨hpre, hn, hpost⟩ := p.forall_nodes.mp (hql ▸ h.sound)
  have hdel := p.delIndex hql hn
  have hcount : ql.count ≠ 0 := by
    rw [h.count, huv, length_append, length_cons]
    omega
  have hget : ziplistGet p.n.zl p.a.length = some p.e.content := by
    rw [ziplistGet, p.getElem?_zl]; rfl
  refine ⟨p, hql, rfl, rfl, ?_⟩
  unfold quicklistPopCustom
  rw [if_neg hcount]
  rcases hend with ⟨rfl, hnil⟩ | ⟨rfl, hnil⟩
  · obtain ⟨hpre', ha⟩ := append_eq_nil_iff.mp hnil
    have hzero : p.pre.length = 0 := by
      rw [nodes_eq_nil (fun n hn => (hpre n hn).ne_nil) hpre']; rfl
    have ha : p.a.length = 0 := by rw [map_eq_nil_iff.mp ha]; rfl
    have hnode := p.getElem?_nodes
    have hindex := p.ziplistIndex_offset .head
    rw [Where.offsetBetween, ha, Int.natCast_zero] at hindex
    rw [hzero, ← hql] at hnode
    rw [hzero, ha] at hdel
    rw [ha] at hget
    simp only [hnode, hindex, hdel, hget, map_some]
  · obtain ⟨hb, hpost'⟩ := append_eq_nil_iff.mp hnil
    have hlast : ql.nodes.length - 1 = p.pre.length := by
      rw [hql, Place.nodes, nodes_eq_nil (fun n hn => (hpost n hn).ne_nil) hpost', length_append]
      rfl
    have hnode := p.getElem?_nodes
    rw [← hql] at hnode
    have hindex : ziplistIndex p.n.zl (-1) = some p.a.length := by
      have := p.ziplistIndex_offset .tail
      rwa [Where.offsetBetween, map_eq_nil_iff.mp hb] at this
    simp only [hlast, hnode, hindex, hdel, hget, map_some]

/-- The node has more than `k` entries, but fewer than `k` from the place on. -/
def Quicklist.Place.Overruns (p : Place) (k : ℕ) :
    Prop := k < p.n.count ∧ p.n.count < p.a.length + k

theorem toNat_sub_mod {a b : ℕ} (hle : b ≤ a) (hlt : a < 2 ^ 16) :
    (((a : ℤ) - b) % 2 ^ 16).toNat = a - b := by
  omega

section

variable {p : Quicklist.Place} {k : ℕ}

theorem delRangeLoop_place (dir : Where) (hn : p.n.Sound) (hlt : p.n.count < 2 ^ 16) (hk : 0 < k)
    (hnot : dir = .head → ¬ p.Overruns k) {post : List QuicklistNode} {m : ℕ}
    (hm : m = min k (p.b.length + 1))
    (hrest : quicklistDelRangeLoop p.post (k - m) 0 = some (post, k - m)) :
    quicklistDelRangeLoop (p.n :: p.post) k (dir.offsetBetween p.a p.b) =
      some (p.cut m post, k) := by
  have hcount := p.count_eq hn
  obtain ⟨offset, hoffset⟩ : ∃ offset, offset = dir.offsetBetween p.a p.b := ⟨_, rfl⟩
  have hdel : ∃ whole, quicklistDelFrom p.n k offset = (whole, m) ∧
      (whole = true → p.a = [] ∧ p.b.length < m) := by
    have hdir : offset = p.a.length ∧ (p.n.count ≤ k ∨ p.a.length + k ≤ p.n.count) ∨
        offset = -(p.b.length + 1) := by
      cases dir with
      | head =>
        have := hnot rfl
        rw [Quicklist.Place.Overruns] at this
        exact .inl ⟨hoffset, by omega⟩
      | tail => exact .inr hoffset
    rw [quicklistDelFrom, ← length_eq_zero_iff]
    split_ifs
    · exact ⟨true, Prod.ext rfl (by omega), fun _ => by omega⟩
    · exact ⟨false, Prod.ext rfl (by omega), fun hw => Bool.noConfusion hw⟩
    · exact ⟨false, Prod.ext rfl (by omega), fun hw => Bool.noConfusion hw⟩
    · exact ⟨false, Prod.ext rfl (by omega), fun hw => Bool.noConfusion hw⟩
  obtain ⟨whole, hdel, hwhole⟩ := hdel
  obtain ⟨k, rfl⟩ := Nat.exists_eq_add_one_of_ne_zero hk.ne'
  have hleft : k + 1 - m + m = k + 1 := by omega
  have hzero : p.n.count - m = 0 ↔ p.a = [] ∧ p.b.length < m := by
    rw [← length_eq_zero_iff]
    omega
  rw [← hoffset, quicklistDelRangeLoop, hdel]
  rw [hrest, map_some, hleft, toNat_sub_mod (by omega) hlt, Quicklist.Place.cut,
    ziplistDeleteRange, hoffset, p.ziplistIndex_offset]
  simp only [hzero]
  by_cases hgone : p.a = [] ∧ p.b.length < m
  · rw [if_pos hgone, if_pos hgone, ite_self]
  · rw [if_neg fun h => hgone (hwhole h), if_neg hgone, if_neg hgone]

theorem delRangeLoop_nodes {nodes : List QuicklistNode} (hsound : ∀ n ∈ nodes, n.Sound)
    (hlt : ∀ n ∈ nodes, n.count < 2 ^ 16) (hk : k ≤ (nodeTexts nodes).length) :
    ∃ nodes', quicklistDelRangeLoop nodes k 0 = some (nodes', k) ∧ (∀ n ∈ nodes', n.Sound) ∧
      nodeTexts nodes' = (nodeTexts nodes).drop k := by
  induction nodes generalizing k with
  | nil =>
    obtain rfl : k = 0 := Nat.le_zero.mp hk
    exact ⟨[], rfl, hsound, rfl⟩
  | cons n nodes ih =>
    rcases Nat.eq_zero_or_pos k with rfl | hpos
    · exact ⟨n :: nodes, by rw [quicklistDelRangeLoop], hsound, rfl⟩
    · obtain ⟨hn, hnodes⟩ := forall_mem_cons.mp hsound
      obtain ⟨hlt, hlts⟩ := forall_mem_cons.mp hlt
      obtain ⟨e, b, hzl⟩ := exists_cons_of_ne_nil hn.ne_nil
      let p : Quicklist.Place := ⟨[], n, nodes, [], e, b, hzl⟩
      have hnot : ¬ p.Overruns k := by
        rintro ⟨hlt' : k < n.count, hgt : n.count < 0 + k⟩
        omega
      rw [nodeTexts_cons, hzl, length_append, length_map, length_cons] at hk
      obtain ⟨nodes', hloop, hsound', htexts⟩ :=
        ih hnodes hlts (k := k - min k (b.length + 1)) (by omega)
      refine ⟨_, delRangeLoop_place (p := p) .head hn hlt hpos (fun _ => hnot) rfl hloop,
        Quicklist.Place.sound_cut (p := p) hn (Nat.min_le_right ..) hsound', ?_⟩
      rw [p.nodeTexts_cut_drop rfl htexts, nodeTexts_cons, hzl]
      rfl

theorem keeps_delRangeLoop {nodes nodes' : List QuicklistNode} {offset : ℤ} {r : ℕ}
    (h : quicklistDelRangeLoop nodes k offset = some (nodes', r)) : KeepsNodes nodes nodes' := by
  induction nodes generalizing k offset nodes' r with
  | nil =>
    cases k with
    | zero =>
      cases h
      exact fun n' hn' => ⟨n', hn', .inl rfl⟩
    | succ k => cases h
  | cons n nodes ih =>
    cases k with
    | zero =>
      cases h
      exact fun n' hn' => ⟨n', hn', .inl rfl⟩
    | succ k =>
      obtain ⟨rest, hrest, h⟩ := map_eq_some_iff.mp h
      have hold : KeepsNodes (n :: nodes) rest.1 := fun n' hn' => by
        obtain ⟨m, hm, hkept⟩ := ih hrest n' hn'
        exact ⟨m, mem_cons_of_mem _ hm, hkept⟩
      dsimp only at h
      split_ifs at h
      · cases h
        exact hold
      · cases h
        exact hold
      · cases h
        refine forall_mem_cons.mpr ⟨⟨n, mem_cons_self .., ?_⟩, hold⟩
        rw [ziplistDeleteRange]
        split
        · exact .inr ⟨0, 0, _, by rw [ziplistDeleteFrom, if_pos rfl]⟩
        · exact .inr ⟨_, _, _, rfl⟩

variable {count : ℤ}

theorem keeps_delRange {ql' : Quicklist} {start : ℤ}
    (h : quicklistDelRange ql start count = some ql') :
    KeepsNodes ql.nodes ql'.nodes := by
  have hself : KeepsNodes ql.nodes ql.nodes := fun n hn => ⟨n, hn, .inl rfl⟩
  rw [quicklistDelRange] at h
  by_cases hcount : count ≤ 0
  · rw [if_pos hcount] at h
    cases h
    exact hself
  · rw [if_neg hcount] at h
    dsimp only at h
    split at h
    · cases h
      exact hself
    · obtain ⟨r, hloop, rfl⟩ := map_eq_some_iff.mp h
      refine forall_mem_append.mpr ⟨fun n hn => ⟨n, mem_of_mem_take hn, .inl rfl⟩, fun n' hn' => ?_⟩
      obtain ⟨n, hn, hkept⟩ := keeps_delRangeLoop hloop n' hn'
      exact ⟨n, mem_of_mem_drop hn, hkept⟩

variable (h : ql.Lists l) (hql : ql.nodes = p.nodes)

include h hql

theorem Quicklist.Lists.delRange_eq (hmany : l.length < 2 ^ 64) (dir : Where) (hcount : 0 < count) :
    quicklistDelRange ql (dir.offsetBetween p.left p.right) count =
      (quicklistDelRangeLoop (p.n :: p.post) (min count.toNat (p.right.length + 1))
        (dir.offsetBetween p.a p.b)).map
        fun r => { ql with nodes := p.pre ++ r.1, count := ql.count - r.2 } := by
  have hlen := h.place_length hql
  have hindex := h.index hql dir
  obtain ⟨start, hstart⟩ : ∃ start, start = dir.offsetBetween p.left p.right := ⟨_, rfl⟩
  have hdir : start = p.left.length ∨ start = -(p.right.length + 1) := by
    cases dir with
    | head => exact .inl hstart
    | tail => exact .inr hstart
  have hextent :
    (if 0 ≤ start ∧ ((ql.count : ℤ) - start) % 2 ^ 64 < count then ((ql.count : ℤ) - start) % 2 ^ 64
      else if start < 0 ∧ -start < count then -start else count).toNat =
        min count.toNat (p.right.length + 1) := by
    rw [h.count]
    split_ifs <;> omega
  rw [← hstart] at hindex ⊢
  rw [quicklistDelRange, if_neg (by omega)]
  simp only [hextent, hindex, Place.entry, hql, Place.nodes, drop_left, take_left]

theorem Quicklist.Lists.delRange (dir : Where) (hlt : ∀ n ∈ ql.nodes, n.count < 2 ^ 16)
    (hmany : l.length < 2 ^ 64) (hcount : 0 < count)
    (hk : k = min count.toNat (p.right.length + 1)) (hnot : dir = .head → ¬ p.Overruns k) :
    ∃ ql', quicklistDelRange ql (dir.offsetBetween p.left p.right) count = some ql' ∧
      ql'.Lists (p.left ++ (text p.e :: p.right).drop k) := by
  obtain ⟨hpre, hn, hpost⟩ := p.forall_nodes.mp (hql ▸ h.sound)
  obtain ⟨-, hltn, hltpost⟩ := p.forall_nodes.mp (hql ▸ hlt)
  have hright : p.right.length = p.b.length + (nodeTexts p.post).length := by
    rw [Place.right, length_append, length_map]
  obtain ⟨m, hm⟩ : ∃ m, m = min k (p.b.length + 1) := ⟨_, rfl⟩
  obtain ⟨post, hloop, hsound, htexts⟩ := delRangeLoop_nodes hpost hltpost (k := k - m) (by omega)
  rw [h.delRange_eq hql hmany dir hcount, ← hk,
    delRangeLoop_place dir hn hltn (by omega) hnot hm hloop]
  refine ⟨_, rfl, forall_mem_append.mpr ⟨hpre, Place.sound_cut hn (by omega) hsound⟩, ?_, ?_⟩
  · rw [nodeTexts_append, p.nodeTexts_cut_drop hm htexts, Place.left, append_assoc]
  · have := h.place_length hql
    rw [h.count, length_append, length_drop, length_cons]
    dsimp only
    omega

theorem Quicklist.Lists.delRange_overruns (hlt : ∀ n ∈ ql.nodes, n.count < 2 ^ 16)
    (hmany : l.length < 2 ^ 64) (hcount : 0 < count) (hk : k = min count.toNat (p.right.length + 1))
    (hover : p.Overruns k)
    {ql' : Quicklist} {l' : List Sds} (hdel : quicklistDelRange ql p.left.length count = some ql') :
    ¬ ql'.Lists l' := by
  obtain ⟨hless, hmore⟩ := hover
  obtain ⟨-, hn, -⟩ := p.forall_nodes.mp (hql ▸ h.sound)
  obtain ⟨-, hltn, -⟩ := p.forall_nodes.mp (hql ▸ hlt)
  have hcut : quicklistDelFrom p.n k p.a.length = (false, k) := by
    rw [quicklistDelFrom, if_neg (by omega), if_neg (by omega), if_neg (by omega)]
  have hindex : ziplistIndex p.n.zl p.a.length = some p.a.length := p.ziplistIndex_offset .head
  have hloop : quicklistDelRangeLoop (p.n :: p.post) k p.a.length =
      some (⟨ziplistDeleteFrom p.n.zl p.a.length k,
        ziplistBlobLen (ziplistDeleteFrom p.n.zl p.a.length k), p.n.count - k⟩ :: p.post, k) := by
    obtain ⟨j, hj⟩ := Nat.exists_eq_add_one_of_ne_zero (n := k) (by omega)
    rw [hj, quicklistDelRangeLoop, ← hj, hcut]
    rw [Nat.sub_self, quicklistDelRangeLoop, map_some, toNat_sub_mod hless.le hltn,
      if_neg Bool.false_ne_true, if_neg (by omega), ziplistDeleteRange, hindex, Nat.zero_add]
  have heq := h.delRange_eq hql hmany .head hcount
  rw [Where.offsetBetween, hdel, ← hk, Where.offsetBetween, hloop, map_some,
    some.injEq] at heq
  intro hlists
  have hbad := (hlists.sound _ (by rw [heq]; exact mem_append_right _ (mem_cons_self ..))).count
  have hlen := congrArg length (p.texts_cut k)
  rw [length_map, length_append, length_map, length_drop, length_cons,
    length_map] at hlen
  dsimp only at hbad
  omega

end

def rangeStart (l : List Sds) (start : ℤ) :
    ℕ := (if start < 0 then start + l.length else start).toNat

def rangeExtent (l : List Sds) (start count : ℤ) :
    ℕ := min count.toNat (l.length - rangeStart l start)

section

variable (h : ql.Lists l) (hlt : ∀ n ∈ ql.nodes, n.count < 2 ^ 16) (hmany : l.length < 2 ^ 64)
  {start count : ℤ} (hlo : -(l.length : ℤ) ≤ start) (hhi : start < l.length) (hcount : 1 ≤ count)

theorem rangeStart_lt (hlo : -(l.length : ℤ) ≤ start) (hhi : start < l.length) :
    rangeStart l start < l.length := by
  rw [rangeStart]
  split_ifs <;> omega

include h in
theorem rangeExtent_eq {p : Quicklist.Place} (hql : ql.nodes = p.nodes)
    (hleft : p.left.length = rangeStart l start) :
    rangeExtent l start count = min count.toNat (p.right.length + 1) := by
  have := h.place_length hql
  rw [rangeExtent, ← hleft]
  omega

include h hlt hmany hlo hhi hcount

theorem Quicklist.Lists.delRange_exact
    (hnot : ∀ p : Place, ql.nodes = p.nodes → (p.left.length : ℤ) = start →
      ¬ p.Overruns (rangeExtent l start count)) :
    ∃ ql', quicklistDelRange ql start count = some ql' ∧
      ql'.Lists (l.take (rangeStart l start) ++
        l.drop (rangeStart l start + rangeExtent l start count)) := by
  have hstart := rangeStart_lt hlo hhi
  obtain ⟨p, hql, hleft, he, hright⟩ := h.exists_place (getElem?_eq_getElem hstart)
  have hpos : p.left.length = rangeStart l start := by
    rw [hleft, length_take, Nat.min_eq_left hstart.le]
  have hlen := h.place_length hql
  have hdrop : (text p.e :: p.right).drop (rangeExtent l start count) =
      l.drop (rangeStart l start + rangeExtent l start count) := by
    rw [← drop_drop, drop_eq_getElem_cons hstart, ← hright, he]
  obtain ⟨dir, hdir, hhead⟩ : ∃ dir : Where, dir.offsetBetween p.left p.right = start ∧
      (dir = .head → (p.left.length : ℤ) = start) := by
    rw [rangeStart] at hpos
    by_cases hneg : start < 0
    · exact ⟨.tail, by rw [Where.offsetBetween]; omega, fun hd => nomatch hd⟩
    · exact ⟨.head, by rw [Where.offsetBetween]; omega, fun _ => by omega⟩
  have hdel := h.delRange hql dir hlt hmany hcount (rangeExtent_eq h hql hpos)
    fun hd => hnot p hql (hhead hd)
  rwa [hdir, hleft, hdrop] at hdel

/-- `quicklistDelRange` deletes the elements it is to delete, unless it starts behind the first
entry of a node which has more entries than that, but not as many from there on. -/
theorem delRange_exact_iff :
    (∃ ql', quicklistDelRange ql start count = some ql' ∧
        ql'.Lists (l.take (rangeStart l start) ++
          l.drop (rangeStart l start + rangeExtent l start count))) ↔
      ∀ p : Quicklist.Place, ql.nodes = p.nodes → (p.left.length : ℤ) = start →
        ¬ p.Overruns (rangeExtent l start count) := by
  refine ⟨?_, h.delRange_exact hlt hmany hlo hhi hcount⟩
  rintro ⟨ql', hdel, hlists⟩ p hql hleft hover
  have hpos : p.left.length = rangeStart l start := by
    rw [rangeStart, ← hleft, if_neg (by omega), Int.toNat_natCast]
  rw [← hleft] at hdel
  exact h.delRange_overruns hql hlt hmany hcount (rangeExtent_eq h hql hpos) hover hdel hlists

end

def Quicklist.ofList (l : List Sds) : Quicklist where
  nodes := l.map fun s => ⟨[⟨false, zipEntry s⟩], ziplistBlobLen [⟨false, zipEntry s⟩], 1⟩
  count := l.length
  fill := 1

theorem Quicklist.lists_ofList (l : List Sds) : (Quicklist.ofList l).Lists l where
  sound n hn := by
    obtain ⟨s, -, rfl⟩ := mem_map.mp hn
    refine ⟨cons_ne_nil _ _, rfl, fun e he => ?_⟩
    obtain rfl := mem_singleton.mp he
    exact fits_zipEntry s
  texts := by
    rw [ofList]
    induction l with
    | nil => rfl
    | cons s l ih =>
      rw [map_cons, nodeTexts_cons, ih]
      exact congrArg (· :: l) (text_zipEntry s)
  count := rfl

theorem delRange_exact_last :
    (∃ ql', quicklistDelRange (Quicklist.ofList [[97], [98]]) (-1) 1 = some ql' ∧
        ql'.Lists ([[97], [98]].take (rangeStart [[97], [98]] (-1)) ++
          [[97], [98]].drop (rangeStart [[97], [98]] (-1) + rangeExtent [[97], [98]] (-1) 1))) ↔
      ∀ p : Quicklist.Place, (Quicklist.ofList [[97], [98]]).nodes = p.nodes →
        (p.left.length : ℤ) = -1 → ¬ p.Overruns (rangeExtent [[97], [98]] (-1) 1) :=
  delRange_exact_iff (Quicklist.lists_ofList _) (by simp [Quicklist.ofList]) (by decide)
    (by decide) (by decide) (by decide)

/-- Two elements are deleted, from the third one on.  It is the last entry of its node; the fourth
element stays, and the node counts one entry less than it has. -/
theorem delRange_keeps_element :
    (((([[97], [98], [99], [100]] : List Sds).foldlM quicklistPushTail (quicklistNew 3)).bind
      (quicklistDelRange · 2 2)).map fun ql =>
        (nodeTexts ql.nodes, ql.nodes.map QuicklistNode.count, ql.count)) =
      some ([[97], [98], [100]], [1, 1], 2) := by
  decide

end Vire
