import Vire.Keyspace.Handler.List
import Vire.Keyspace.Proofs.Handler
import Vire.Keyspace.Proofs.Layout

/-!
# LREM

An iterator stands between two elements of the list.  What it returns is the next element, and after
that element is deleted it stands between its neighbours: in the same node, whose offsets from the
near end are still right, or at the end of the next one if the node is gone.
-/

namespace Vire

open List Option Logic Prog

/-- The list without the first `n` of the elements that are `v`. -/
def withoutFirst (v : Sds) : ℕ → List Sds → List Sds
  | _, [] => []
  | 0, l => l
  | n + 1, x :: l => if x = v then withoutFirst v n l else x :: withoutFirst v (n + 1) l

/-- What LREM leaves: the first occurrences are removed, the last, or all of them. -/
def lremLeft (v : Sds) (count : ℤ) (l : List Sds) : List Sds :=
  if 0 < count then withoutFirst v count.toNat l
  else if count < 0 then (withoutFirst v (-count).toNat l.reverse).reverse
  else l.filter (· ≠ v)

theorem withoutFirst_zero (v : Sds) (l : List Sds) : withoutFirst v 0 l = l := by
  cases l <;> rfl

variable {l : List Sds} {n : ℕ}

theorem withoutFirst_of_length_le {v : Sds} (h : l.length ≤ n) :
    withoutFirst v n l = l.filter (· ≠ v) := by
  induction l generalizing n with
  | nil => cases n <;> rfl
  | cons x l ih =>
    obtain ⟨n, rfl⟩ := Nat.exists_eq_add_one_of_ne_zero (n := n) (by rw [length_cons] at h; omega)
    rw [length_cons] at h
    rw [withoutFirst]
    split_ifs with hx
    · rw [ih (by omega), filter_cons_of_neg (by simpa using hx)]
    · rw [ih (by omega), filter_cons_of_pos (by simpa using hx)]

theorem length_withoutFirst_le (v : Sds) (n : ℕ) (l : List Sds) :
    (withoutFirst v n l).length ≤ l.length := by
  fun_induction withoutFirst v n l with
  | case1 => exact le_rfl
  | case2 => exact le_rfl
  | case3 n l ih => exact ih.trans (Nat.le_succ _)
  | case4 n x l hx ih => exact Nat.succ_le_succ ih

theorem length_withoutFirst (v : Sds) (n : ℕ) (l : List Sds) :
    (withoutFirst v n l).length + min n (l.count v) = l.length := by
  fun_induction withoutFirst v n l with
  | case1 => simp
  | case2 => simp
  | case3 n l ih =>
    rw [count_cons_self, length_cons]
    omega
  | case4 n x l hx ih =>
    rw [count_cons_of_ne hx, length_cons, length_cons]
    omega

theorem lremLeft_replicate (v : Sds) (n : ℕ) :
    lremLeft v 1 (replicate (n + 1) v) = replicate n v := by
  rw [lremLeft, if_pos Int.one_pos, replicate_succ]
  simp [withoutFirst, withoutFirst_zero]

def lremNumber (v : Sds) (count : ℤ) (l : List Sds) : ℕ :=
  if count = 0 then l.count v else min count.natAbs (l.count v)

theorem length_lremLeft (v : Sds) (count : ℤ) (l : List Sds) :
    (lremLeft v count l).length + lremNumber v count l = l.length := by
  rw [lremLeft, lremNumber]
  rcases lt_trichotomy count 0 with hneg | rfl | hpos
  · have h := length_withoutFirst v (-count).toNat l.reverse
    rw [count_reverse, length_reverse] at h
    rw [if_neg (by omega), if_pos hneg, if_neg (by omega), length_reverse]
    omega
  · have h := length_withoutFirst v l.length l
    rw [withoutFirst_of_length_le le_rfl, min_eq_right count_le_length] at h
    simpa only [lt_irrefl, if_false, if_true] using h
  · have h := length_withoutFirst v count.toNat l
    rw [if_pos hpos, if_neg (by omega)]
    omega

def Where.list (l : List Sds) : Where → List Sds
  | .head => l
  | .tail => l.reverse

/-- What is before an iterator that has returned `done`, with `rest` to come. -/
def Where.before (done rest : List Sds) : Where → List Sds
  | .head => done
  | .tail => rest.reverse

def Where.behind (done rest : List Sds) : Where → List Sds
  | .head => rest
  | .tail => done.reverse

theorem Where.list_append (dir : Where) (done rest : List Sds) :
    dir.list (done ++ rest) = dir.before done rest ++ dir.behind done rest := by
  cases dir with
  | head => rfl
  | tail => exact reverse_append

theorem Where.length_list (dir : Where) (l : List Sds) : (dir.list l).length = l.length := by
  cases dir with
  | head => rfl
  | tail => exact length_reverse

/-- The iterator is in a node, or has come to the end. -/
inductive QuicklistCursor.Between (iter : QuicklistCursor) (dir : Where)
    (nodes : List QuicklistNode) (done rest : List Sds) : Prop
  | inside {pre post : List QuicklistNode} {n : QuicklistNode} {a b : Ziplist}
      (hnodes : nodes = pre ++ n :: post) (hcurrent : iter.current = some pre.length)
        (hzl : n.zl = a ++ b)
      (hlook : iter.look n.zl = (dir.between a b, dir.offsetBetween a b))
      (hbefore : dir.before done rest = nodeTexts pre ++ a.map text)
      (hbehind : dir.behind done rest = b.map text ++ nodeTexts post)
  | outside (hcurrent : iter.current = none) (hrest : rest = [])

/-- The iterator has returned `done`, and `rest` is to come. -/
structure QuicklistCursor.Stands (iter : QuicklistCursor) (dir : Where) (nodes : List QuicklistNode)
    (done rest : List Sds) : Prop where
  direction : iter.direction = dir
  between : iter.Between dir nodes done rest

/-- A new iterator between two nodes, on its way from one end. -/
def Where.enter (pre post : List QuicklistNode) (dir : Where) : QuicklistCursor :=
  ⟨dir.between pre post, none, dir.entryOffset, dir⟩

def Where.leave (pre : List QuicklistNode) (n : QuicklistNode) (post : List QuicklistNode) :
    Where → QuicklistCursor
  | .head => Where.head.enter (pre ++ [n]) post
  | .tail => Where.tail.enter pre (n :: post)

/-- The number of nodes that are left to an iterator. -/
def Where.far (pre post : List QuicklistNode) : Where → ℕ
  | .head => post.length
  | .tail => pre.length

section

variable {dir : Where} {done rest : List Sds} {nodes pre post : List QuicklistNode}
  {n : QuicklistNode} {a b : Ziplist}

theorem Where.far_lt (dir : Where) (h : nodes = pre ++ n :: post) :
    dir.far pre post < nodes.length + 1 := by
  rw [h, length_append, length_cons]
  cases dir <;> rw [far] <;> omega

theorem Where.far_leave {pre' post' : List QuicklistNode} {n' : QuicklistNode}
    (h : pre ++ n :: post = pre' ++ n' :: post')
    (hcurrent : (dir.leave pre n post).current = some pre'.length) :
    dir.far pre' post' < dir.far pre post := by
  have hlen := congrArg length h
  simp only [length_append, length_cons] at hlen
  cases dir with
  | head =>
    cases post with
    | nil => cases hcurrent
    | cons m post =>
      have hpre : (pre ++ [n]).length = pre'.length := some.inj hcurrent
      rw [length_append, length_singleton] at hpre
      rw [far, far]
      omega
  | tail =>
    cases pre with
    | nil => cases hcurrent
    | cons m pre => exact (some.inj hcurrent).symm.trans_lt (Nat.lt_succ_self _)

theorem stands_enter (hbefore : dir.before done rest = nodeTexts pre)
    (hbehind : dir.behind done rest = nodeTexts post) :
    (dir.enter pre post).Stands dir (pre ++ post) done rest := by
  refine ⟨rfl, ?_⟩
  cases dir with
  | head =>
    cases post with
    | nil => exact .outside rfl hbehind
    | cons n post =>
      have hlook := ziplistIndex_offsetBetween .head [] n.zl
      exact .inside rfl rfl (nil_append _).symm (Prod.ext hlook rfl)
        (hbefore.trans (append_nil _).symm) hbehind
  | tail =>
    rcases eq_nil_or_concat' pre with rfl | ⟨pre, n, rfl⟩
    · exact .outside rfl (reverse_eq_nil_iff.mp hbefore)
    · have hlook := ziplistIndex_offsetBetween .tail n.zl []
      rw [append_nil] at hlook
      rw [nodeTexts_append, nodeTexts_singleton] at hbefore
      exact .inside (append_assoc ..) (between_concat pre n post) (append_nil _).symm
        (Prod.ext hlook rfl) hbefore hbehind

section

variable (hzl : n.zl = a ++ b) (hbefore : dir.before done rest = nodeTexts pre ++ a.map text)
  (hbehind : dir.behind done rest = b.map text ++ nodeTexts post)

include hzl hbefore hbehind

/-- From the end of a node an iterator goes on to the next one. -/
theorem stands_leave (hend : dir.between a b = none) :
    (dir.leave pre n post).Stands dir (pre ++ n :: post) done rest := by
  cases dir with
  | head =>
    cases b with
    | cons e b => cases hend
    | nil =>
      have hpre : done = nodeTexts (pre ++ [n]) := by
        rw [nodeTexts_append, nodeTexts_singleton, hzl, append_nil]
        exact hbefore
      rw [append_cons]
      exact stands_enter hpre hbehind
  | tail =>
    rcases eq_nil_or_concat' a with rfl | ⟨a, e, rfl⟩
    · exact stands_enter (hbefore.trans (append_nil _))
        (by rw [hbehind, nodeTexts_cons, hzl, nil_append])
    · rw [between_concat] at hend
      cases hend

/-- Otherwise the next element is in the node. -/
theorem exists_next (hmore : dir.between a b ≠ none) :
    ∃ (p : Quicklist.Place) (rest' : List Sds), p.pre = pre ∧ p.n = n ∧ p.post = post ∧
      (dir.between a b, dir.offsetBetween a b) = (some p.a.length, dir.offsetBetween p.a p.b) ∧
      rest = text p.e :: rest' ∧ p.left = dir.before done rest' ∧
        p.right = dir.behind done rest' := by
  cases dir with
  | head =>
    cases b with
    | nil => exact absurd rfl hmore
    | cons e b =>
      exact ⟨⟨pre, n, post, a, e, b, hzl⟩, _, rfl, rfl, rfl, rfl, hbehind, hbefore.symm, rfl⟩
  | tail =>
    rcases eq_nil_or_concat' a with rfl | ⟨a, e, rfl⟩
    · exact absurd rfl hmore
    · refine ⟨⟨pre, n, post, a, e, b, by rw [hzl, append_assoc]; rfl⟩,
        (nodeTexts pre ++ a.map text).reverse, rfl,
        rfl, rfl, by rw [between_concat]; rfl, ?_, (reverse_reverse _).symm, hbehind.symm⟩
      have hrest : rest.reverse = nodeTexts pre ++ (a ++ [e]).map text := hbefore
      rw [← reverse_reverse rest, hrest, map_append, ← append_assoc]
      exact reverse_concat ..

end

end

namespace Quicklist.Place

variable (p : Place)

def cursor (dir : Where) : QuicklistCursor :=
  ⟨some p.pre.length, some p.a.length, dir.offsetBetween p.a p.b, dir⟩

variable {p} {ql : Quicklist} {iter : QuicklistCursor} {fuel : ℕ}

theorem next (hql : ql.nodes = p.nodes) (hcurrent : iter.current = some p.pre.length)
    (hlook : iter.look p.n.zl = (some p.a.length, iter.direction.offsetBetween p.a p.b)) :
    quicklistCursorNext ql (fuel + 1) iter =
      some (p.entry iter.direction, p.cursor iter.direction) := by
  have hget : ziplistGet p.n.zl p.a.length = some p.e.content := by
    rw [ziplistGet, p.getElem?_zl]; rfl
  simp only [quicklistCursorNext, hcurrent, hql, p.getElem?_nodes, hlook, hget, bind_eq_bind,
    bind_some, getD_some, entry, cursor]
  rfl

end Quicklist.Place

section

variable {ql : Quicklist} {iter : QuicklistCursor} {dir : Where} {done rest : List Sds} {x v : Sds}

theorem quicklistCursorNext_leave {pre post : List QuicklistNode} {n : QuicklistNode}
    (hnodes : ql.nodes = pre ++ n :: post) (hcurrent : iter.current = some pre.length)
    (hlook : (iter.look n.zl).1 = none) (fuel : ℕ) :
    quicklistCursorNext ql (fuel + 1) iter =
      quicklistCursorNext ql fuel (iter.direction.leave pre n post) := by
  have hget : ql.nodes[pre.length]? = some n := by simp [hnodes]
  have hbehind : ql.nodeBehind pre.length iter.direction =
      (iter.direction.leave pre n post).current := by
    cases iter.direction with
    | head =>
      cases post <;> simp [Quicklist.nodeBehind, Where.leave, Where.enter, Where.between, hnodes]
    | tail => cases pre <;> simp [Quicklist.nodeBehind, Where.leave, Where.enter, Where.between]
  simp only [quicklistCursorNext, hcurrent, hget, hlook, hbehind, bind_eq_bind, bind_some]
  cases iter.direction <;> rfl

/-- Enough fuel for the nodes that are left: the next element is returned, if there is one. -/
theorem QuicklistCursor.Stands.next {fuel : ℕ} (h : iter.Stands dir ql.nodes done rest)
    (hfuel : ∀ {pre n post}, ql.nodes = pre ++ n :: post → iter.current = some pre.length →
      dir.far pre post < fuel) :
    rest = [] ∧ quicklistCursorNext ql fuel iter = none ∨
      ∃ (p : Quicklist.Place) (rest' : List Sds), ql.nodes = p.nodes ∧ rest = text p.e :: rest' ∧
        p.left = dir.before done rest' ∧ p.right = dir.behind done rest' ∧
        quicklistCursorNext ql fuel iter = some (p.entry dir, p.cursor dir) := by
  induction fuel generalizing iter with
  | zero =>
    cases h.between with
    | outside _ hrest => exact .inl ⟨hrest, rfl⟩
    | inside hnodes hcurrent => exact absurd (hfuel hnodes hcurrent) (Nat.not_lt_zero _)
  | succ fuel ih =>
    cases h.between with
    | outside hcurrent hrest => exact .inl ⟨hrest, by simp [quicklistCursorNext, hcurrent]⟩
    | @inside _ _ _ a b hnodes hcurrent hzl hlook hbefore hbehind =>
      by_cases hend : dir.between a b = none
      · rw [quicklistCursorNext_leave hnodes hcurrent (by rw [hlook]; exact hend), h.direction]
        refine ih (by rw [hnodes]; exact stands_leave hzl hbefore hbehind hend) fun hnodes'
          hcurrent' => ?_
        exact (Where.far_leave (hnodes.symm.trans hnodes') hcurrent').trans_le
          (Nat.lt_succ_iff.mp (hfuel hnodes hcurrent))
      · obtain ⟨p, rest', rfl, rfl, rfl, hat, hrest, hleft, hright⟩ :=
          exists_next hzl hbefore hbehind hend
        refine .inr ⟨p, rest', hnodes, hrest, hleft, hright, ?_⟩
        rw [p.next hnodes hcurrent (by rw [hlook, hat, h.direction]), h.direction]

theorem QuicklistCursor.Stands.stop (h : iter.Stands dir ql.nodes done []) :
    quicklistCursorNext ql (ql.nodes.length + 1) iter = none := by
  rcases h.next fun hnodes _ => dir.far_lt hnodes with hnone | ⟨p, rest', -, hrest, -⟩
  · exact hnone.2
  · cases hrest

end

namespace Quicklist.Place

variable {p : Place} {ql : Quicklist} {dir : Where} {done rest : List Sds}

theorem compare (hql : ql.nodes = p.nodes) (h : p.e.content.Fits) (dir : Where) (v : Sds) :
    quicklistCompare ql (p.entry dir) v = some (decide (text p.e = v)) := by
  simp only [quicklistCompare, entry, hql, p.getElem?_nodes, p.getElem?_zl, bind_eq_bind,
    bind_some, ziplistCompare_eq h]
  rfl

section

variable (hleft : p.left = dir.before done rest) (hright : p.right = dir.behind done rest)

include hleft hright

theorem stands_cursor : (p.cursor dir).Stands dir p.nodes (done ++ [text p.e]) rest := by
  refine ⟨rfl, ?_⟩
  cases dir with
  | head =>
    refine .inside rfl rfl p.zl_eq_concat (Prod.ext ?_ ?_) ?_ hright.symm
    · simp only [QuicklistCursor.look, cursor, ziplistNext, p.zl_eq_concat]
      cases p.b <;> simp [Where.between]
    · simp [QuicklistCursor.look, cursor, Where.offsetBetween]
    · rw [map_append, ← append_assoc]
      exact congrArg (· ++ [text p.e]) hleft.symm
  | tail =>
    refine .inside rfl rfl p.zl_eq (Prod.ext ?_ ?_) hleft.symm ?_
    · simp only [QuicklistCursor.look, cursor, ziplistPrev]
      cases p.a <;> simp [Where.between]
    · simp only [QuicklistCursor.look, cursor, Where.offsetBetween, length_cons]
      omega
    · rw [Where.behind, reverse_append]
      exact congrArg (text p.e :: ·) hright.symm

theorem delEntry (hql : ql.nodes = p.nodes) (h : ql.Lists l) :
    ∃ ql' iter, quicklistDelEntry ql (p.cursor dir) (p.entry dir) = some (ql', iter) ∧
      iter.Stands dir ql'.nodes done rest ∧ ql'.Lists (p.left ++ p.right) := by
  obtain ⟨-, hn, -⟩ := p.forall_nodes.mp (hql ▸ h.sound)
  have hone : p.n.count - 1 = 0 ↔ p.a = [] ∧ p.b.length < 1 := by
    rw [count_eq hn, ← length_eq_zero_iff]
    omega
  have hget : ql.nodes[p.pre.length]? = some p.n := by rw [hql, p.getElem?_nodes]
  have hlists := h.without hql
  simp only [quicklistDelEntry, entry, cursor, hget, p.delIndex hql hn, hone,
    bind_eq_bind, bind_some]
  split_ifs with hgone
  · refine ⟨_, dir.enter p.pre p.post,
      congrArg (fun c => some (_, (⟨c, _, _, _⟩ : QuicklistCursor))) ?_, ?_, hlists⟩
    · cases dir with
      | head =>
        cases hpost : p.post <;> simp [Quicklist.nodeBehind, Where.between, hql, nodes, hpost]
      | tail => cases hpre : p.pre <;> simp [Quicklist.nodeBehind, Where.between]
    · have hb : p.b = [] := length_eq_zero_iff.mp (Nat.lt_one_iff.mp hgone.2)
      have hcut : p.without = p.pre ++ p.post := by simp [without, cut, hgone.1, hb]
      rw [hcut]
      refine stands_enter (hleft.symm.trans ?_) (hright.symm.trans ?_)
      · rw [left, hgone.1, map_nil, append_nil]
      · rw [right, hb, map_nil, nil_append]
  · obtain ⟨b, hdel, hb⟩ : ∃ b, ziplistDeleteFrom p.n.zl p.a.length 1 = p.a ++ b ∧
        b.map Zlentry.content = p.b.map Zlentry.content := by
      refine ⟨ziplistSetPrevLen (ziplistPrevLen p.a) p.b, ?_, contents_setPrevLen ..⟩
      simp [ziplistDeleteFrom, p.zl_eq]
    have hoff : dir.offsetBetween p.a p.b = dir.offsetBetween p.a b := by
      have hblen : b.length = p.b.length := by simpa using congrArg length hb
      cases dir <;> simp [Where.offsetBetween, hblen]
    have hnodes :
        p.without = p.pre ++ ⟨p.a ++ b, ziplistBlobLen (p.a ++ b), p.n.count - 1⟩ :: p.post := by
      rw [without, cut, if_neg hgone, hdel]
    refine ⟨_, _, rfl,
      ⟨rfl, .inside hnodes rfl rfl (Prod.ext ?_ hoff) hleft.symm (hright.symm.trans ?_)⟩, hlists⟩
    · simp only [QuicklistCursor.look, hoff, ziplistIndex_offsetBetween]
    · rw [right, map_text_of_contents hb, ← map_text_of_contents rfl]

end

end Quicklist.Place

section

variable {ql : Quicklist} {iter : QuicklistCursor} {dir : Where} {done rest : List Sds} {x v : Sds}

theorem QuicklistCursor.Stands.step (h : iter.Stands dir ql.nodes done (x :: rest))
    (hql : ql.Lists (dir.list (done ++ x :: rest))) :
    ∃ entry iter', quicklistCursorNext ql (ql.nodes.length + 1) iter = some (entry, iter') ∧
      (∀ v, quicklistCompare ql entry v = some (decide (x = v))) ∧
      iter'.Stands dir ql.nodes (done ++ [x]) rest ∧
      ∃ ql' iter'', quicklistDelEntry ql iter' entry = some (ql', iter'') ∧
        iter''.Stands dir ql'.nodes done rest ∧ ql'.Lists (dir.list (done ++ rest)) := by
  obtain ⟨p, rest', hnodes, hrest, hleft, hright, hnext⟩ :=
    (h.next fun hnodes _ => dir.far_lt hnodes).resolve_left fun hnil => cons_ne_nil _ _ hnil.1
  obtain ⟨rfl, rfl⟩ := cons.inj hrest
  obtain ⟨-, hsound, -⟩ := p.forall_nodes.mp (hnodes ▸ hql.sound)
  have hfits : p.e.content.Fits := hsound.fits p.e (by simp [p.zl_eq])
  obtain ⟨ql', iter'', hdel, hstands, hlists⟩ := p.delEntry hleft hright hnodes hql
  refine ⟨_, _, hnext, p.compare hnodes hfits dir, ?_, ql', iter'', hdel, hstands, ?_⟩
  · rw [hnodes]
    exact p.stands_cursor hleft hright
  · rwa [dir.list_append, ← hleft, ← hright]

/-- The loop removes `n` more elements, if there are as many: either it stops then, or it never
does. -/
theorem lremLoop_eq {toremove : ℤ} {removed fuel : ℕ} (h : iter.Stands dir ql.nodes done rest)
    (hql : ql.Lists (dir.list (done ++ rest))) (hfuel : rest.length < fuel)
    (hn : 0 < n ∧ toremove = removed + n ∨ toremove ≤ 0 ∧ rest.length ≤ n) :
    ∃ ql', lremLoop v toremove fuel ql iter removed =
        some (removed + (rest.length - (withoutFirst v n rest).length), ql') ∧
      ql'.Lists (dir.list (done ++ withoutFirst v n rest)) := by
  -- an element is kept or deleted, and in both cases the iterator stands before the next one
  induction rest generalizing ql iter done removed n fuel with
  | nil =>
    obtain ⟨fuel, rfl⟩ := Nat.exists_eq_add_one_of_ne_zero (Nat.ne_zero_of_lt hfuel)
    have hnil : withoutFirst v n [] = [] := by cases n <;> rfl
    rw [lremLoop, h.stop, hnil]
    exact ⟨ql, rfl, hql⟩
  | cons x rest ih =>
    obtain ⟨fuel, rfl⟩ := Nat.exists_eq_add_one_of_ne_zero (Nat.ne_zero_of_lt hfuel)
    rw [length_cons] at hfuel hn
    obtain ⟨n, rfl⟩ := Nat.exists_eq_add_one_of_ne_zero (n := n) (by omega)
    obtain ⟨entry, iter', hnext, hcompare, hkept, ql', iter'', hdel, hdeleted, hql'⟩ := h.step hql
    have hle := length_withoutFirst_le v
    rw [lremLoop, hnext]
    simp only [hcompare, hdel, bind_eq_bind, bind_some, decide_eq_true_eq, withoutFirst]
    by_cases hx : x = v
    · split_ifs with hstop
      · obtain rfl : n = 0 := by omega
        rw [withoutFirst_zero, length_cons, Nat.add_sub_cancel_left]
        exact ⟨ql', rfl, hql'⟩
      · have hn' : 0 < n ∧ toremove = (removed + 1 : ℕ) + n ∨ toremove ≤ 0 ∧
            rest.length ≤ n := by omega
        obtain ⟨ql'', hloop, hlists⟩ := ih hdeleted hql' (Nat.succ_lt_succ_iff.mp hfuel) hn'
        have := hle n rest
        refine ⟨ql'', ?_, hlists⟩
        rw [hloop, length_cons]
        congr 2
        omega
    · rw [if_neg hx, if_neg hx]
      have hn' : 0 < n + 1 ∧ toremove = removed + (n + 1 : ℕ) ∨ toremove ≤ 0 ∧
          rest.length ≤ n + 1 := by omega
      obtain ⟨ql'', hloop, hlists⟩ := ih hkept (by rwa [append_assoc, singleton_append])
        (Nat.succ_lt_succ_iff.mp hfuel) hn'
      refine ⟨ql'', ?_, by rwa [append_assoc, singleton_append] at hlists⟩
      rw [hloop, length_cons, length_cons, Nat.add_sub_add_right]

variable (dir) in
theorem exists_cursor (hql : ql.Lists (dir.list l)) (hne : l ≠ []) :
    ∃ iter, quicklistGetCursorAtIdx ql dir dir.entryOffset = some iter ∧
      iter.Stands dir ql.nodes [] l := by
  obtain ⟨x, l, rfl⟩ := exists_cons_of_ne_nil hne
  have htexts : nodeTexts ql.nodes = dir.before [] l ++ x :: dir.behind [] l := by
    rw [hql.texts]
    cases dir with
    | head => rfl
    | tail => exact reverse_cons
  obtain ⟨p, hnodes, hleft, rfl, hright⟩ := exists_place htexts
  have hoffset : dir.entryOffset = dir.offsetBetween p.left p.right := by
    rw [hleft, hright]
    cases dir <;> rfl
  have hlook := p.ziplistIndex_offset dir
  refine ⟨⟨some p.pre.length, none, dir.offsetBetween p.a p.b, dir⟩, ?_, rfl, ?_⟩
  · rw [quicklistGetCursorAtIdx, hoffset, hql.index hnodes dir]
    rfl
  · cases dir with
    | head =>
      exact .inside hnodes rfl p.zl_eq (Prod.ext hlook rfl) hleft.symm
        (congrArg (text p.e :: ·) hright.symm)
    | tail =>
      refine .inside hnodes rfl p.zl_eq_concat
        (Prod.ext (hlook.trans (between_concat _ _ p.b).symm) rfl) ?_ hright.symm
      rw [map_append, ← append_assoc]
      exact reverse_cons.trans (congrArg (· ++ [text p.e]) hleft.symm)

variable (dir v) in
theorem lremLoop_cursor (hql : ql.Lists (dir.list l)) (hne : l ≠ [])
    {toremove : ℤ} (hn : 0 < n ∧ toremove = n ∨ toremove ≤ 0 ∧ l.length ≤ n) :
    ∃ ql', ((quicklistGetCursorAtIdx ql dir dir.entryOffset).bind fun li =>
        lremLoop v toremove (ql.count + 1) ql li 0) =
          some (l.length - (withoutFirst v n l).length, ql') ∧
      ql'.Lists (dir.list (withoutFirst v n l)) := by
  obtain ⟨iter, hiter, hstands⟩ := exists_cursor dir hql hne
  have hfuel : l.length < ql.count + 1 := by
    rw [hql.count, dir.length_list]
    exact Nat.lt_succ_self _
  have hn' : 0 < n ∧ toremove = (0 : ℕ) + n ∨ toremove ≤ 0 ∧ l.length ≤ n := by omega
  obtain ⟨ql', hloop, hlists⟩ := lremLoop_eq (v := v) hstands hql hfuel hn'
  refine ⟨ql', ?_, hlists⟩
  rw [hiter, bind_some, hloop, Nat.zero_add]

theorem listTypeRemove_eq {count : ℤ} (hql : ql.Lists l) (hne : l ≠ [])
    (hmany : l.length < 2 ^ 63) (hcount : llongMin ≤ count ∧ count ≤ llongMax) :
    ∃ ql', listTypeRemove ql count v = some (l.length - (lremLeft v count l).length, ql') ∧
      ql'.Lists (lremLeft v count l) := by
  rw [listTypeRemove, lremLeft]
  rcases lt_trichotomy count 0 with hneg | rfl | hpos
  · -- the negation of the least count is itself, and the loop does not stop then
    have hn : 0 < (-count).toNat ∧ (-count).bmod (2 ^ 64) = ((-count).toNat : ℤ) ∨
        (-count).bmod (2 ^ 64) ≤ 0 ∧ l.reverse.length ≤ (-count).toNat := by
      simp only [llongMin, llongMax] at hcount
      rw [length_reverse]
      rcases hcount.1.lt_or_eq with hgt | rfl
      · rw [Int.bmod_eq_of_le (by omega) (by omega)]
        omega
      · right
        exact ⟨by decide, by omega⟩
    have hlast := lremLoop_cursor .tail v (l := l.reverse) (by rwa [Where.list, reverse_reverse])
      (by simpa using hne) hn
    rw [if_pos hneg, if_neg (by omega), if_pos hneg, length_reverse]
    rwa [length_reverse] at hlast
  · have hall := lremLoop_cursor .head v hql hne (n := l.length) (.inr ⟨le_rfl, le_rfl⟩)
    rw [withoutFirst_of_length_le le_rfl] at hall
    exact hall
  · have hn : 0 < count.toNat ∧ count = (count.toNat : ℤ) ∨ count ≤ 0 ∧
        l.length ≤ count.toNat := by omega
    have hfirst := lremLoop_cursor .head v hql hne hn
    rwa [if_neg (by omega), if_pos hpos]

end

section

variable [Host]

/-- The key holds the list, in some layout; there is no key for the empty one. -/
def ListPut (dbs : ℕ → Db Value) (i : ℕ) (key : Sds) (t : Option ℤ) (l : List Sds)
    (dbs' : ℕ → Db Value) : Prop :=
  if l = [] then KeyPut dbs i key none none dbs'
  else ∃ ql, ql.Lists l ∧ KeyPut dbs i key (some (.list ql)) t dbs'

/-- What LREM does to a list: there is no key afterwards if the `unsigned int` length of the list is
0. -/
def LremDone (dbs : ℕ → Db Value) (i : ℕ) (key v : Sds) (count : ℤ) (l : List Sds) (t : Option ℤ)
    (out : List Reply) (dbs' : ℕ → Db Value) : Prop :=
  out = [.int (lremNumber v count l)] ∧ ∃ ql : Quicklist, ql.Lists (lremLeft v count l) ∧
    KeyPut dbs i key (if (lremLeft v count l).length % 2 ^ 32 = 0 then none else some (.list ql))
      (if (lremLeft v count l).length % 2 ^ 32 = 0 then none else t) dbs'

variable {key v a : Sds} {count : ℤ} {ql : Quicklist} {l : List Sds} {t : Option ℤ}

namespace Handler

variable {d : ℕ} {os : List Robj} {s : Server}

theorem lremCommand_wp (hargs : Args os [ascii "lrem".toList, key, a, v])
    (ha : getLongLong a = some count) (hok : (s.dbs (home d key)).Ok)
    (hfound : (s.dbs (home d key)).found key s.now = (some (.list ql), t)) (hql : ql.Lists l)
    (hne : l ≠ []) (hmany : l.length < 2 ^ 63) :
    lremCommand.Ends (.called d os) s (LremDone s.dbs (home d key) key v count l t) := by
  refine wp_withLong hargs rfl (fun hnone => ?_) fun i hi => ?_
  · rw [ha] at hnone
    cases hnone
  obtain rfl : count = i := by rwa [ha, some.injEq] at hi
  refine wp_writeKey_found hargs rfl hok hfound rfl fun s1 hput => ?_
  obtain ⟨ql', hremove, hql'⟩ := listTypeRemove_eq (v := v) hql hne hmany (getLongLong_mem ha)
  rw [← length_lremLeft v count l, Nat.add_sub_cancel_left] at hremove
  rw [wp_arg, (hargs.getD (j := 3) rfl _).text_eq, wp_bind]
  refine wp_update_put hput (by rw [hremove]; rfl) fun s2 hput2 => ?_
  rw [listTypeLength, quicklistCount, hql'.count]
  unfold LremDone
  split_ifs with hzero
  · rw [wp_bind]
    exact wp_dbDelete_put hput2 fun s3 hput3 => ⟨rfl, ql', hql', hput3⟩
  · exact ⟨rfl, ql', hql', hput2⟩

end Handler

variable (v) {s : Server} {now : ℕ}

theorem lrem_call (dictid : ℕ) (ha : getLongLong a = some count)
    (hok : (s.dbs (home dictid key)).Ok)
    (hfound : (s.dbs (home dictid key)).found key now = (some (.list ql), t)) (hql : ql.Lists l)
    (hne : l ≠ []) (hmany : l.length < 2 ^ 63) (world : ℕ → ℤ) :
    ∃ out s', call dictid Handler.lremCommand [ascii "lrem".toList, key, a, v] now world s =
      some (out, s') ∧ LremDone s.dbs (home dictid key) key v count l t out s'.dbs :=
  call_of_ends (fun hargs =>
    Handler.lremCommand_wp (s := .called _ now s) hargs ha hok hfound hql hne hmany) world

/-- LREM removes what it is to remove, and sends how much that was.  The key is there afterwards if
and only if an element is left, unless the number of elements is a positive multiple of `2 ^ 32`. -/
theorem lrem_exact_iff (dictid : ℕ) (ha : getLongLong a = some count)
    (hok : (s.dbs (home dictid key)).Ok)
    (hfound : (s.dbs (home dictid key)).found key now = (some (.list ql), t)) (hql : ql.Lists l)
    (hne : l ≠ []) (hmany : l.length < 2 ^ 63) (world : ℕ → ℤ) :
    ∃ out s', call dictid Handler.lremCommand [ascii "lrem".toList, key, a, v] now world s =
      some (out, s') ∧ out = [.int (lremNumber v count l)] ∧
      (ListPut s.dbs (home dictid key) key t (lremLeft v count l) s'.dbs ↔
        lremLeft v count l = [] ∨ ¬ 2 ^ 32 ∣ (lremLeft v count l).length) := by
  obtain ⟨out, s', hcall, hout, ql', hql', hput⟩ :=
    lrem_call v dictid ha hok hfound hql hne hmany world
  refine ⟨out, s', hcall, hout, ?_⟩
  rw [ListPut, Nat.dvd_iff_mod_eq_zero]
  by_cases hnil : lremLeft v count l = []
  · rw [if_pos (by rw [hnil]; rfl), if_pos (by rw [hnil]; rfl)] at hput
    rw [if_pos hnil]
    exact ⟨fun _ => .inl hnil, fun _ => hput⟩
  · rw [if_neg hnil]
    by_cases hzero : (lremLeft v count l).length % 2 ^ 32 = 0
    · rw [if_pos hzero, if_pos hzero] at hput
      constructor
      · rintro ⟨ql'', -, hput'⟩
        have := hput'.value
        rw [hput.value] at this
        cases this
      · rintro (hnil' | hnot)
        · exact absurd hnil' hnil
        · exact absurd hzero hnot
    · rw [if_neg hzero, if_neg hzero] at hput
      exact ⟨fun _ => .inr hzero, fun _ => ⟨ql', hql', hput⟩⟩

theorem lrem_replicate {ql : Quicklist} (hql : ql.Lists (replicate (n + 1) [97]))
    (hzero : n % 2 ^ 32 = 0) (hlt : n + 1 < 2 ^ 63) :
    ∃ out s', call 0 Handler.lremCommand [ascii "lrem".toList, [107], ascii "1".toList, [97]]
      0 (fun _ => 0)
        (Server.single 0 [107] (.list ql)) = some (out, s') ∧
      (s'.dbs (home 0 [107])).dict.get [107] = none := by
  have hkey := Server.single_keyIs 0 [107] (.list ql)
  have hone : getLongLong (ascii "1".toList) = some 1 := by decide
  obtain ⟨out, s', hcall, -, ql', -, hput⟩ :=
    lrem_call [97] 0 hone hkey.ok (hkey.found 0) hql (by simp)
    (by rwa [length_replicate]) fun _ => 0
  refine ⟨out, s', hcall, ?_⟩
  rw [lremLeft_replicate, length_replicate, if_pos hzero, if_pos hzero] at hput
  exact hput.value

end

theorem lrem_exact_one :
    let _ := Host.plain 1 1 Nat.one_pos
    ∃ out s', call 0 Handler.lremCommand [ascii "lrem".toList, [107], ascii "-1".toList, [97]]
      0 (fun _ => 0)
        (Server.single 0 [107] (.list (Quicklist.ofList [[97], [98], [97]]))) = some (out, s') ∧
      out = [.int (lremNumber [97] (-1) [[97], [98], [97]])] ∧
      (ListPut (Server.single 0 [107] (.list (Quicklist.ofList [[97], [98], [97]]))).dbs
        (home 0 [107]) [107] none
          (lremLeft [97] (-1) [[97], [98], [97]]) s'.dbs ↔
        lremLeft [97] (-1) [[97], [98], [97]] = [] ∨
          ¬ 2 ^ 32 ∣ (lremLeft [97] (-1) [[97], [98], [97]]).length) := by
  intro _
  exact lrem_exact_iff [97] 0 (by decide) (Server.single_keyIs 0 [107] _).ok
    ((Server.single_keyIs 0 [107] _).found 0) (Quicklist.lists_ofList _) (by simp) (by simp) _

example : lremLeft [97] (-1) [[97], [98], [97]] = [[97], [98]] := by decide

/-- One element alone and `n` nodes of `k` elements. -/
def Quicklist.filled (k n : ℕ) : Quicklist :=
  ⟨⟨[narrow [97]], 14, 1⟩ :: replicate n ⟨replicate k (narrow [97]), 3 * k + 11, k⟩,
    n * k + 1, -2⟩

theorem Quicklist.lists_filled {k : ℕ} (hk : 0 < k) (n : ℕ) :
    (Quicklist.filled k n).Lists (replicate (n * k + 1) [97]) where
  sound m hm := by
    rcases mem_cons.mp hm with rfl | hm
    · exact ⟨cons_ne_nil _ _, rfl, fun e he => mem_singleton.mp he ▸ fits_zipEntry [97]⟩
    · obtain rfl := eq_of_mem_replicate hm
      refine ⟨?_, length_replicate.symm, fun e he => eq_of_mem_replicate he ▸ fits_zipEntry [97]⟩
      exact ne_nil_of_length_pos (by rwa [length_replicate])
  texts := by
    have htexts : nodeTexts (replicate n ⟨replicate k (narrow [97]), 3 * k + 11, k⟩) =
        replicate (n * k) [97] := by
      rw [nodeTexts, flatMap_replicate, map_replicate, text_narrow, flatten_replicate_replicate]
    rw [filled, nodeTexts_cons, htexts]
    rfl
  count := by rw [length_replicate]; rfl

/-- Of a list in nodes of 2048 elements, `2 ^ 32` elements are left, and the key is deleted. -/
theorem lrem_deletes_elements :
    let _ := Host.plain 1 1 Nat.one_pos
    let ql := Quicklist.filled 2048 (2 ^ 21)
    ql.Lists (replicate (2 ^ 32 + 1) [97]) ∧
      lremLeft [97] 1 (replicate (2 ^ 32 + 1) [97]) = replicate (2 ^ 32) [97] ∧
      ∃ out s', call 0 Handler.lremCommand [ascii "lrem".toList, [107], ascii "1".toList, [97]]
        0 (fun _ => 0)
          (Server.single 0 [107] (.list ql)) = some (out, s') ∧
        (s'.dbs (home 0 [107])).dict.get [107] = none := by
  intro _ ql
  have hql : ql.Lists (replicate (2 ^ 32 + 1) [97]) :=
    Quicklist.lists_filled (k := 2048) (by decide) (2 ^ 21)
  exact ⟨hql, lremLeft_replicate [97] (2 ^ 32), lrem_replicate hql (by norm_num) (by norm_num)⟩

end Vire
