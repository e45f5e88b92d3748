import Vire.Keyspace.Handler.List
import Vire.Keyspace.Proofs.Handler
import Vire.Keyspace.Proofs.Quicklist

/-!
# List commands and finite sequences

The answers are those of a finite sequence of byte strings, however the elements are distributed
over the nodes.  Lists are below 4 GB.  Since LSET does not update the size that is noted in a node,
it is the largest size a list has had that has to leave room for the next element.
-/

namespace Vire

open List Option Logic Prog

inductive ListCmd
  | push (w : Where) (x : Sds) (xs : List Sds)
  | pop (w : Where)
  | llen
  | lindex (index : Sds)
  | lset (index x : Sds)
  | lrange (start stop : Sds)
  | ltrim (start stop : Sds)

def ListCmd.argv (key : Sds) : ListCmd → List Sds
  | push .head x xs => ascii "lpush".toList :: key :: x :: xs
  | push .tail x xs => ascii "rpush".toList :: key :: x :: xs
  | pop .head => [ascii "lpop".toList, key]
  | pop .tail => [ascii "rpop".toList, key]
  | llen => [ascii "llen".toList, key]
  | lindex index => [ascii "lindex".toList, key, index]
  | lset index x => [ascii "lset".toList, key, index, x]
  | lrange start stop => [ascii "lrange".toList, key, start, stop]
  | ltrim start stop => [ascii "ltrim".toList, key, start, stop]

def Where.putAll (w : Where) (xs l : List Sds) : List Sds :=
  match w with
  | .head => xs.reverse ++ l
  | .tail => l ++ xs

def evalRange (start stop : Sds) (l : List Sds) (k : ℤ → ℤ → List Reply × List Sds) :
    List Reply × List Sds :=
  match getLongLong start, getLongLong stop with
  | some start, some stop => k start stop
  | _, _ => ([Handler.notAnInteger], l)

def ListCmd.eval (l : List Sds) : ListCmd → List Reply × List Sds
  | push w x xs => ([.int (w.putAll (x :: xs) l).length], w.putAll (x :: xs) l)
  | pop .head => ([bulkOrNil l.head?], l.tail)
  | pop .tail => ([bulkOrNil l.getLast?], l.dropLast)
  | llen => ([.int l.length], l)
  | lindex index =>
    match getLongLong index with
    | none => ([Handler.notAnInteger], l)
    | some i => ([bulkOrNil ((listPos l i).bind (l[·]?))], l)
  | lset index x =>
    match getLongLong index with
    | none => ([Handler.notAnInteger], l)
    | some i =>
      if l = [] then ([Handler.nokeyerr], l)
      else
        match listPos l i with
        | none => ([Handler.outofrangeerr], l)
        | some p => ([Handler.ok], l.set p x)
  | lrange start stop => evalRange start stop l fun start stop =>
    (.multi (listSlice l start stop).length :: (listSlice l start stop).map .bulk, l)
  | ltrim start stop =>
    evalRange start stop l fun start stop => ([Handler.ok], listSlice l start stop)

/-- The bytes a command brings, with ten more for each element. -/
def ListCmd.bytes : ListCmd → ℕ
  | push _ x xs => zipBytes (x :: xs)
  | lset _ x => zipBytes [x]
  | _ => 0

/-- There is always room for what comes: `peak` bytes of elements at the most were in the list so
far. -/
def ListCmd.Fits : ℕ → List Sds → List ListCmd → Prop
  | _, _, [] => True
  | peak, l, cmd :: cmds =>
    peak + cmd.bytes + 11 < 2 ^ 32 ∧ Fits (max peak (listBytes (cmd.eval l).2)) (cmd.eval l).2 cmds

theorem sublist_putAll (w : Where) (xs l : List Sds) : l.Sublist (w.putAll xs l) := by
  cases w with
  | head => exact sublist_append_right ..
  | tail => exact sublist_append_left ..

theorem putAll_cons (w : Where) (x : Sds) (xs l : List Sds) :
    w.putAll (x :: xs) l = w.putAll xs (w.put x l) := by
  cases w with
  | head => rw [Where.putAll, Where.putAll, Where.put, reverse_cons, append_assoc]; rfl
  | tail => rw [Where.putAll, Where.putAll, Where.put, append_assoc]; rfl

theorem putAll_ne_nil (w : Where) (x : Sds) (xs l : List Sds) : w.putAll (x :: xs) l ≠ [] := by
  cases w <;> simp [Where.putAll]

theorem listBytes_putAll_le (w : Where) (xs l : List Sds) :
    listBytes (w.putAll xs l) ≤ listBytes l + zipBytes xs := by
  induction xs generalizing l with
  | nil =>
    have hnil : w.putAll [] l = l := by cases w <;> simp [Where.putAll]
    rw [hnil]
    exact Nat.le_add_right ..
  | cons x xs ih =>
    have := ih (w.put x l)
    have := listBytes_put_le w x l
    have hbytes : zipBytes (x :: xs) = x.length + 10 + zipBytes xs := rfl
    rw [putAll_cons]
    omega

theorem ListCmd.listBytes_eval_le (cmd : ListCmd) (l : List Sds) :
    listBytes (cmd.eval l).2 ≤ listBytes l + cmd.bytes := by
  cases cmd with
  | push w x xs => exact listBytes_putAll_le w (x :: xs) l
  | pop w =>
    cases w with
    | head => exact listBytes_mono (tail_sublist l)
    | tail => exact listBytes_mono (dropLast_sublist l)
  | llen => exact le_rfl
  | lindex index =>
    rw [eval]
    split <;> exact le_rfl
  | lset index x =>
    rw [eval]
    split
    · exact Nat.le_add_right ..
    · split_ifs
      · exact Nat.le_add_right ..
      · split
        · exact Nat.le_add_right ..
        · exact listBytes_set_le l _ x
  | lrange start stop =>
    rw [eval, evalRange]
    split <;> exact le_rfl
  | ltrim start stop =>
    rw [eval, evalRange]
    split
    · exact listBytes_mono ((drop_sublist ..).trans (take_sublist ..))
    · exact le_rfl

variable {l : List Sds} {peak : ℕ}

theorem ListCmd.fits_of_total (hl : listBytes l ≤ peak)
    (cmds : List ListCmd) (h : peak + (cmds.map bytes).sum + 11 < 2 ^ 32) : Fits peak l cmds := by
  induction cmds generalizing peak l with
  | nil => trivial
  | cons cmd cmds ih =>
    have hle := cmd.listBytes_eval_le l
    rw [map_cons, sum_cons] at h
    exact ⟨by omega, ih (le_max_right ..) (by omega)⟩

section

variable [Host]

def ListCmd.proc : ListCmd → Cmd Unit
  | push .head _ _ => Handler.lpushCommand
  | push .tail _ _ => Handler.rpushCommand
  | pop .head => Handler.lpopCommand
  | pop .tail => Handler.rpopCommand
  | llen => Handler.llenCommand
  | lindex _ => Handler.lindexCommand
  | lset _ _ => Handler.lsetCommand
  | lrange _ _ => Handler.lrangeCommand
  | ltrim _ _ => Handler.ltrimCommand

/-- The key holds the sequence; there is no key for the empty one. -/
inductive ListAt (peak : ℕ) (dbs : ℕ → Db Value) (i : ℕ) (key : Sds) (l : List Sds) : Prop
  | missing (hl : l = []) (h : KeyIs dbs i key none)
  | holds {ql : Quicklist} (hne : l ≠ []) (h : KeyIs dbs i key (some (.list ql)))
    (hql : ql.Is peak l)

def ListCmd.Done (dictid : ℕ) (key : Sds) (peak : ℕ) (l : List Sds) (cmd : ListCmd)
    (out : List Reply) (dbs : ℕ → Db Value) : Prop :=
  out = (cmd.eval l).1 ∧ ListAt (max peak (listBytes (cmd.eval l).2)) dbs (home dictid key) key
    (cmd.eval l).2

section

variable {dictid peak : ℕ} {key : Sds} {l l' : List Sds} {cmd : ListCmd} {out : List Reply}
  {dbs : ℕ → Db Value} (heval : cmd.eval l = (out, l'))

include heval

theorem ListCmd.Done.of_is {ql : Quicklist} (hne : l' ≠ [])
    (h : KeyIs dbs (home dictid key) key (some (.list ql))) (hql : ql.Is peak l') :
    cmd.Done dictid key peak l out dbs := by
  rw [ListCmd.Done, heval]
  exact ⟨rfl, .holds hne h (by rwa [max_eq_left hql.bytes])⟩

theorem ListCmd.Done.of_missing (hl' : l' = []) (h : KeyIs dbs (home dictid key) key none) :
    cmd.Done dictid key peak l out dbs := by
  rw [ListCmd.Done, heval]
  exact ⟨rfl, .missing hl' h⟩

end

namespace Handler

variable {c : Client} {s : Server} {key : Sds} {argv : List Sds} {peak : ℕ} {l : List Sds}
  {ql : Quicklist}

/-- The list `pushGenericCommand` has at hand, if there is one already. -/
inductive PushAt (peak : ℕ) (dbs : ℕ → Db Value) (i : ℕ) (key : Sds) :
    Option Quicklist → List Sds → Prop
  | none (h : KeyIs dbs i key none) : PushAt peak dbs i key none []
  | some {ql : Quicklist} {l : List Sds} (h : KeyIs dbs i key (some (.list ql)))
    (hql : ql.Is peak l) :
    PushAt peak dbs i key (some ql) l

theorem wp_listTypePush {value : Robj} {x : Sds} {Q : Post Quicklist}
    (h : KeyIs s.dbs c.db key (some (.list ql))) (hql : ql.Is peak l) (w : Where)
    (hx : value.Denotes x) (hfit : peak + (x.length + 10) + 11 < 2 ^ 32)
    (hQ : ∀ ql' s', KeyIs s'.dbs c.db key (some (.list ql')) →
      ql'.Is (max peak (listBytes (w.put x l))) (w.put x l) → Q ql' c s') :
    (update key fun h => (listTypePush ql value w h).map fun r => (r.1, .list r.1, r.2)).Wp
      c s Q := by
  obtain ⟨ql', hpush, hql'⟩ := hql.push w x hfit
  obtain ⟨heap', hlist⟩ : ∃ heap', listTypePush ql value w s.heap = some (ql', heap') := by
    rw [listTypePush, (hx.getDecodedObject s.heap).text_eq, hpush]
    exact ⟨_, rfl⟩
  exact wp_update h (by rw [hlist]; rfl) fun s' h' => hQ ql' s' h' hql'

theorem wp_createList {lobj : Option Quicklist} {Q : Post Quicklist}
    (h : PushAt peak s.dbs c.db key lobj l) (hpeak : peak + 11 < 2 ^ 32)
    (hQ : ∀ ql s', KeyIs s'.dbs c.db key (some (.list ql)) → ql.Is peak l → Q ql c s') :
    (createList key lobj).Wp c s Q := by
  cases h with
  | none h =>
    rw [createList, wp_bind]
    exact wp_dbAdd h fun s' h' => hQ _ s' h' (quicklistNew_is _ hpeak)
  | some h hql => exact hQ _ s h hql

theorem pushLoop_wp {js : List ℕ} {xs : List Sds} {lobj : Option Quicklist}
    {Q : Post (Option Quicklist)} (w : Where)
    (hjs : Forall₂ (fun j x => argv[j]? = some x) js xs) (hargs : Args c.argv argv)
    (h : PushAt peak s.dbs c.db key lobj l) (hfit : peak + zipBytes xs + 11 < 2 ^ 32)
    (hQ : ∀ os s' lobj',
      PushAt (max peak (listBytes (w.putAll xs l))) s'.dbs c.db key lobj' (w.putAll xs l) →
      Q lobj' { c with argv := os } s') :
    (pushLoop key w js lobj).Wp c s Q := by
  induction hjs generalizing c s lobj l peak with
  | nil =>
    have hnil : w.putAll [] l = l := by cases w <;> simp [Where.putAll]
    rw [hnil] at hQ
    refine hQ c.argv s lobj ?_
    cases h with
    | none h => exact .none h
    | some h hql => exact .some h (by rwa [max_eq_left hql.bytes])
  | @cons j x js xs hj _ ih =>
    have hbytes : zipBytes (x :: xs) = x.length + 10 + zipBytes xs := rfl
    rw [putAll_cons] at hQ
    rw [pushLoop, wp_bind]
    refine wp_encodeArg hargs hj fun os heap hargs1 => ?_
    rw [wp_bind]
    refine wp_createList h (by omega) fun ql s2 h2 hql => ?_
    have hput := listBytes_put_le w x l
    have hall := listBytes_mono (sublist_putAll w xs (w.put x l))
    have hle := hql.bytes
    rw [wp_arg, wp_bind]
    refine wp_listTypePush h2 hql w (hargs1.getD hj _) (by omega) fun ql' s3 h3 hql' => ?_
    refine ih hargs1 (.some h3 hql') (by omega) fun os' s' lobj' h' => ?_
    have hmax : max (max peak (listBytes (w.put x l))) (listBytes (w.putAll xs (w.put x l))) =
        max peak (listBytes (w.putAll xs (w.put x l))) := by omega
    rw [hmax] at h'
    exact hQ os' s' lobj' h'

section

variable {d : ℕ} {os : List Robj} {x index start stop : Sds} {xs : List Sds}
  (h : ListAt peak s.dbs (home d key) key l)

include h

theorem pushGenericCommand_wp (w : Where) (hargs : Args os argv) (hkey : argv[1]? = some key)
    (hdrop : argv.drop 2 = x :: xs) (hfit : peak + zipBytes (x :: xs) + 11 < 2 ^ 32) :
    (pushGenericCommand w).Ends (.called d os) s ((ListCmd.push w x xs).Done d key peak l) := by
  have hloop : ∀ {lobj : Option Quicklist}, PushAt peak s.dbs (home d key) key lobj l →
      (do
        let lobj ← pushLoop key w (range' 2 ((← argc) - 2)) lobj
        addReply (.int ((lobj.map listTypeLength).getD 0 : ℕ))
        unlockDb : Cmd Unit).Ends ((Client.called d os).on key) s
          ((ListCmd.push w x xs).Done d key peak l) := by
    intro lobj hat
    have hjs := forall₂_range' argv 2
    rw [hdrop, ← hargs.length_eq] at hjs
    rw [Cmd.Ends, wp_argc, wp_bind]
    refine pushLoop_wp w hjs hargs hat hfit fun os' s1 lobj' h1 => ?_
    rw [wp_replyUnlock]
    have hne := putAll_ne_nil w x xs l
    generalize hl' : w.putAll (x :: xs) l = l' at h1 hne
    cases h1 with
    | none => exact absurd rfl hne
    | some h1 hql =>
      rw [map_some, getD_some, hql.length_eq, ListCmd.Done, ListCmd.eval, hl']
      exact ⟨rfl, .holds hne h1 hql⟩
  refine wp_lockKey hargs hkey ?_
  rw [wp_bind]
  cases h with
  | missing hl h =>
    subst hl
    rw [wp_lookupKeyWrite (c := (Client.called d os).on key) h]
    exact hloop (.none h)
  | holds hne h hql =>
    rw [wp_lookupKeyWrite (c := (Client.called d os).on key) h]
    exact hloop (.some h hql)

omit [Host] h in
theorem listTypePop_some (hql : ql.Is peak l) (hne : l ≠ []) (w : Where) (heap : Heap) :
    ∃ o x ql' heap' l', listTypePop ql w heap = some (some o, ql', heap') ∧ text o = x ∧
      ql'.Is peak l' ∧ (ListCmd.pop w).eval l = ([.bulk x], l') := by
  obtain ⟨x, l', rfl, heval⟩ : ∃ x l', l = w.put x l' ∧ (ListCmd.pop w).eval l =
      ([.bulk x], l') := by
    cases w with
    | head =>
      obtain ⟨x, l', rfl⟩ := exists_cons_of_ne_nil hne
      exact ⟨x, l', rfl, rfl⟩
    | tail =>
      obtain ⟨l', x, rfl⟩ := (eq_nil_or_concat' l).resolve_left hne
      exact ⟨x, l', rfl, by rw [ListCmd.eval, getLast?_concat, dropLast_concat]; rfl⟩
  obtain ⟨ql', hpop, hql'⟩ := hql.pop
  refine ⟨((zipEntry x).object heap).1, x, ql', ((zipEntry x).object heap).2, l', ?_,
    (zipEntry_object_denotes x heap).text_eq, hql', heval⟩
  rw [listTypePop, hpop]
  rfl

theorem popGenericCommand_wp (w : Where) (hargs : Args os argv) (hkey : argv[1]? = some key) :
    (popGenericCommand w).Ends (.called d os) s ((ListCmd.pop w).Done d key peak l) := by
  cases h with
  | missing hl h =>
    refine wp_writeKey_none hargs hkey h (.of_missing ?_ rfl h)
    cases w <;> rw [hl] <;> rfl
  | holds hne h hql =>
    refine wp_writeKey_some hargs hkey h rfl ?_
    obtain ⟨o, x, ql', heap', l', hpop, hx, hql', heval⟩ := listTypePop_some hql hne w s.heap
    rw [wp_bind]
    refine wp_update h (by rw [hpop]; rfl) fun s1 h1 => ?_
    rw [wp_bind, wp_addReply, wp_bind, wp_inMemory, hx, hql'.length_eq]
    split_ifs with hempty
    · obtain rfl := eq_nil_of_length_eq_zero hempty
      rw [wp_bind]
      exact wp_dbDelete h1 fun s2 h2 => .of_missing heval rfl h2
    · exact .of_is heval (ne_nil_of_length_pos (by omega)) h1 hql'

theorem llenCommand_wp (hargs : Args os (ListCmd.llen.argv key)) :
    llenCommand.Ends (.called d os) s (ListCmd.llen.Done d key peak l) := by
  cases h with
  | missing hl h =>
    subst hl
    exact wp_readKey_none hargs rfl h (.of_missing rfl rfl h)
  | holds hne h hql =>
    refine wp_readKey_some hargs rfl h rfl ?_
    rw [hql.length_eq, wp_replyUnlock]
    exact .of_is rfl hne h hql

theorem ListCmd.Done.of_error {cmd : ListCmd} (heval : cmd.eval l = ([notAnInteger], l)) :
    cmd.Done d key peak l [notAnInteger] s.dbs := by
  cases h with
  | missing hl h => exact .of_missing heval hl h
  | holds hne h hql => exact .of_is heval hne h hql

theorem lindexCommand_wp (hargs : Args os ((ListCmd.lindex index).argv key)) :
    lindexCommand.Ends (.called d os) s ((ListCmd.lindex index).Done d key peak l) := by
  refine wp_withLong hargs rfl (fun hnone => ?_) fun i hi => ?_
  · exact ListCmd.Done.of_error h (by rw [ListCmd.eval, hnone])
  have heval : (ListCmd.lindex index).eval l = ([bulkOrNil ((listPos l i).bind (l[·]?))], l) := by
    rw [ListCmd.eval, hi]
  cases h with
  | missing hl h =>
    subst hl
    refine wp_readKey_none hargs rfl h (.of_missing (heval.trans ?_) rfl h)
    cases listPos [] i <;> rfl
  | holds hne h hql =>
    refine wp_readKey_some hargs rfl h rfl ?_
    cases hpos : listPos l i with
    | none =>
      rw [hql.lists.index_none (listPos_none hpos)]
      rw [hpos] at heval
      exact .of_is heval hne h hql
    | some p =>
      obtain ⟨hlt, hidx⟩ := listPos_some hpos
      have hget := getElem?_eq_getElem hlt
      obtain ⟨entry, hindex, hvalue⟩ := hql.index_some hget hidx
      rw [hindex]
      dsimp only
      rw [hvalue, wp_bind, wp_inMemory, wp_bind, wp_addReply, (zipEntry_object_denotes _ _).text_eq]
      rw [hpos, bind_some, hget] at heval
      exact .of_is heval hne h hql

theorem lsetCommand_wp (hargs : Args os ((ListCmd.lset index x).argv key))
    (hfit : peak + (x.length + 10) + 11 < 2 ^ 32) :
    lsetCommand.Ends (.called d os) s ((ListCmd.lset index x).Done d key peak l) := by
  refine wp_withLong hargs rfl (fun hnone => ?_) fun i hi => ?_
  · exact ListCmd.Done.of_error h (by rw [ListCmd.eval, hnone])
  cases h with
  | missing hl h =>
    have heval : (ListCmd.lset index x).eval l = ([nokeyerr], l) := by
      rw [ListCmd.eval, hi]
      exact if_pos hl
    exact wp_writeKey_none hargs rfl h (.of_missing heval hl h)
  | @holds ql hne h hql =>
    refine wp_writeKey_some hargs rfl h rfl ?_
    rw [wp_arg, (hargs.getD (j := 3) rfl _).text_eq, wp_bind]
    cases hpos : listPos l i with
    | none =>
      have hreplace : quicklistReplaceAtIndex ql i x = some (false, ql) := by
        rw [quicklistReplaceAtIndex, hql.lists.index_none (listPos_none hpos)]
      have heval : (ListCmd.lset index x).eval l = ([outofrangeerr], l) := by
        rw [ListCmd.eval, hi]
        simp only [if_neg hne, hpos]
      refine wp_update h (by rw [hreplace]; rfl) fun s1 h1 => ?_
      exact .of_is heval hne h1 hql
    | some p =>
      obtain ⟨hlt, hidx⟩ := listPos_some hpos
      obtain ⟨ql', hreplace, hql'⟩ := hql.replace hlt hidx x hfit
      refine wp_update h (by rw [hreplace]; rfl) fun s1 h1 => ?_
      have heval : (ListCmd.lset index x).eval l = ([ok], l.set p x) := by
        rw [ListCmd.eval, hi]
        simp only [if_neg hne, hpos]
      have hne' : l.set p x ≠ [] := by
        rw [← length_pos_iff, length_set]
        omega
      unfold ListCmd.Done
      rw [heval]
      exact ⟨rfl, .holds hne' h1 hql'⟩

theorem wp_withRange {cmd : ListCmd} {k : ℤ → ℤ → Cmd Unit} {f : ℤ → ℤ → List Reply × List Sds}
    (hargs : Args os (cmd.argv key)) (hstart : (cmd.argv key)[2]? = some start)
    (hstop : (cmd.argv key)[3]? = some stop) (heval : cmd.eval l = evalRange start stop l f)
    (hk : ∀ i j, cmd.eval l = f i j → (k i j).Ends (.called d os) s (cmd.Done d key peak l)) :
    (withRange k).Ends (.called d os) s (cmd.Done d key peak l) := by
  refine wp_withLong hargs hstart (fun hnone => ?_) fun i hi => ?_
  · exact ListCmd.Done.of_error h (by rw [heval, evalRange, hnone])
  refine wp_withLong hargs hstop (fun hnone => ?_) fun j hj => ?_
  · exact ListCmd.Done.of_error h (by rw [heval, evalRange, hi, hnone])
  exact hk i j (by rw [heval, evalRange, hi, hj])

theorem lrangeCommand_wp (hargs : Args os ((ListCmd.lrange start stop).argv key)) :
    lrangeCommand.Ends (.called d os) s ((ListCmd.lrange start stop).Done d key peak l) := by
  refine wp_withRange h hargs rfl rfl rfl fun i j heval => ?_
  cases h with
  | missing hl h =>
    subst hl
    rw [listSlice_nil] at heval
    exact wp_readKey_none hargs rfl h (.of_missing heval rfl h)
  | holds hne h hql =>
    refine wp_readKey_some hargs rfl h rfl ?_
    rw [hql.length_eq]
    dsimp only
    split_ifs with hempty
    · rw [listSlice_empty hempty] at heval
      exact .of_is heval hne h hql
    · obtain ⟨p, k, hp, hstop, hpos, hle, hslice⟩ := listSlice_range hempty
      obtain ⟨iter, hiter, hat⟩ := hql.iteratorAt (i := p) (by omega)
      have hlen : clampStop (convertIndexes i j l.length).2 l.length - p + 1 = k := by omega
      have hk : k ≤ (l.drop p).length := by rw [length_drop]; omega
      rw [hp, hlen, hiter, Int.toNat_natCast, hat.range hk, wp_bind, wp_addReply, wp_bind,
        wp_addReplies, unlockDb, wp_unlockP]
      have htext : (fun e => Reply.bulk (text e)) ∘ zipEntry = Reply.bulk := by
        funext x
        exact congrArg Reply.bulk (text_zipEntry x)
      rw [hslice, length_take_of_le hk] at heval
      rw [List.map_map, htext]
      exact .of_is heval hne h hql

theorem ltrimCommand_wp (hargs : Args os ((ListCmd.ltrim start stop).argv key)) :
    ltrimCommand.Ends (.called d os) s ((ListCmd.ltrim start stop).Done d key peak l) := by
  refine wp_withRange h hargs rfl rfl rfl fun i j heval => ?_
  cases h with
  | missing hl h =>
    subst hl
    exact wp_writeKey_none hargs rfl h (.of_missing heval listSlice_nil h)
  | holds hne h hql =>
    refine wp_writeKey_some hargs rfl h rfl ?_
    obtain ⟨ql', htrim, hql'⟩ := hql.trim i j
    rw [wp_bind]
    refine wp_update h (by rw [htrim]; rfl) fun s1 h1 => ?_
    rw [hql'.length_eq]
    split_ifs with hempty
    · rw [wp_bind]
      exact wp_dbDelete h1 fun s2 h2 => .of_missing heval (eq_nil_of_length_eq_zero hempty) h2
    · exact .of_is heval (ne_nil_of_length_pos (by omega)) h1 hql'

end

end Handler

theorem ListCmd.proc_wp (cmd : ListCmd) {d : ℕ} {os : List Robj} {s : Server} {key : Sds}
    (hargs : Args os (cmd.argv key)) (h : ListAt peak s.dbs (home d key) key l)
    (hfit : peak + cmd.bytes + 11 < 2 ^ 32) :
    cmd.proc.Ends (.called d os) s (cmd.Done d key peak l) := by
  cases cmd with
  | push w x xs =>
    cases w with
    | head => exact Handler.pushGenericCommand_wp h .head hargs rfl rfl hfit
    | tail => exact Handler.pushGenericCommand_wp h .tail hargs rfl rfl hfit
  | pop w =>
    cases w with
    | head => exact Handler.popGenericCommand_wp h .head hargs rfl
    | tail => exact Handler.popGenericCommand_wp h .tail hargs rfl
  | llen => exact Handler.llenCommand_wp h hargs
  | lindex index => exact Handler.lindexCommand_wp h hargs
  | lset index x => exact Handler.lsetCommand_wp h hargs hfit
  | lrange start stop => exact Handler.lrangeCommand_wp h hargs
  | ltrim start stop => exact Handler.ltrimCommand_wp h hargs

/-- For every sequence of requests on a key that is missing or holds a list, however its elements
are distributed over nodes, and for every limit on the nodes: all answers are those of a finite
sequence of byte strings, and the key holds that sequence in the end. -/
theorem lists_refine (dictid : ℕ) (key : Sds) {s : Server}
    (h : ListAt peak s.dbs (home dictid key) key l) (requests : List (Request ListCmd))
    (hfits : ListCmd.Fits peak l (requests.map Request.cmd)) :
    ∃ outs s' l', serveAll (serve dictid ListCmd.proc (ListCmd.argv key)) requests s =
      some (outs, s') ∧ Answers (fun l r out l' => r.cmd.eval l = (out, l')) l requests outs l' ∧
      ∃ peak', ListAt peak' s'.dbs (home dictid key) key l' := by
  obtain ⟨outs, s', l', hserve, hanswers, peak', h', -⟩ := serveAll_answers
    (fun l cmd out l' => ListCmd.eval l cmd = (out, l'))
    (fun d cmds dbs l => ∃ peak, ListAt peak dbs (home d key) key l ∧ ListCmd.Fits peak l cmds)
    (fun cmd cmds _ _ _ l hargs ⟨peak, h, hfit, hfits⟩ => by
      refine (cmd.proc_wp hargs h hfit).mono ?_
      rintro _ c' s' ⟨hsent, h'⟩
      exact ⟨(cmd.eval l).2, by rw [hsent], _, h', hfits⟩) requests ⟨peak, h, hfits⟩
  exact ⟨outs, s', l', hserve, hanswers, peak', h'⟩

end

theorem lists_refine_init :
    let _ := Host.plain 1 1 Nat.one_pos
    let requests : List (Request ListCmd) :=
      [⟨.push .tail [97] [[98]], 1, fun _ => 0⟩, ⟨.lset [45, 49] [99, 100], 2, fun _ => 0⟩,
        ⟨.lrange [48] [45, 49], 3, fun _ => 0⟩]
    ∃ outs s' l', serveAll (serve 0 ListCmd.proc (ListCmd.argv [107])) requests (Server.init 0) =
        some (outs, s') ∧
      Answers (fun l r out l' => r.cmd.eval l = (out, l')) [] requests outs l' ∧
      ∃ peak', ListAt peak' s'.dbs (home 0 [107]) [107] l' := by
  intro _ requests
  have h : ListAt 0 (Server.init 0).dbs (home 0 [107]) [107] [] :=
    .missing rfl (Server.init_keyIs 0 _ _)
  have hfits : ListCmd.Fits 0 [] (requests.map Request.cmd) :=
    ListCmd.fits_of_total (Nat.le_refl 0) _ (by decide)
  exact lists_refine 0 [107] h requests hfits

end Vire
