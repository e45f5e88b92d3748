import Vire.Client.Reply

/-!
# The reply stream

What is in the buffer and the list is a sequence of bytes and of places where a header is reserved.
Adding a reply appends to it, setting a header puts bytes in its place, and writing to the socket
takes bytes from its front.  So what was written and what is held is always the replies in the order
of the calls.
-/

namespace Vire.Reply

open List Option

/-- A byte, or the place of a header. -/
abbrev Tok := UInt8 ⊕ ℕ

def bytes (s : Sds) : List Tok := s.map .inl

theorem length_bytes (s : Sds) : (bytes s).length = s.length := length_map _

/-- The replies in the order of the calls, after `k` headers were reserved. -/
def layout : ℕ → List Call → List Tok
  | _, [] => []
  | k, .addReply o :: l => bytes (text o) ++ layout k l
  | k, .addReplySds s :: l => bytes s ++ layout k l
  | k, .addReplyString s :: l => bytes s ++ layout k l
  | k, .addDeferredMultiBulkLength :: l => .inr k :: layout (k + 1) l
  | k, .setDeferredMultiBulkLength _ _ :: l => layout k l
  | k, .writeToClient _ :: l => layout k l

/-- The length that the header `k` is set to. -/
def lengthOf (k : ℕ) : List Call → Option ℤ
  | [] => none
  | .setDeferredMultiBulkLength j n :: l => if j = k then some n else lengthOf k l
  | _ :: l => lengthOf k l

def replies (calls : List Call) : Sds :=
  (layout 0 calls).flatMap fun t =>
    match t with
    | .inl b => [b]
    | .inr k => ((lengthOf k calls).map multiBulkHeader).getD []

/-- After `k` headers were reserved and with those in `unset` not yet set: only such headers are
set, and the socket is written to when all of them are. -/
def Ordered : ℕ → List ℕ → List Call → Prop
  | _, _, [] => True
  | k, unset, .addDeferredMultiBulkLength :: l => Ordered (k + 1) (unset ++ [k]) l
  | k, unset, .setDeferredMultiBulkLength j _ :: l => j ∈ unset ∧ Ordered k (unset.erase j) l
  | k, unset, .writeToClient _ :: l => unset = [] ∧ Ordered k unset l
  | k, unset, .addReply _ :: l => Ordered k unset l
  | k, unset, .addReplySds _ :: l => Ordered k unset l
  | k, unset, .addReplyString _ :: l => Ordered k unset l

def Node.toks (n : Node) : List Tok :=
  match n.ptr with
  | some e => bytes e.text
  | none => [.inr (n.header.getD 0)]

def nodeToks (l : List Node) : List Tok := l.flatMap Node.toks

def toks (c : Client) : List Tok := bytes c.buf ++ nodeToks c.reply

def places (l : List Tok) : List ℕ := l.filterMap Sum.getRight?

/-- The headers that `f` has are put in their places. -/
def fill (f : ℕ → Option Sds) (l : List Tok) : List Tok :=
  l.flatMap fun t =>
    match t with
    | .inl b => [.inl b]
    | .inr k => (f k).elim [.inr k] bytes

def only (k : ℕ) (s : Sds) : ℕ → Option Sds := fun j => if j = k then some s else none

@[simp]
theorem places_bytes (s : Sds) : places (bytes s) = [] := by
  induction s with
  | nil => rfl
  | cons b s ih => simp [places, bytes]

@[simp]
theorem places_append (l l' : List Tok) : places (l ++ l') = places l ++ places l' :=
  filterMap_append ..

variable {k : ℕ} {f g : ℕ → Option Sds}

@[simp]
theorem fill_append (f : ℕ → Option Sds) (l l' : List Tok) :
    fill f (l ++ l') = fill f l ++ fill f l' :=
  flatMap_append ..

theorem fill_congr {l : List Tok} (h : ∀ k ∈ places l, f k = g k) : fill f l = fill g l := by
  induction l with
  | nil => rfl
  | cons t l ih =>
    rw [← singleton_append, fill_append, fill_append]
    rw [← singleton_append, places_append] at h
    rw [ih fun k hk => h k (mem_append_right _ hk)]
    rcases t with b | k
    · rfl
    · simp [fill, h k (by simp [places])]

theorem fill_none (l : List Tok) : fill (fun _ => none) l = l := by
  induction l with
  | nil => rfl
  | cons t l ih => rcases t with b | k <;> simpa [fill] using ih

@[simp]
theorem fill_bytes (f : ℕ → Option Sds) (s : Sds) : fill f (bytes s) = bytes s := by
  rw [fill_congr (g := fun _ => none) (by simp), fill_none]

theorem fill_fill (l : List Tok) : fill f (fill g l) = fill (fun k => (g k).or (f k)) l := by
  induction l with
  | nil => rfl
  | cons t l ih =>
    rw [← singleton_append, fill_append, fill_append, fill_append, ih]
    rcases t with b | k
    · rfl
    · rcases hg : g k with _ | s
      · simp [fill, hg]
      · simp only [fill, flatMap_singleton, hg, elim_some, some_or]
        exact congrArg (· ++ _) (fill_bytes f s)

theorem fill_of_notMem {l : List Tok} (s : Sds) (h : k ∉ places l) : fill (only k s) l = l := by
  rw [fill_congr (g := fun _ => none), fill_none]
  exact fun j hj => if_neg fun heq : j = k => h (heq ▸ hj)

theorem places_fill (k : ℕ) (s : Sds) (l : List Tok) :
    places (fill (only k s) l) = (places l).filter (· != k) := by
  induction l with
  | nil => rfl
  | cons t l ih =>
    rw [← singleton_append, fill_append, places_append, places_append, ih, filter_append]
    rcases t with b | j
    · rfl
    · by_cases hj : j = k
      · simp [fill, only, hj, places_bytes]
        simp [places]
      · simp [fill, only, hj, places]

@[simp]
theorem nodeToks_cons (n : Node) (l : List Node) : nodeToks (n :: l) = n.toks ++ nodeToks l := rfl

@[simp]
theorem bytes_append (s t : Sds) : bytes (s ++ t) = bytes s ++ bytes t := map_append

/-- The headers of the nodes are different and were reserved, and a node without a string has
one. -/
structure Nodes (l : List Node) (headers : ℕ) : Prop where
  nodup : (l.filterMap Node.header).Nodup
  lt : ∀ k ∈ l.filterMap Node.header, k < headers
  null : ∀ n ∈ l, n.ptr = none → n.header.isSome = true

def Offset (c : Client) : Prop := c.sentlen = 0 ∨ c.sentlen < (front c).length

/-- What was written to the socket and what the client holds is `T`. -/
structure Holds (c : Conn) (T : List Tok) : Prop where
  writable : prepareClientToWrite c.client = true
  stays : c.client.flags.closeAfterReply = false
  nodes : Nodes c.client.reply c.client.headers
  offset : Offset c.client
  stream : bytes c.sent ++ (toks c.client).drop c.client.sentlen = T

theorem toks_front (c : Client) : ∃ rest, toks c = bytes (front c) ++ rest := by
  unfold toks front
  split_ifs with hb
  · exact ⟨_, rfl⟩
  · rw [not_not.mp hb]
    rcases c.reply with _ | ⟨⟨h, b, _ | e⟩, l⟩
    · exact ⟨_, rfl⟩
    · exact ⟨_, rfl⟩
    · exact ⟨nodeToks l, rfl⟩

variable {s : Sds} {c c' : Client}

theorem Offset.mono (h : Offset c) (hs : c'.sentlen = c.sentlen)
    (hf : front c ≠ [] → front c' = front c ++ s) : Offset c' := by
  rcases h with h | h
  · exact .inl (hs.trans h)
  · refine .inr ?_
    rw [hf (ne_nil_of_length_pos (by omega)), hs, length_append]
    omega

theorem Offset.le (h : Offset c) : c.sentlen ≤ (front c).length := by
  unfold Offset at h
  omega

theorem Offset.toks_drop (h : Offset c) : c.sentlen ≤ (toks c).length ∧
    ∃ rest, toks c = bytes (front c) ++ rest ∧
      (toks c).drop c.sentlen = bytes ((front c).drop c.sentlen) ++ rest := by
  obtain ⟨rest, hrest⟩ := toks_front c
  have hle : c.sentlen ≤ (bytes (front c)).length := (length_bytes _).symm ▸ h.le
  refine ⟨by rw [hrest, length_append]; omega, rest, hrest, ?_⟩
  rw [hrest, drop_append_of_le_length hle, bytes, ← map_drop, ← bytes]

structure Added (c : Client) (s : Sds) (c' : Client) : Prop where
  flags : c'.flags = c.flags
  headers : c'.headers = c.headers
  sentlen : c'.sentlen = c.sentlen
  nodes : Nodes c.reply c.headers → Nodes c'.reply c'.headers
  offset : Offset c → Offset c'
  toks : toks c' = toks c ++ bytes s

variable {T : List Tok} {c' : Client}

theorem Holds.add {c : Conn} (h : Holds c T)
    (ha : Added c.client s c') : Holds { c with client := c' } (T ++ bytes s) := by
  refine ⟨?_, ?_, ha.nodes h.nodes, ha.offset h.offset, ?_⟩
  · simpa only [prepareClientToWrite, ha.flags] using h.writable
  · simpa only [ha.flags] using h.stays
  · rw [ha.toks, ha.sentlen, drop_append_of_le_length h.offset.toks_drop.1,
      ← append_assoc, h.stream]

theorem addReplyToBuffer_added (hc : c.flags.closeAfterReply = false)
    (h : addReplyToBuffer c s = some c') : Added c s c' := by
  simp only [addReplyToBuffer, hc, Bool.false_eq_true, if_false] at h
  split_ifs at h with hcond
  cases h
  simp only [not_or, not_not] at hcond
  refine ⟨rfl, rfl, rfl, id, fun ho => ho.mono rfl (s := s) fun hf => ?_,
    by simp [toks, hcond.1, nodeToks]⟩
  by_cases hb : c.buf = []
  · simp [front, hb, hcond.1] at hf
  · simp [front, hb]

theorem appendable_spec {len : ℕ} {tail : Node} {t : Sds} (h : appendable c len = some (tail, t)) :
    c.reply = c.reply.dropLast ++ [tail] ∧ tail.ptr = some (.raw t) := by
  unfold appendable at h
  split at h
  · cases h
  · rename_i n hn
    split at h
    · rename_i u hu
      split_ifs at h
      cases h
      exact ⟨(dropLast_append_getLast? _ hn).symm, hu⟩
    · cases h

variable {headers : ℕ} {n : Node}

theorem front_append (hf : front c ≠ []) :
    front { c with reply := c.reply ++ [n], headers := headers } = front c := by
  unfold front at hf ⊢
  split_ifs at hf ⊢ with hb
  · rfl
  · rcases hr : c.reply with _ | ⟨m, l⟩
    · simp [hr] at hf
    · rfl

theorem added_node (hh : n.header = none) {e : StrEnc}
    (hp : n.ptr = some e) (he : e.text = s) : Added c s { c with reply := c.reply ++ [n] } := by
  refine ⟨rfl, rfl, rfl, fun hn => ⟨?_, ?_, ?_⟩, fun ho => ?_, ?_⟩
  · simpa [hh] using hn.nodup
  · simpa [hh] using hn.lt
  · intro m hm hnull
    rcases mem_append.mp hm with hm | hm
    · exact hn.null m hm hnull
    · rw [mem_singleton.mp hm, hp] at hnull
      cases hnull
  · exact ho.mono rfl (s := []) fun hf => by rw [front_append hf, append_nil]
  · simp [toks, nodeToks, Node.toks, hp, he]

theorem added_tail {s t : Sds} {tail : Node}
    (hr : c.reply = c.reply.dropLast ++ [tail]) (hp : tail.ptr = some (.raw t)) :
    Added c s { c with
      reply :=
        c.reply.dropLast ++ [{ tail with constant := false, ptr := some (.raw (t ++ s)) }] } := by
  obtain ⟨l, hl⟩ : ∃ l, l = c.reply.dropLast := ⟨_, rfl⟩
  rw [← hl] at hr ⊢
  refine ⟨rfl, rfl, rfl, fun hn => ?_, fun ho => ?_, ?_⟩
  · rw [hr] at hn
    refine ⟨by simpa [filterMap_cons] using hn.nodup, by simpa using hn.lt,
      fun m hm hnull => ?_⟩
    rcases mem_append.mp hm with hm | hm
    · exact hn.null m (mem_append_left _ hm) hnull
    · rw [mem_singleton.mp hm] at hnull
      cases hnull
  · refine ho.mono rfl (s := if c.buf = [] ∧ l = [] then s else []) fun hf => ?_
    unfold front
    rw [hr]
    rcases l with _ | ⟨m, l⟩ <;> by_cases hb : c.buf = [] <;> simp [hb, Node.text, hp, StrEnc.text]
  · simp [toks, hr, Node.toks, hp, StrEnc.text, nodeToks]

theorem addReplyToList_added (hc : c.flags.closeAfterReply = false)
    (hh : n.header = none) {e : StrEnc} (hp : n.ptr = some e) (he : e.text = s) :
    Added c s (addReplyToList c s n) := by
  simp only [addReplyToList, hc, Bool.false_eq_true, if_false]
  split
  · rename_i tail t ht
    obtain ⟨hr, hptr⟩ := appendable_spec ht
    exact added_tail hr hptr
  · exact added_node hh hp he

section

variable {c : Client} (hw : prepareClientToWrite c = true) (hc : c.flags.closeAfterReply = false)

include hc in
theorem added_getD (h : Added c s c') :
    Added c s ((addReplyToBuffer c s).getD c') := by
  rcases hb : addReplyToBuffer c s with _ | c1
  · exact h
  · exact addReplyToBuffer_added hc hb

include hw hc

theorem addReplySds_added (s : Sds) : Added c s (addReplySds c s) := by
  simp only [addReplySds, hw, Bool.not_true, Bool.false_eq_true, if_false]
  exact added_getD hc (addReplyToList_added hc rfl rfl rfl)

theorem addReplyString_added (s : Sds) : Added c s (addReplyString c s) := by
  simp only [addReplyString, hw, Bool.not_true, Bool.false_eq_true, if_false]
  refine added_getD hc (addReplyToList_added hc rfl rfl ?_)
  change StrEnc.text (if s.length ≤ objEncodingEmbstrSizeLimit then .embstr s else .raw s) = s
  split_ifs <;> rfl

omit hw in
theorem addReplyInt_added {i : ℤ} (h : addReplyInt c i = some c') :
    Added c (ll2string i) c' := by
  unfold addReplyInt at h
  split_ifs at h
  exact addReplyToBuffer_added hc h

theorem addReply_added (o : Robj) : Added c (text o) (addReply c o) := by
  have hobj : ∀ o : Robj, Added c (text o)
      ((addReplyToBuffer c (text o)).getD (addReplyObjectToList c o)) :=
    fun o => added_getD hc (addReplyToList_added hc rfl rfl rfl)
  simp only [addReply, hw, Bool.not_true, Bool.false_eq_true, if_false]
  split
  · rename_i i hi
    have hdec : text (getDecodedObject o .init).1 = text o := by
      simp only [getDecodedObject, hi, text, createStringObject, Heap.alloc]
      split_ifs <;> rfl
    rcases hb : addReplyInt c i with _ | c'
    · have := hobj (getDecodedObject o .init).1
      rwa [hdec] at this ⊢
    · have := addReplyInt_added hc hb
      rwa [show ll2string i = text o by simp [text, hi, StrEnc.text]] at this
  · exact hobj o

end

theorem Holds.addDeferred {c : Conn} (h : Holds c T) :
    Holds { c with client := addDeferredMultiBulkLength c.client } (T ++ [.inr c.client.headers]) ∧
      (addDeferredMultiBulkLength c.client).headers = c.client.headers + 1 := by
  have hnew : c.client.headers ∉ c.client.reply.filterMap Node.header :=
    fun hk => absurd (h.nodes.lt _ hk) (Nat.lt_irrefl _)
  simp only [addDeferredMultiBulkLength, h.writable, Bool.not_true, Bool.false_eq_true, if_false]
  refine ⟨⟨h.writable, h.stays, ⟨?_, fun k hk => ?_, fun n hn hnull => ?_⟩, ?_, ?_⟩, trivial⟩
  · simpa [nodup_append] using ⟨h.nodes.nodup, fun k n hn hk => by
      rintro rfl
      exact hnew (mem_filterMap.mpr ⟨n, hn, hk⟩)⟩
  · simp only [filterMap_append, mem_append] at hk
    rcases hk with hk | hk
    · exact (h.nodes.lt k hk).trans (Nat.lt_succ_self _)
    · simp at hk
      dsimp only
      omega
  · rcases mem_append.mp hn with hn | hn
    · exact h.nodes.null n hn hnull
    · rw [mem_singleton.mp hn]
      rfl
  · exact h.offset.mono rfl (s := []) fun hf => by rw [front_append hf, append_nil]
  · have htoks :
        ∀ n,
          toks
            { c.client with reply := c.client.reply ++ [⟨some n, false, none⟩], headers := n + 1 } =
        toks c.client ++ [.inr n] := fun n => by simp [toks, nodeToks, Node.toks]
    rw [htoks, drop_append_of_le_length h.offset.toks_drop.1, ← append_assoc, h.stream]

theorem mem_places_node (h : k ∈ places n.toks)
    (hnull : n.ptr = none → n.header.isSome = true) : n.header = some k := by
  unfold Node.toks at h
  split at h
  · simp at h
  · rename_i hp
    obtain ⟨j, hj⟩ := isSome_iff_exists.mp (hnull hp)
    simp [places, hj] at h
    rw [hj, h]

theorem header_cons (n : Node) (l : List Node) :
    (n :: l).filterMap Node.header = n.header.toList ++ l.filterMap Node.header := by
  rcases h : n.header with _ | k <;> simp [h]

variable {l : List Node}

theorem places_sublist (hl : Nodes l headers) :
    (places (nodeToks l)).Sublist (l.filterMap Node.header) := by
  have hnull := hl.null
  clear hl
  induction l with
  | nil => exact Sublist.refl _
  | cons n l ih =>
    rw [nodeToks_cons, places_append, header_cons]
    refine Sublist.append ?_ (ih fun m hm => hnull m (mem_cons_of_mem _ hm))
    rcases hp : n.ptr with _ | e
    · obtain ⟨k, hk⟩ := isSome_iff_exists.mp (hnull n mem_cons_self hp)
      simp [Node.toks, hp, hk, places]
    · simp [Node.toks, hp]

theorem Nodes.sub {l l' : List Node} (h : Nodes l headers)
    (hs : (l'.filterMap Node.header).Sublist (l.filterMap Node.header))
    (hn : ∀ n ∈ l', n.ptr = none → n ∈ l) : Nodes l' headers :=
  ⟨h.nodup.sublist hs, fun k hk => h.lt k (hs.subset hk), fun n hmem hp =>
    h.null n (hn n hmem hp) hp⟩

theorem Nodes.tail (h : Nodes (n :: l) headers) :
    Nodes l headers :=
  h.sub ((sublist_cons_self n l).filterMap _) fun _ hm _ => mem_cons_of_mem _ hm

theorem setHeader_spec (n : Node) (s : Sds) (l : List Node) :
    nodeToks (setHeader n s l) = bytes s ++ nodeToks l ∧
      ((setHeader n s l).filterMap Node.header).Sublist ((n :: l).filterMap Node.header) ∧
      ∀ m ∈ setHeader n s l, m.ptr = none → m ∈ l := by
  rcases l with _ | ⟨next, rest⟩
  · exact ⟨rfl, Sublist.refl _, by simp [setHeader]⟩
  · rcases hnext : next.ptr with _ | e
    · simp only [setHeader, hnext]
      refine ⟨rfl, Sublist.refl _, fun m hm hp => ?_⟩
      rcases mem_cons.mp hm with rfl | hm
      · cases hp
      · exact hm
    · simp only [setHeader, hnext]
      refine ⟨by simp [Node.toks, hnext, StrEnc.text], ?_, fun m hm hp => ?_⟩
      · rw [header_cons, header_cons, header_cons]
        exact (Sublist.refl _).append (sublist_append_right _ _)
      · rcases mem_cons.mp hm with rfl | hm
        · cases hp
        · exact mem_cons_of_mem _ hm

theorem fillHeader_spec {k headers : ℕ} (s : Sds) (hl : Nodes l headers)
    (hk : k ∈ places (nodeToks l)) :
    ∃ l', fillHeader k s l = some l' ∧ nodeToks l' = fill (only k s) (nodeToks l) ∧
      (l'.filterMap Node.header).Sublist (l.filterMap Node.header) ∧
      (∀ m ∈ l', m.ptr = none → m ∈ l) ∧
      ∀ n l1, l = n :: l1 → n.ptr ≠ none → ∃ l1', l' = n :: l1' := by
  induction l with
  | nil => cases hk
  | cons n l ih =>
    rw [nodeToks_cons, places_append, mem_append] at hk
    by_cases hn : n.header = some k
    · have hl' : k ∉ places (nodeToks l) := fun hk => by
        have hnd := hl.nodup
        rw [filterMap_cons_some hn, nodup_cons] at hnd
        exact hnd.1 ((places_sublist hl.tail).subset hk)
      have hnull : n.ptr = none := by
        by_contra hp
        obtain ⟨e, he⟩ := ne_none_iff_exists'.mp hp
        simp [Node.toks, he, hl'] at hk
      obtain ⟨htoks, hsub, hmem⟩ := setHeader_spec n s l
      refine ⟨setHeader n s l, by simp [fillHeader, hn], ?_, hsub,
        fun m hm hp => mem_cons_of_mem _ (hmem m hm hp), fun m l1 heq hp => ?_⟩
      · rw [htoks, nodeToks_cons, fill_append, fill_of_notMem s hl']
        simp [Node.toks, hnull, hn, fill, only]
      · cases heq
        exact absurd hnull hp
    · have hkn : k ∉ places n.toks :=
        fun h => hn (mem_places_node h (hl.null n mem_cons_self))
      obtain ⟨l', hfill, htoks, hsub, hmem, -⟩ := ih hl.tail (hk.resolve_left hkn)
      refine ⟨n :: l', by simp [fillHeader, hn, hfill], ?_, ?_, fun m hm hp => ?_,
        fun m l1 heq _ => ⟨l', ?_⟩⟩
      · rw [nodeToks_cons, nodeToks_cons, fill_append, fill_of_notMem s hkn, htoks]
      · rw [header_cons, header_cons]
        exact (Sublist.refl _).append hsub
      · rcases mem_cons.mp hm with rfl | hm
        · exact mem_cons_self
        · exact mem_cons_of_mem _ (hmem m hm hp)
      · cases heq
        rfl

theorem Holds.places_eq {c : Conn} (h : Holds c T) :
    places T = places (nodeToks c.client.reply) := by
  obtain ⟨-, rest, hrest, hdrop⟩ := h.offset.toks_drop
  have hplaces := congrArg places hrest
  simp only [toks, places_append, places_bytes, nil_append] at hplaces
  rw [← h.stream, hdrop, hplaces]
  simp

theorem Holds.setDeferred {c : Conn} (h : Holds c T) (hk : k ∈ places T) (length : ℤ) :
    ∃ c', setDeferredMultiBulkLength c.client k length = some c' ∧
      c'.headers = c.client.headers ∧
      Holds { c with client := c' } (fill (only k (multiBulkHeader length)) T) := by
  obtain ⟨-, rest, hrest, hdrop⟩ := h.offset.toks_drop
  obtain ⟨l', hfill, htoks, hsub, hmem, hfirst⟩ :=
    fillHeader_spec (multiBulkHeader length) h.nodes (h.places_eq ▸ hk)
  refine ⟨{ c.client with reply := l' }, by simp [setDeferredMultiBulkLength, hfill], rfl,
    h.writable, h.stays, h.nodes.sub hsub hmem, ?_, ?_⟩
  · refine h.offset.mono rfl (s := []) fun hf => ?_
    rw [append_nil]
    unfold front at hf ⊢
    split_ifs at hf ⊢ with hb
    · rfl
    · rcases hr : c.client.reply with _ | ⟨n, l⟩
      · simp [hr] at hf
      · have hn : n.ptr ≠ none := by
          rintro hp
          simp [hr, Node.text, hp] at hf
        obtain ⟨l1, rfl⟩ := hfirst n l hr hn
        rfl
  · have hput : toks { c.client with reply := l' } =
        bytes (front c.client) ++ fill (only k (multiBulkHeader length)) rest := by
      have := congrArg (fill (only k (multiBulkHeader length))) hrest
      simpa [toks, htoks] using this
    have hle : c.client.sentlen ≤ (bytes (front c.client)).length :=
      (length_bytes _).symm ▸ h.offset.le
    rw [← h.stream, hdrop, fill_append, fill_append, fill_bytes, fill_bytes, hput,
      drop_append_of_le_length hle, bytes, bytes, bytes, ← map_drop]

def AllSet (c : Client) : Prop := ∀ n ∈ c.reply, n.ptr ≠ none

structure Wrote (c c' : Client) (out : Sds) : Prop where
  flags : c'.flags = c.flags
  headers : c'.headers = c.headers
  suffix : c'.reply <:+ c.reply
  offset : Offset c'
  held : out ++ held c' = held c

theorem Wrote.trans {c1 c2 : Client} {o1 o2 : Sds} (h : Wrote c c1 o1) (h' : Wrote c1 c2 o2) :
    Wrote c c2 (o1 ++ o2) :=
  ⟨h'.flags.trans h.flags, h'.headers.trans h.headers, h'.suffix.trans h.suffix, h'.offset,
    by rw [append_assoc, h'.held, h.held]⟩

theorem Wrote.refl (ho : Offset c) : Wrote c c [] :=
  ⟨rfl, rfl, suffix_rfl, ho, rfl⟩

theorem skipEmpty_spec (hs : ∀ n ∈ l, n.ptr ≠ none) :
    ∃ l', skipEmpty l = some l' ∧ l' <:+ l ∧ l'.flatMap Node.text = l.flatMap Node.text ∧
      (∀ n l1, l' = n :: l1 → n.text ≠ []) ∧ ∀ n l1, l = n :: l1 → n.text ≠ [] → l' = l := by
  induction l with
  | nil => exact ⟨[], rfl, suffix_rfl, rfl, by simp, by simp⟩
  | cons n l ih =>
    obtain ⟨e, he⟩ := ne_none_iff_exists'.mp (hs n mem_cons_self)
    have htext : n.text = e.text := by simp [Node.text, he]
    by_cases h0 : e.text = []
    · obtain ⟨l', hskip, hsuf, hflat, hne, -⟩ := ih fun m hm => hs m (mem_cons_of_mem _ hm)
      refine ⟨l', by simp [skipEmpty, he, h0, hskip], hsuf.trans (suffix_cons n l),
        by simp [hflat, htext, h0], hne, fun m l1 heq hm => ?_⟩
      cases heq
      exact absurd (htext.trans h0) hm
    · refine ⟨n :: l, by simp [skipEmpty, he, h0], suffix_rfl, rfl, fun m l1 heq => ?_,
        fun _ _ _ _ => rfl⟩
      cases heq
      rwa [htext]

theorem nextReply_spec (hs : AllSet c) (ho : Offset c) :
    ∃ l, nextReply c = some l ∧ Wrote c { c with reply := l } [] := by
  unfold nextReply
  by_cases hb : c.buf = []
  · obtain ⟨l', hskip, hsuf, hflat, -, hsame⟩ := skipEmpty_spec hs
    refine ⟨l', by simp [hb, hskip], ⟨rfl, rfl, hsuf, ?_, by simp [held, hflat]⟩⟩
    rcases ho with ho | ho
    · exact .inl ho
    · rcases hr : c.reply with _ | ⟨n, l⟩
      · simp [front, hb, hr] at ho
      · have hn : n.text ≠ [] := by
          rintro h0
          simp [front, hb, hr, h0] at ho
        rw [hsame n l hr hn]
        exact .inr ho
  · exact ⟨c.reply, by simp [hb], Wrote.refl ho⟩

theorem held_eq (h : c.sentlen ≤ (front c).length) :
    held c = (front c).drop c.sentlen ++
      (if c.buf ≠ [] then c.reply else c.reply.tail).flatMap Node.text := by
  rw [← drop_append_of_le_length h]
  unfold held front
  split_ifs with hb
  · rfl
  · rw [not_not.mp hb]
    rcases c.reply with _ | ⟨o, l⟩ <;> rfl

theorem advance_spec {n : ℕ} (hn : n ≤ (front c).length - c.sentlen) (hpos : 0 < n) :
    Wrote c (advance c n) (((front c).drop c.sentlen).take n) := by
  have hheld := held_eq (show c.sentlen ≤ (front c).length by omega)
  unfold advance
  split_ifs with hend hb
  · have hall : ((front c).drop c.sentlen).take n = (front c).drop c.sentlen :=
      take_of_length_le (by rw [length_drop]; omega)
    rw [if_pos hb] at hheld
    exact ⟨rfl, rfl, suffix_rfl, .inl rfl, by rw [hall, hheld]; rfl⟩
  · have hall : ((front c).drop c.sentlen).take n = (front c).drop c.sentlen :=
      take_of_length_le (by rw [length_drop]; omega)
    refine ⟨rfl, rfl, tail_suffix _, .inl rfl, ?_⟩
    rw [hall, hheld, held, not_not.mp hb]
    rfl
  · have hlt : c.sentlen + n < (front c).length := by omega
    refine ⟨rfl, rfl, suffix_rfl, .inr hlt, ?_⟩
    have hrest : held { c with sentlen := c.sentlen + n } = (held c).drop n := by
      simp only [held, drop_drop]
    rw [hrest, hheld, drop_append_of_le_length (by rw [length_drop]; omega),
      ← append_assoc, take_append_drop]

theorem AllSet.wrote {out : Sds} (hs : AllSet c) (h : Wrote c c' out) : AllSet c' :=
  fun n hn => hs n (h.suffix.subset hn)

theorem writeLoop_spec (socks : List Sock) : ∀ {c : Client} (tot : ℕ), AllSet c → Offset c →
    ∃ c' out, writeLoop socks tot c = some (c', out) ∧ Wrote c c' out := by
  induction socks with
  | nil =>
    intro c tot hs ho
    obtain ⟨l, hl, hw⟩ := nextReply_spec hs ho
    exact ⟨_, _, by simp [writeLoop, hl], hw⟩
  | cons a socks ih =>
    intro c tot hs ho
    obtain ⟨l, hl, hw⟩ := nextReply_spec hs ho
    simp only [writeLoop, hl]
    split_ifs with h0 hstop
    · exact ⟨_, _, rfl, hw⟩
    · exact ⟨_, _, rfl, hw.trans (advance_spec (Nat.min_le_right _ _) (Nat.pos_of_ne_zero h0))⟩
    · have hadv := hw.trans (advance_spec (Nat.min_le_right _ _) (Nat.pos_of_ne_zero h0))
      obtain ⟨c', out, hloop, hw'⟩ := ih _ (hs.wrote hadv) hadv.offset
      exact ⟨c', _, by rw [hloop]; rfl, hadv.trans hw'⟩

def letters (l : List Tok) : Sds := l.filterMap Sum.getLeft?

@[simp]
theorem letters_bytes (s : Sds) : letters (bytes s) = s := by
  induction s with
  | nil => rfl
  | cons b s ih => simpa [letters, bytes] using ih

@[simp]
theorem letters_append (l l' : List Tok) : letters (l ++ l') = letters l ++ letters l' :=
  filterMap_append ..

theorem letters_nodeToks (l : List Node) : letters (nodeToks l) = l.flatMap Node.text := by
  induction l with
  | nil => rfl
  | cons n l ih =>
    rw [nodeToks_cons, letters_append, ih, flatMap_cons]
    rcases hp : n.ptr with _ | e
    · simp [Node.toks, Node.text, hp, letters]
    · simp [Node.toks, Node.text, hp]

theorem bytes_letters {l : List Tok} (h : places l = []) : bytes (letters l) = l := by
  induction l with
  | nil => rfl
  | cons t l ih =>
    rcases t with b | k
    · simpa [bytes, letters] using ih h
    · simp [places] at h

theorem Holds.letters_eq {c : Conn} (h : Holds c T) :
    letters T = c.sent ++ held c.client := by
  obtain ⟨-, rest, hrest, hdrop⟩ := h.offset.toks_drop
  have hall := congrArg letters hrest
  simp only [toks, letters_append, letters_bytes, letters_nodeToks] at hall
  rw [← h.stream, hdrop, held, hall, drop_append_of_le_length h.offset.le]
  simp

theorem Holds.allSet {c : Conn} (h : Holds c T) (hT : places T = []) :
    AllSet c.client := by
  intro n hn hp
  have hmem : n.header.getD 0 ∈ places (nodeToks c.client.reply) :=
    mem_filterMap.mpr ⟨.inr (n.header.getD 0),
      mem_flatMap.mpr ⟨n, hn, by simp [Node.toks, hp]⟩, rfl⟩
  rw [← h.places_eq, hT] at hmem
  cases hmem

theorem AllSet.toks_drop (hs : AllSet c) :
    (toks c).drop c.sentlen = bytes (held c) := by
  have hnil : ∀ l : List Node, (∀ n ∈ l, n.ptr ≠ none) → places (nodeToks l) = [] := by
    intro l hl
    induction l with
    | nil => rfl
    | cons n l ih =>
      obtain ⟨e, he⟩ := ne_none_iff_exists'.mp (hl n mem_cons_self)
      simpa [Node.toks, he] using ih fun m hm => hl m (mem_cons_of_mem _ hm)
  have htoks : toks c = bytes (c.buf ++ c.reply.flatMap Node.text) := by
    rw [toks, bytes_append, ← letters_nodeToks, bytes_letters (hnil _ hs)]
  rw [htoks, bytes, ← map_drop, held, bytes]

theorem Offset.sentlen_eq (h : Offset c) (hp : clientHasPendingReplies c = false) :
    c.sentlen = 0 := by
  simp only [clientHasPendingReplies, ne_eq, decide_not, Bool.or_eq_false_iff,
    Bool.not_eq_eq_eq_not, Bool.not_false, decide_eq_true_eq] at hp
  rcases h with h | h
  · exact h
  · simp [front, hp.1, hp.2] at h

theorem Holds.write {c : Conn} (h : Holds c T) (hT : places T = [])
    (socks : List Sock) : ∃ c', (Call.writeToClient socks).run c = some c' ∧
      c'.client.headers = c.client.headers ∧ Holds c' T := by
  have hset := h.allSet hT
  obtain ⟨c', out, hloop, hw⟩ := writeLoop_spec socks 0 hset h.offset
  refine ⟨⟨c', c.sent ++ out⟩, ?_, hw.headers, ?_, ?_, ?_, hw.offset, ?_⟩
  · simp only [Call.run, Reply.writeToClient, hloop, map_some, bind_some, h.stays]
    rcases hp : clientHasPendingReplies c' with _ | _
    · have h0 : { c' with sentlen := 0 } = c' := by rw [← hw.offset.sentlen_eq hp]
      simp [h0]
    · simp
  · simpa only [prepareClientToWrite, hw.flags] using h.writable
  · simpa only [hw.flags] using h.stays
  · rw [hw.headers]
    exact h.nodes.sub (hw.suffix.sublist.filterMap _) fun n hn _ => hw.suffix.subset hn
  · rw [(hset.wrote hw).toks_drop, ← bytes_append, append_assoc, hw.held, ← h.letters_eq,
      bytes_letters hT]

variable {calls : List Call}

def header (calls : List Call) (k : ℕ) : Option Sds := (lengthOf k calls).map multiBulkHeader

theorem le_of_mem_layout :
    ∀ {k j : ℕ}, j ∈ places (layout k calls) → k ≤ j := by
  induction calls with
  | nil => exact fun h => by cases h
  | cons a calls ih =>
    intro k j h
    cases a with
    | addReply o => exact ih (by simpa [layout] using h)
    | addReplySds s => exact ih (by simpa [layout] using h)
    | addReplyString s => exact ih (by simpa [layout] using h)
    | addDeferredMultiBulkLength =>
      rcases mem_cons.mp (show j ∈ k :: places (layout (k + 1) calls) from h) with rfl | h
      · exact le_rfl
      · exact (Nat.le_succ k).trans (ih h)
    | setDeferredMultiBulkLength i n => exact ih h
    | writeToClient socks => exact ih h

theorem Holds.places_spec {c : Conn} (h : Holds c T) :
    (places T).Nodup ∧ ∀ k ∈ places T, k < c.client.headers := by
  have hsub := places_sublist h.nodes
  rw [h.places_eq]
  exact ⟨h.nodes.nodup.sublist hsub, fun k hk => h.nodes.lt k (hsub.subset hk)⟩

theorem Holds.run_add {a : Call} {c : Conn}
    (h : Holds c T) (ha : Added c.client s c') (hrun : a.run c = some { c with client := c' })
    (ih : ∀ {c : Conn} {T : List Tok}, Holds c T → Ordered c.client.headers (places T) calls →
      ∃ c', run calls c = some c' ∧
        Holds c' (fill (header calls) (T ++ layout c.client.headers calls)))
    (hord : Ordered c.client.headers (places T) calls) :
    ∃ c', run (a :: calls) c = some c' ∧ Holds c'
      (fill (header calls) (T ++ (bytes s ++ layout c.client.headers calls))) := by
  obtain ⟨c2, hrun2, h2⟩ := ih (h.add ha) (by simpa [ha.headers] using hord)
  refine ⟨c2, by simp [run, hrun] ; exact hrun2, ?_⟩
  rw [← append_assoc, ← ha.headers]
  exact h2

theorem Holds.run : ∀ {c : Conn} {T : List Tok}, Holds c T →
    Ordered c.client.headers (places T) calls →
    ∃ c', run calls c = some c' ∧
      Holds c' (fill (header calls) (T ++ layout c.client.headers calls)) := by
  induction calls with
  | nil =>
    intro c T h _
    exact ⟨c, rfl, by simpa [layout] using (fill_none T).symm ▸ h⟩
  | cons a calls ih =>
    intro c T h hord
    cases a with
    | addReply o => exact h.run_add (addReply_added h.writable h.stays o) rfl ih hord
    | addReplySds s => exact h.run_add (addReplySds_added h.writable h.stays s) rfl ih hord
    | addReplyString s => exact h.run_add (addReplyString_added h.writable h.stays s) rfl ih hord
    | addDeferredMultiBulkLength =>
      obtain ⟨h1, hheaders⟩ := h.addDeferred
      obtain ⟨c2, hrun, h2⟩ := ih h1 (by
        simp only [hheaders, places_append]
        exact hord)
      refine ⟨c2, hrun, ?_⟩
      rw [hheaders, append_assoc] at h2
      exact h2
    | setDeferredMultiBulkLength j n =>
      obtain ⟨hj, hord⟩ := hord
      obtain ⟨c1, hset, hheaders, h1⟩ := h.setDeferred hj n
      have hplaces : places (fill (only j (multiBulkHeader n)) T) = (places T).erase j := by
        rw [places_fill, h.places_spec.1.erase_eq_filter]
      obtain ⟨c2, hrun, h2⟩ := ih h1 (by rw [hplaces, hheaders]; exact hord)
      refine ⟨c2, ?_, ?_⟩
      · simp only [Reply.run, foldlM_cons, Call.run, hset, map_some, bind_eq_bind,
          bind_some]
        exact hrun
      · have hT : ∀ k ∈ places T, header (.setDeferredMultiBulkLength j n :: calls) k =
            (only j (multiBulkHeader n) k).or (header calls k) := by
          intro k _
          by_cases hk : k = j
          · simp [header, lengthOf, only, hk]
          · simp [header, lengthOf, only, hk, Ne.symm hk]
        have hrest : ∀ k ∈ places (layout c.client.headers calls),
            header (.setDeferredMultiBulkLength j n :: calls) k = header calls k := by
          intro k hk
          have hne : j ≠ k := by
            have := le_of_mem_layout hk
            have := h.places_spec.2 j hj
            omega
          simp [header, lengthOf, hne]
        rw [layout, fill_append, fill_congr hT, fill_congr hrest, ← fill_fill,
          ← fill_append, ← hheaders]
        exact h2
    | writeToClient socks =>
      obtain ⟨hT, hord⟩ := hord
      obtain ⟨c1, hw, hheaders, h1⟩ := h.write hT socks
      obtain ⟨c2, hrun, h2⟩ := ih h1 (by rw [hheaders]; exact hord)
      refine ⟨c2, ?_, ?_⟩
      · simp only [Reply.run, foldlM_cons, hw, bind_eq_bind, bind_some]
        exact hrun
      · rw [hheaders] at h2
        exact h2

/-- For every sequence of calls in which each reserved header is set once and the socket is written
to while none is open: nothing goes wrong, and the bytes that were written followed by those that
are still held are the replies in the order of the calls, whatever the socket took at each write. -/
theorem reply_stream (flags : Flags) (hw : prepareClientToWrite (createClient flags) = true)
    (hc : flags.closeAfterReply = false) (calls : List Call) (hcalls : Ordered 0 [] calls) :
    ∃ c, run calls ⟨createClient flags, []⟩ = some c ∧ c.sent ++ held c.client = replies calls := by
  have hinit : Holds ⟨createClient flags, []⟩ [] :=
    ⟨hw, hc, ⟨nodup_nil, by simp [createClient], by simp [createClient]⟩, .inl rfl, rfl⟩
  obtain ⟨c, hrun, h⟩ := hinit.run hcalls
  refine ⟨c, hrun, ?_⟩
  rw [← h.letters_eq, nil_append, replies]
  change letters (fill _ (layout 0 calls)) = _
  generalize layout 0 calls = l
  induction l with
  | nil => rfl
  | cons t l ih =>
    rw [← singleton_append, fill_append, letters_append, ih, flatMap_append]
    rcases t with b | k
    · rfl
    · rcases hk : lengthOf k calls with _ | n
      · simp [fill, header, hk, letters]
      · simp [fill, header, hk]

theorem reply_stream_header :
    let calls : List Call :=
      [.addReplyString [43, 79, 75, 13, 10], .addDeferredMultiBulkLength,
        .addReply (sharedInteger 7), .setDeferredMultiBulkLength 0 1, .writeToClient [⟨3, true⟩],
        .addReplySds [13, 10]]
    ∃ c, run calls ⟨createClient .none, []⟩ = some c ∧
      c.sent ++ held c.client = [43, 79, 75, 13, 10, 42, 49, 13, 10, 55, 13, 10] :=
  reply_stream .none rfl rfl _ (by simp [Ordered])

end Vire.Reply
