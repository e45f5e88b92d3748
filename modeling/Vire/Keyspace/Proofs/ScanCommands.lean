import Vire.Keyspace.Handler.Scan
import Vire.Keyspace.Proofs.Handler
import Vire.Keyspace.Proofs.Hash
import Vire.Keyspace.Proofs.Scan
import Vire.Keyspace.Proofs.Set

/-!
# Following the cursor of SSCAN and HSCAN

A page has the elements between the position the cursor stands at and the one it is moved to; an
intset or a ziplist has one page.  The filter takes elements away as a whole.
-/

namespace Vire

open List Option

variable {K V E : Type}

/-- The calls of `scan` go through the elements that satisfy `P`.  `Ahead v e`: a scan that stands
at the cursor `v` still has to pass on `e`. -/
structure Scans (P : E → Prop) (emit : E → List Sds) (Ahead : UInt64 → E → Prop) (left : UInt64 → ℕ)
    (bound : ℕ) (scan : ℤ → UInt64 → UInt64 × List Sds) : Prop where
  bound_le : bound ≤ 2 ^ 63
  bound_pos : 0 < bound
  start : ∀ e, P e → Ahead 0 e
  page : ∀ count v, v.toNat < bound → ∃ es : List E, (∀ e ∈ es, P e) ∧
    (scan count v).2 = es.flatMap emit ∧
    ((scan count v).1 ≠ 0 → (scan count v).1.toNat < bound ∧ left (scan count v).1 < left v) ∧
    ∀ e, P e → Ahead v e → e ∈ es ∨ (scan count v).1 ≠ 0 ∧ Ahead (scan count v).1 e

theorem scans_whole {P : E → Prop} {emit : E → List Sds} (all : List E) (hall : ∀ e, e ∈ all ↔ P e)
    {scan : ℤ → UInt64 → UInt64 × List Sds} (h : ∀ count v, scan count v = (0, all.flatMap emit)) :
    Scans P emit (fun _ _ => True) (fun _ => 0) 1 scan where
  bound_le := by norm_num
  bound_pos := one_pos
  start _ _ := trivial
  page count v _ := by
    rw [h]
    exact ⟨all, fun e => (hall e).mp, rfl, fun hne => absurd rfl hne,
      fun e he _ => .inl ((hall e).mpr he)⟩

section

variable [Text K] [HashFn] {d : Dict K V}

theorem scanLoop_page (hw : d.WF) (hs : d.Sized) (emit : K × V → List Sds) (count : ℤ) (n : ℕ) :
    ∀ (m : ℤ) (v : UInt64) (keys : List Sds), v.toNat < 2 ^ d.scanBits →
      ∃ es ⊆ d.entries, (scanLoop d emit count (n + 1) m v keys).keys = keys ++ es.flatMap emit ∧
        ∀ e ∈ d.entries, scanPos d.scanBits v ≤ d.scanPosOf e →
          ((scanLoop d emit count (n + 1) m v keys).cursor = 0 ∨
            d.scanPosOf e < scanPos d.scanBits (scanLoop d emit count (n + 1) m v keys).cursor) →
          e ∈ es := by
  have hone : ∀ v : UInt64, (dictScan d v).1 ⊆ d.entries := fun v e he => mem_of_dictScan hw he
  induction n with
  | zero =>
    intro m v keys hv
    rw [scanLoop_succ]
    refine ⟨(dictScan d v).1, hone v, ?_, ?_⟩
    · split_ifs <;> rfl
    · split_ifs <;> exact (dictScan_step hw hs hv).2
  | succ n ih =>
    intro m v keys hv
    obtain ⟨hnext, hpass⟩ := dictScan_step hw hs hv
    rw [scanLoop_succ]
    split_ifs with hgo
    · obtain ⟨hlt, hpos⟩ := hnext hgo.1
      obtain ⟨es, hes, hkeys, hfinds⟩ := ih (wrap (m - 1)) (dictScan d v).2
        (keys ++ (dictScan d v).1.flatMap emit) hlt
      refine ⟨(dictScan d v).1 ++ es, append_subset.mpr ⟨hone v, hes⟩, ?_, fun e he hle hend => ?_⟩
      · rw [flatMap_append, ← append_assoc]
        exact hkeys
      · by_cases hbefore : d.scanPosOf e < scanPos d.scanBits (dictScan d v).2
        · exact mem_append_left _ (hpass e he hle (.inr hbefore))
        · exact mem_append_right _ (hfinds e he (Nat.le_of_not_lt hbefore) hend)
    · exact ⟨(dictScan d v).1, hone v, rfl, hpass⟩

theorem scans_scanLoop (hw : d.WF) (hs : d.Sized) {P : E → Prop} {emit : E → List Sds}
    (elem : K × V → E)
    (hP : ∀ x, P x ↔ ∃ e ∈ d.entries, elem e = x) (limit rounds : ℤ → ℤ) (n : ℕ) :
    Scans P emit (fun v x => ∃ e ∈ d.entries, elem e = x ∧ scanPos d.scanBits v ≤ d.scanPosOf e)
      (fun v => 2 ^ d.scanBits - scanPos d.scanBits v) (2 ^ d.scanBits) fun count v =>
        ((scanLoop d (emit ∘ elem) (limit count) (n + 1) (rounds count) v []).cursor,
          (scanLoop d (emit ∘ elem) (limit count) (n + 1) (rounds count) v []).keys) where
  bound_le := Nat.pow_le_pow_right (by norm_num) hs.scanBits_le
  bound_pos := Nat.two_pow_pos _
  start x hx := by
    obtain ⟨e, he, rfl⟩ := (hP x).mp hx
    exact ⟨e, he, rfl, by rw [scanPos_zero]; exact Nat.zero_le _⟩
  page count v hv := by
    obtain ⟨es, hes, hkeys, hfinds⟩ :=
      scanLoop_page hw hs (emit ∘ elem) (limit count) n (rounds count) v [] hv
    have hspec : ScannedFrom d (emit ∘ elem) v [] _ _ :=
      scanLoop_spec hw hs (limit count) n (rounds count) v [] hv
    refine ⟨es.map elem, fun x hx => ?_, ?_, fun hne => ⟨hspec.lt, ?_⟩, ?_⟩
    · obtain ⟨e, he, rfl⟩ := List.mem_map.mp hx
      exact (hP _).mpr ⟨e, hes he, rfl⟩
    · rw [flatMap_map]
      exact hkeys
    · have hlt := scanPos_lt (hs.scanBits_le.trans (by norm_num)) v
      have hmoves := hspec.moves hne
      dsimp only
      omega
    · rintro x - ⟨e, he, rfl, hle⟩
      by_cases hend :
        (scanLoop d (emit ∘ elem) (limit count) (n + 1) (rounds count) v []).cursor = 0 ∨
          d.scanPosOf e < scanPos d.scanBits
            (scanLoop d (emit ∘ elem) (limit count) (n + 1) (rounds count) v []).cursor
      · exact .inl (List.mem_map.mpr ⟨e, hfinds e he hle hend, rfl⟩)
      · obtain ⟨hne, hahead⟩ := not_or.mp hend
        exact .inr ⟨hne, e, he, rfl, Nat.le_of_not_lt hahead⟩

end

def SetVal.Sized : SetVal → Prop
  | intset _ => True
  | ht d => d.Sized

def HashVal.Sized : HashVal → Prop
  | ziplist _ => True
  | ht d => d.Sized

section

variable [Host]

open Handler Logic.Prog

theorem SetVal.Is.scans {v : SetVal} {S : Finset Sds} (h : v.Is S) (hs : v.Sized) :
    ∃ Ahead left bound, Scans (· ∈ S) (fun x => [x]) Ahead left bound (scanSet v) := by
  cases v with
  | intset is =>
    refine ⟨_, _, _, scans_whole (SetVal.intset is).texts h.mem_iff fun count v => ?_⟩
    rw [SetVal.texts_intset, flatMap_singleton']
    rfl
  | ht d =>
    refine ⟨_, _, _, scans_scanLoop h.ok hs (fun e => text e.1) (fun x => ?_) id
      (fun count => wrap (count * 10)) (d.ht0.size + d.ht1.size)⟩
    rw [← h.mem_iff, SetVal.texts_ht, Vire.texts, List.mem_map]

theorem HashVal.Has.scans {v : HashVal} {m : Sds → Option Sds} (h : v.Has m) (hs : v.Sized) :
    ∃ Ahead left bound,
      Scans (fun q : Sds × Sds => m q.1 = some q.2) (fun q => [q.1, q.2]) Ahead left bound
        (scanHash v) := by
  cases h with
  | @ziplist zl ps _ hps hzl =>
    refine ⟨_, _, _, scans_whole ps (fun q => hps.mem_iff q.1 q.2) fun count v => ?_⟩
    exact congrArg (Prod.mk 0) hzl.map_text
  | @ht d _ hw hget =>
    refine ⟨_, _, _, scans_scanLoop hw hs (fun e => (text e.1, text e.2)) (fun q => ?_)
      (fun count => wrap (count * 2) % 2 ^ 64) (fun count => wrap (wrap (count * 2) * 10))
      (d.ht0.size + d.ht1.size)⟩
    rw [← hget, ← hw.enumerates.mem_iff, dictPairs, List.mem_map]

/-- The pattern of a request: that of its last MATCH, or `*`. -/
def matchPattern : List Sds → Sds → Sds
  | name :: value :: argv, p =>
    matchPattern argv (if strcaseEq name ['m', 'a', 't', 'c', 'h'] then value else p)
  | _, p => p

omit [Host] in
theorem strcaseEq_count_match {s : Sds} (h : strcaseEq s ['c', 'o', 'u', 'n', 't'] = true) :
    strcaseEq s ['m', 'a', 't', 'c', 'h'] = false := by
  rw [strcaseEq, beq_iff_eq] at h
  rw [strcaseEq, h]
  rfl

def usedPattern (p : Sds) : Option Sds := if p = [42] then none else some p

theorem accepts_usedPattern (p s : Sds) : accepts (usedPattern p) s = Host.stringmatch p s := by
  unfold usedPattern
  split_ifs with hp
  · rw [hp, Host.stringmatch_star]
    rfl
  · rfl

omit [Host] in
theorem parseScanOptions_pat :
    ∀ (options : List Sds) {o o' : ScanOptions} {p : Sds}, parseScanOptions options o = .ok o' →
      o.pat = usedPattern p → o'.pat = usedPattern (matchPattern options p)
  | [], o, o', p, h, hp => by
    cases h
    exact hp
  | [_], o, o', p, h, hp => by cases h
  | name :: value :: argv, o, o', p, h, hp => by
    rw [parseScanOptions] at h
    rw [matchPattern]
    split at h
    · rename_i hcount
      rw [strcaseEq_count_match hcount]
      split at h
      · cases h
      · split at h
        · cases h
        · exact parseScanOptions_pat argv h hp
    · split at h
      · rename_i hmatch
        rw [if_pos hmatch]
        exact parseScanOptions_pat argv h rfl
      · cases h

theorem filterKeys_elems (pat : Option Sds) (keys : List Sds) :
    filterKeys pat false keys = some (keys.filter (accepts pat)) := by
  induction keys with
  | nil => rfl
  | cons key keys ih =>
    rw [filterKeys, ih, map_some, filter_cons]

theorem filterKeys_pairs (pat : Option Sds) (ps : List (Sds × Sds)) :
    filterKeys pat true (flatPairs ps) = some (flatPairs (ps.filter fun q => accepts pat q.1)) := by
  induction ps with
  | nil => rfl
  | cons q ps ih =>
    rw [flatPairs_cons, filterKeys, ih, map_some, filter_cons]
    split_ifs <;> rfl

variable {s : Server}

theorem scanGenericCommand_wp {α : Type} {sel : Value → Option α}
    {scan : α → ℤ → UInt64 → UInt64 × List Sds} {pairs : Bool} {name key cursor : Sds}
    {options : List Sds}
    {d : ℕ} {os : List Robj} {v : UInt64} {o : ScanOptions} {value : Value} {a : α}
    {keys : List Sds}
    (hargs : Args os (name :: key :: cursor :: options)) (hcursor : parseScanCursor cursor = .ok v)
    (ho : parseScanOptions options .default = .ok o)
    (hlook : Vire.lookupKeyRead (s.dbs (home d key)) key s.now = some value)
    (hsel : sel value = some a)
    (hfilter : filterKeys o.pat pairs (scan a o.count v).2 = some keys) :
    (scanGenericCommand sel scan pairs).Ends (.called d os) s fun out dbs =>
      out = scanPage (scan a o.count v).1 keys ∧ dbs = s.dbs := by
  have harg : text (os.getD 2 (sharedInteger 0)) = cursor := (hargs.getD rfl _).text_eq
  have hdrop : (os.drop 3).map text = options := hargs.map_text_drop 3
  rw [Cmd.Ends, scanGenericCommand, wp_arg, harg, hcursor]
  rw [wp_args, hdrop, ho]
  refine wp_lockKey hargs rfl ?_
  rw [wp_bind, wp_lookupKeyRead_eq, hlook, withSome, hsel, withSome, wp_bind, unlockDb,
    wp_unlockP, hfilter, wp_bind, wp_orHalt_some, wp_addReplies]
  exact ⟨rfl, rfl⟩

def readBulk : Reply → Option Sds
  | .bulk s => some s
  | _ => none

/-- The cursor and the elements of a page; the header has to be right. -/
def readPage : List Reply → Option (Sds × List Sds)
  | .multi 2 :: .bulk cursor :: .multi n :: rest =>
    (rest.mapM readBulk).bind fun keys => if n = keys.length then some (cursor, keys) else none
  | _ => none

omit [Host] in
theorem readPage_scanPage (v : UInt64) (keys : List Sds) :
    readPage (scanPage v keys) = some (ll2string (wrap v.toNat), keys) := by
  have hbulks : (keys.map Reply.bulk).mapM readBulk = some keys := by
    induction keys with
    | nil => rfl
    | cons key keys ih => rw [map_cons, mapM_cons, ih]; rfl
  rw [scanPage, readPage, hbulks, bind_some, if_pos rfl]

/-- A client sends a cursor and, until it gets 0, the cursor it got, at most `n` times: the pages it
gets.  A request is its options. -/
def follow (dictid : ℕ) (proc : Cmd Unit) (name key : Sds) :
    ℕ → (ℕ → Request (List Sds)) → Sds → Server → Option (List (List Sds))
  | 0, _, _, _ => none
  | n + 1, requests, cursor, s =>
    match call dictid proc (name :: key :: cursor :: (requests 0).cmd) (requests 0).now
        (requests 0).world s with
    | none => none
    | some (out, s') =>
      match readPage out with
      | none => none
      | some (cursor, keys) =>
        if cursor = ll2string 0 then some [keys]
        else (follow dictid proc name key n (fun i => requests (i + 1)) cursor s').map (keys :: ·)

/-- The options of a request are accepted, and its pattern is `p`. -/
def Asks (p : Sds) (options : List Sds) : Prop :=
  (∃ o, parseScanOptions options .default = .ok o) ∧ matchPattern options [42] = p

/-- The pages are made of elements that satisfy `P`, and every such element is on one of them. -/
def Covers (P : E → Prop) (emit : E → List Sds) (pages : List (List Sds)) : Prop :=
  ∃ ess : List (List E), pages = ess.map (·.flatMap emit) ∧ ∀ e, P e ↔ ∃ es ∈ ess, e ∈ es

section

variable {α : Type} {sel : Value → Option α} {scan : α → ℤ → UInt64 → UInt64 × List Sds}
  {pairs : Bool}
  {value : Value} {a : α} {P : E → Prop} {emit : E → List Sds} {title : E → Sds}
    {dictid : ℕ} {key : Sds}
  {Ahead : UInt64 → E → Prop} {left : UInt64 → ℕ} {bound : ℕ}
    (h : Scans P emit Ahead left bound (scan a))
  (hsel : sel value = some a)
  (hfilter : ∀ pat (es : List E), filterKeys pat pairs (es.flatMap emit) =
    some ((es.filter fun e => accepts pat (title e)).flatMap emit))

include h hsel hfilter

theorem Scans.call (name : Sds) {p cursor : Sds} {v : UInt64} {r : Request (List Sds)}
    (hask : Asks p r.cmd) (hcursor : parseScanCursor cursor = .ok v) (hv : v.toNat < bound)
    (hlook : Vire.lookupKeyRead (s.dbs (home dictid key)) key r.now = some value) :
    ∃ (w : UInt64) (es : List E) (s' : Server),
      Vire.call dictid (scanGenericCommand sel scan pairs) (name :: key :: cursor :: r.cmd) r.now
        r.world s = some (scanPage w (es.flatMap emit), s') ∧ s'.dbs = s.dbs ∧
      (w ≠ 0 → w.toNat < bound ∧ left w < left v) ∧
      (∀ e ∈ es, P e ∧ Host.stringmatch p (title e) = true) ∧
      ∀ e, P e → Host.stringmatch p (title e) = true → Ahead v e → e ∈ es ∨ w ≠ 0 ∧ Ahead w e := by
  obtain ⟨⟨o, ho⟩, hp⟩ := hask
  have hpat : o.pat = usedPattern p := hp ▸ parseScanOptions_pat r.cmd ho rfl
  obtain ⟨es, hes, hkeys, hmoves, hfinds⟩ := h.page o.count v hv
  have hkept := hfilter o.pat es
  rw [← hkeys, hpat] at hkept
  simp only [accepts_usedPattern] at hkept
  obtain ⟨out, s', hcall, hout, hdbs⟩ := call_of_ends (fun hargs =>
    scanGenericCommand_wp (s := .called _ r.now s) hargs hcursor ho hlook hsel
      (hpat ▸ hkept)) r.world
  refine ⟨_, _, s', hout ▸ hcall, hdbs, hmoves, fun e he => ?_, fun e he hmatch hahead => ?_⟩
  · obtain ⟨he, hmatch⟩ := mem_filter.mp he
    exact ⟨hes e he, hmatch⟩
  · exact (hfinds e he hahead).imp_left fun he => mem_filter.mpr ⟨he, hmatch⟩

theorem Scans.follow (p name : Sds) (m : ℕ) :
    ∀ (requests : ℕ → Request (List Sds)) (cursor : Sds) (v : UInt64) (s : Server), left v < m →
      v.toNat < bound → parseScanCursor cursor = .ok v → (∀ i, Asks p (requests i).cmd) →
      (∀ i, Vire.lookupKeyRead (s.dbs (home dictid key)) key (requests i).now = some value) →
      ∃ (n : ℕ) (ess : List (List E)),
        Vire.follow dictid (scanGenericCommand sel scan pairs) name key n requests cursor s =
          some (ess.map (·.flatMap emit)) ∧
        (∀ es ∈ ess, ∀ e ∈ es, P e ∧ Host.stringmatch p (title e) = true) ∧
        ∀ e, P e → Host.stringmatch p (title e) = true → Ahead v e → ∃ es ∈ ess, e ∈ es := by
  induction m with
  | zero => exact fun _ _ v _ hm => absurd hm (Nat.not_lt_zero _)
  | succ m ih =>
    intro requests cursor v s hm hv hcursor hask hlook
    obtain ⟨w, es, s', hcall, hdbs, hmoves, hes, hfinds⟩ :=
      h.call hsel hfilter name (hask 0) hcursor hv (hlook 0)
    have hstep : ∀ n, Vire.follow dictid (scanGenericCommand sel scan pairs) name key (n + 1)
      requests cursor s =
        if ll2string (wrap w.toNat) = ll2string 0 then some [es.flatMap emit]
        else (Vire.follow dictid (scanGenericCommand sel scan pairs) name key n
          (fun i => requests (i + 1))
          (ll2string (wrap w.toNat)) s').map (es.flatMap emit :: ·) := by
      intro n
      rw [Vire.follow, hcall]
      dsimp only
      rw [readPage_scanPage]
    by_cases hw : w = 0
    · have hzero : ll2string (wrap w.toNat) = ll2string 0 := by simp [hw, wrap]
      refine ⟨1, [es],
        by rw [hstep, if_pos hzero]; rfl, fun es' hes' e he => ?_, fun e he hmatch hahead => ?_⟩
      · rw [mem_singleton.mp hes'] at he
        exact hes e he
      · refine ⟨es, mem_singleton_self _, (hfinds e he hmatch hahead).resolve_right ?_⟩
        exact fun hne => hne.1 hw
    · obtain ⟨hlt, hleft⟩ := hmoves hw
      have hread := parseScanCursor_decimal (hlt.trans_le h.bound_le)
      have hne : ll2string (wrap w.toNat) ≠ ll2string 0 := by
        intro heq
        rw [heq] at hread
        exact hw (Except.ok.inj hread).symm
      obtain ⟨n, ess, hn, hess, hrest⟩ :=
        ih (fun i => requests (i + 1)) (ll2string (wrap w.toNat)) w s'
        (by omega) hlt hread (fun i => hask (i + 1)) (fun i => hdbs ▸ hlook (i + 1))
      refine ⟨n + 1, es :: ess, by rw [hstep, if_neg hne, hn]; rfl, fun es' hes' e he => ?_,
        fun e he hmatch hahead => ?_⟩
      · rcases mem_cons.mp hes' with rfl | hes'
        · exact hes e he
        · exact hess es' hes' e he
      · rcases hfinds e he hmatch hahead with hmem | ⟨-, hahead'⟩
        · exact ⟨es, mem_cons_self, hmem⟩
        · obtain ⟨es', hes', hmem⟩ := hrest e he hmatch hahead'
          exact ⟨es', mem_cons_of_mem _ hes', hmem⟩

theorem Scans.covers {p : Sds} (name : Sds) {requests : ℕ → Request (List Sds)}
    (hask : ∀ i, Asks p (requests i).cmd)
    (hlook : ∀ i, Vire.lookupKeyRead (s.dbs (home dictid key)) key (requests i).now = some value) :
    ∃ n pages, Vire.follow dictid (scanGenericCommand sel scan pairs) name key n requests
      (ll2string 0) s =
      some pages ∧ Covers (fun e => P e ∧ Host.stringmatch p (title e) = true) emit pages := by
  obtain ⟨n, ess, hn, hess, hfinds⟩ := h.follow hsel hfilter p name _ requests (ll2string 0) 0 s
    (Nat.lt_succ_self _) h.bound_pos rfl hask hlook
  refine ⟨n, _, hn, ess, rfl, fun e => ⟨fun he => hfinds e he.1 he.2 (h.start e he.1), ?_⟩⟩
  rintro ⟨es, hes, he⟩
  exact hess es hes e he

end

/-- Following the cursors of SSCAN or HSCAN from 0 on ends, whatever the value is encoded as and
whichever COUNT comes with each request.  By then the pages had every element whose name the pattern
accepts, and nothing else; a page of HSCAN is made of the fields with their values. -/
theorem collection_scan_complete (dictid : ℕ) (name key p : Sds)
    (requests : ℕ → Request (List Sds)) (s : Server) (hask : ∀ i, Asks p (requests i).cmd) :
    (∀ (v : SetVal) (S : Finset Sds), v.Is S → v.Sized →
      (∀ i, lookupKeyRead (s.dbs (home dictid key)) key (requests i).now = some (.set v)) →
      ∃ n pages, follow dictid sscanCommand name key n requests (ll2string 0) s = some pages ∧
        Covers (fun x => x ∈ S ∧ Host.stringmatch p x = true) (fun x => [x]) pages) ∧
    ∀ (v : HashVal) (m : Sds → Option Sds), v.Has m → v.Sized →
      (∀ i, lookupKeyRead (s.dbs (home dictid key)) key (requests i).now = some (.hash v)) →
      ∃ n pages, follow dictid hscanCommand name key n requests (ll2string 0) s = some pages ∧
        Covers (fun q : Sds × Sds => m q.1 = some q.2 ∧ Host.stringmatch p q.1 = true)
          (fun q => [q.1, q.2]) pages := by
  refine ⟨fun v S hv hs hlook => ?_, fun v m hv hs hlook => ?_⟩
  · obtain ⟨_, _, _, hscans⟩ := hv.scans hs
    refine hscans.covers rfl (fun pat es => ?_) name hask hlook
    rw [flatMap_singleton', flatMap_singleton', filterKeys_elems]
  · obtain ⟨_, _, _, hscans⟩ := hv.scans hs
    exact hscans.covers rfl filterKeys_pairs name hask hlook

end

def rehashedSet : Dict Robj Unit :=
  ⟨⟨[[], [((createStringObject [97] .init).1, ())], [], []], 1⟩,
    ⟨[[((createStringObject [104] .init).1, ())], [], [], [], [], [], [], []], 1⟩, some 1, 0⟩

theorem rehashedSet_is : let _ := Host.plain 1 1 Nat.one_pos
    (SetVal.ht rehashedSet).Is {[97], [104]} ∧ (SetVal.ht rehashedSet).Sized := by
  let _ := Host.plain 1 1 Nat.one_pos
  refine ⟨⟨⟨Dictht.wf_of_lt (by decide) rfl, Dictht.wf_of_lt (by decide) rfl,
    by decide, ?_, by decide, ?_⟩,
    fun s => ?_⟩, ⟨fun _ => ⟨2, by decide, rfl⟩, fun _ => ⟨3, by decide, rfl⟩⟩⟩
  · exact fun h => absurd h (by simp [rehashedSet])
  · rintro r i ⟨⟩ hi
    obtain rfl : i = 0 := by omega
    rfl
  · have htexts : (SetVal.ht rehashedSet).texts = [[97], [104]] := by decide
    rw [htexts]
    simp

theorem collection_scan_complete_rehashed : let _ := Host.plain 1 1 Nat.one_pos
    ∃ n pages, follow 0 Handler.sscanCommand (ascii "sscan".toList) [107] n
        (fun i => ⟨[ascii "MATCH".toList, [97], ascii "COUNT".toList, [49]], i, fun _ => 0⟩)
        (ll2string 0) (Server.single 0 [107] (.set (.ht rehashedSet))) = some pages ∧
      Covers (fun x => x ∈ ({[97], [104]} : Finset Sds) ∧ Host.stringmatch [97] x = true)
        (fun x => [x]) pages := by
  let _ := Host.plain 1 1 Nat.one_pos
  exact (collection_scan_complete 0 _ _ [97] _ _ fun i => ⟨⟨⟨1, some [97]⟩, rfl⟩, rfl⟩).1 _ _
    rehashedSet_is.1 rehashedSet_is.2 fun i => (Server.single_keyIs _ _ _).lookupKeyRead _

end Vire
