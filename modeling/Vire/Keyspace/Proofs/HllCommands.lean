import Vire.Keyspace.Handler.Hll
import Vire.Keyspace.Proofs.HllRegisters
import Vire.Keyspace.Proofs.String

/-!
# PFADD and PFCOUNT

The string of a key stands for the maxima of the patterns of all elements that were added, and says
of a cardinality that it is valid only as long as these are the maxima it was computed for.
-/

namespace Vire

open List Logic Prog

theorem length_storeWord (n v : ℕ) : (storeWord n v).length = n := by
  induction n generalizing v with
  | zero => rfl
  | succ n ih => rw [storeWord, length_cons, ih]

theorem loadWord_storeWord (n v : ℕ) : loadWord (storeWord n v) = v % 256 ^ n := by
  induction n generalizing v with
  | zero => rw [storeWord, loadWord, Nat.pow_zero, Nat.mod_one]
  | succ n ih =>
    have hbyte : (v % 256).toUInt8.toNat = v % 256 := by
      exact Nat.mod_mod ..
    rw [storeWord, loadWord, ih, hbyte, Nat.pow_succ, Nat.mul_comm (256 ^ n), Nat.mod_mul]

section

variable {x : Sds} {regs : List ℕ}

theorem HllIs.invalidateCache (h : HllIs x regs) : HllIs (hllInvalidateCache x) regs := by
  refine h.of_drop_eq (drop_set_of_lt (by decide)) (by rw [hllInvalidateCache, length_set])
    (by rw [hllInvalidateCache, take_set_of_le (by omega)]) ?_
  rw [hllEncoding, hllInvalidateCache, getD_set, if_neg (by omega), hllEncoding]

theorem hllValidCache_invalidateCache (hlen : hllHdrSize ≤ x.length) :
    hllValidCache (hllInvalidateCache x) = false := by
  rw [hllHdrSize] at hlen
  rw [hllValidCache, hllInvalidateCache, getD_set, if_pos ⟨rfl, by omega⟩]
  exact forall_byte (P := fun b => ((b ||| 0x80) &&& 0x80 == 0) = false) (by decide +kernel) _

theorem HllIs.setCard (h : HllIs x regs) (card : UInt64) :
    HllIs (hllSetCard x card) regs ∧ hllCard (hllSetCard x card) = card.toNat := by
  have hlen := h.hdrSize_le
  have htake : (x.take 8).length = 8 := by
    rw [length_take]
    rw [hllHdrSize] at hlen
    omega
  have hword := length_storeWord 8 card.toNat
  have hhdr : (x.take 8 ++ storeWord 8 card.toNat).length = hllHdrSize := by
    rw [length_append, htake, hword]
    rfl
  refine ⟨h.of_drop_eq ?_ ?_ ?_ ?_, ?_⟩
  · rw [hllSetCard, drop_left' hhdr]
  · rw [hllSetCard, length_append, hhdr, length_drop, Nat.add_sub_cancel' hlen]
  · rw [hllSetCard, append_assoc, take_append_of_le_length (by omega), take_take]
    rfl
  · rw [hllEncoding, hllSetCard, append_assoc, getD_append _ _ _ _ (by omega),
      getD_eq_getElem?_getD, getElem?_take_of_lt (by omega), ← getD_eq_getElem?_getD]
    rfl
  · rw [hllCard, hllSetCard, append_assoc, drop_left' htake, take_left' hword, loadWord_storeWord]
    exact Nat.mod_eq_of_lt card.toNat_lt

end

section

variable [Host]

theorem hllCount_eq {x : Sds} {regs : List ℕ} (h : HllIs x regs) :
    hllCount x = some (some (Host.hllEstimate x)) := by
  rw [hllCount]
  split_ifs with henc
  · rfl
  · obtain ⟨hdr, bytes, ops, rfl, hhdr, hops, rfl⟩ := h.sparse henc
    rw [hllSparseIdx_eq (by rwa [drop_left' hhdr]), h.length, int32_natCast le_rfl]
    simp

/-- The longest pattern of the elements that map to a register. -/
def hllMax (eles : List Sds) (i : ℕ) : ℕ :=
  ((eles.filter fun ele => (hllPatLen ele).1 = i).map fun ele => (hllPatLen ele).2).foldr max 0

def hllMaxima (eles : List Sds) : List ℕ := (range hllRegisters).map (hllMax eles)

omit [Host] in
theorem foldr_max_append (l : List ℕ) (n : ℕ) : (l ++ [n]).foldr max 0 = max (l.foldr max 0) n := by
  induction l with
  | nil => simp
  | cons a l ih => rw [cons_append, foldr_cons, ih, foldr_cons, max_assoc]

theorem hllMax_concat (eles : List Sds) (ele : Sds) (i : ℕ) :
    hllMax (eles ++ [ele]) i = if (hllPatLen ele).1 = i then max (hllMax eles i) (hllPatLen ele).2
      else hllMax eles i := by
  rw [hllMax, filter_append, map_append]
  split_ifs with hi
  · rw [filter_cons_of_pos (by simpa using hi), filter_nil]
    exact foldr_max_append ..
  · rw [filter_cons_of_neg (by simpa using hi), filter_nil, map_nil, append_nil, hllMax]

theorem hllMax_le_append (eles eles' : List Sds) (i : ℕ) :
    hllMax eles i ≤ hllMax (eles ++ eles') i := by
  induction eles' using reverseRecOn with
  | nil => rw [append_nil]
  | append_singleton eles' ele ih =>
    rw [← append_assoc, hllMax_concat]
    split_ifs
    · exact ih.trans (le_max_left ..)
    · exact ih

theorem getD_hllMaxima (eles : List Sds) {i : ℕ} (hi : i < hllRegisters) :
    (hllMaxima eles).getD i 0 = hllMax eles i := by
  rw [hllMaxima, getD_eq_getElem?_getD, getElem?_map, getElem?_range hi]
  rfl

theorem hllMaxima_nil : hllMaxima [] = replicate hllRegisters 0 := by
  rw [hllMaxima, eq_replicate_iff, length_map, length_range]
  exact ⟨rfl, fun x hx => by obtain ⟨i, -, rfl⟩ := mem_map.mp hx; rfl⟩

theorem hllMaxima_grown {eles : List Sds} {ele : Sds}
    (h : hllMax eles (hllPatLen ele).1 < (hllPatLen ele).2) :
    (hllMaxima eles).set (hllPatLen ele).1 (hllPatLen ele).2 = hllMaxima (eles ++ [ele]) := by
  refine ext_getElem (by simp [hllMaxima]) fun i hi hi' => ?_
  simp only [hllMaxima, getElem_set, getElem_map, getElem_range, hllMax_concat]
  split_ifs with heq
  · rw [← heq, max_eq_right h.le]
  · rfl

theorem hllMax_kept {eles : List Sds} {ele : Sds}
    (h : (hllPatLen ele).2 ≤ hllMax eles (hllPatLen ele).1) :
    hllMax (eles ++ [ele]) = hllMax eles := by
  funext i
  rw [hllMax_concat]
  split_ifs with heq
  · rw [← heq, max_eq_left h]
  · rfl

end

inductive HllCmd
  | pfadd (eles : List Sds)
  | pfcount

def HllCmd.argv (key : Sds) : HllCmd → List Sds
  | pfadd eles => ascii "pfadd".toList :: key :: eles
  | pfcount => [ascii "pfcount".toList, key]

def HllCmd.eles : HllCmd → List Sds
  | pfadd eles => eles
  | pfcount => []

def hllAdded (hist : List HllCmd) : List Sds := hist.flatMap HllCmd.eles

theorem hllAdded_concat (hist : List HllCmd) (cmd : HllCmd) :
    hllAdded (hist ++ [cmd]) = hllAdded hist ++ cmd.eles := by
  rw [hllAdded, flatMap_append, flatMap_singleton, hllAdded]

variable {hist : List HllCmd}

theorem hllAdded_eq_nil (h : ∀ eles, .pfadd eles ∉ hist) :
    hllAdded hist = [] := by
  refine flatMap_eq_nil_iff.mpr fun cmd hcmd => ?_
  cases cmd with
  | pfadd eles => exact absurd hcmd (h eles)
  | pfcount => rfl

section

variable [Host]

theorem hllIs_new : HllIs hllNew (hllMaxima []) := by
  refine ⟨by decide +kernel, .inr ⟨by decide +kernel, by decide +kernel⟩, ?_, by rw [hllMaxima_nil,
    length_replicate]⟩
  have hdrop : hllNew.drop hllHdrSize = hllSparseXzeroSet hllRegisters := by decide +kernel
  rw [hllRegs, if_neg (by decide +kernel), hdrop, hllOpcodes_xzeroSet (by decide) le_rfl,
    hllMaxima_nil, Option.map_some, hllOpsRegs_cons]
  exact congrArg some (append_nil _)

def HllCmd.proc : HllCmd → Cmd Unit
  | pfadd _ => Handler.pfaddCommand
  | pfcount => Handler.pfcountCommand

/-- If the cached cardinality is marked valid, some PFCOUNT has computed it, and no register has
changed since. -/
def HllFresh (hist : List HllCmd) (x : Sds) : Prop :=
  hllValidCache x = true → ∃ before after x₀, hist = before ++ .pfcount :: after ∧
    hllMax (hllAdded hist) = hllMax (hllAdded before) ∧ HllIs x₀ (hllMaxima (hllAdded before)) ∧
    hllCard x = (Host.hllEstimate x₀).toNat

theorem HllFresh.kept {x : Sds} (h : HllFresh hist x) {cmd : HllCmd}
    (hsame : hllMax (hllAdded (hist ++ [cmd])) = hllMax (hllAdded hist)) :
    HllFresh (hist ++ [cmd]) x := by
  intro hvalid
  obtain ⟨before, after, x0, hhist, hmax, hx0, hcard⟩ := h hvalid
  refine ⟨before, after ++ [cmd], x0, ?_, hsame.trans hmax, hx0, hcard⟩
  rw [hhist, append_assoc, cons_append]

/-- After these commands, the key has a HyperLogLog with the maxima of what was added; there is no
key as long as nothing was added. -/
inductive HllAt (dbs : ℕ → Db Value) (i : ℕ) (key : Sds) (hist : List HllCmd) : Prop
  | missing (hnone : ∀ eles, .pfadd eles ∉ hist) (h : KeyIs dbs i key none)
  | holds (hsome : ∃ eles, .pfadd eles ∈ hist) {o : Robj} {x : Sds}
    (h : KeyIs dbs i key (some (.str o)))
      (ho : o.Denotes x) (hx : HllIs x (hllMaxima (hllAdded hist))) (hfresh : HllFresh hist x)

def HllCmd.Replies (hist : List HllCmd) : HllCmd → List Reply → Prop
  | pfadd eles, out => (out = [Handler.cone] ∨ out = [Handler.czero]) ∧ (out = [Handler.cone] ↔
      (∀ eles, pfadd eles ∉ hist) ∨ ∃ i, hllMax (hllAdded hist) i <
        hllMax (hllAdded hist ++ eles) i)
  | pfcount, out => (∀ eles, pfadd eles ∉ hist) ∧ out = [Handler.czero] ∨
      ∃ x, HllIs x (hllMaxima (hllAdded hist)) ∧ out = [.int (wrap (Host.hllEstimate x).toNat)]

def HllCmd.Spec (hist : List HllCmd) (cmd : HllCmd) (out : List Reply) (hist' : List HllCmd) :
    Prop :=
  hist' = hist ++ [cmd] ∧ cmd.Replies hist out

def HllCmd.Done (i : ℕ) (key : Sds) (hist : List HllCmd) (cmd : HllCmd) (out : List Reply)
    (dbs : ℕ → Db Value) : Prop :=
  ∃ hist', cmd.Spec hist out hist' ∧ HllAt dbs i key hist'

namespace Handler

variable {c : Client} {s : Server} {key : Sds} {dbs : ℕ → Db Value} {o : Robj} {x : Sds}
  {t : Option ℤ}

theorem pfaddLoop_wp {es : List Sds} {Q : Post (Option (ℕ × Robj))}
    (hput : KeyPut dbs c.db key (some (.str o)) t s.dbs) (ho : o.Denotes x)
    (hx : HllIs x (hllMaxima es)) (eles : List Sds) (updated : ℕ)
    (hQ : ∀ o' x' n s', KeyPut dbs c.db key (some (.str o')) t s'.dbs → o'.Denotes x' →
      HllIs x' (hllMaxima (es ++ eles)) →
      (n = updated ∧ x' = x ∧ hllMax (es ++ eles) = hllMax es ∨
        updated < n ∧ ∃ i, hllMax es i < hllMax (es ++ eles) i) → Q (some (n, o')) c s') :
    (pfaddLoop key eles o updated).Wp c s Q := by
  induction eles generalizing es o x updated s with
  | nil =>
    rw [append_nil] at hQ
    exact hQ o x updated s hput ho hx (.inl ⟨rfl, rfl, rfl⟩)
  | cons ele eles ih =>
    obtain ⟨r, hr, his⟩ := hllAdd_spec hx ele
    have hget := getD_hllMaxima es (hllPatLen_index_lt ele)
    have happend : es ++ ele :: eles = es ++ [ele] ++ eles := by rw [append_assoc, singleton_append]
    rw [happend] at hQ
    rw [pfaddLoop, wp_bind, ho.text_eq, hr, wp_orHalt_some]
    cases his with
    | kept hle =>
      have hmax := hllMax_kept (hget ▸ hle)
      have hmaxima : hllMaxima (es ++ [ele]) = hllMaxima es := by rw [hllMaxima, hmax, hllMaxima]
      refine ih hput ho (by rwa [hmaxima]) updated fun o' x' n s' hput' ho' hx' hn => ?_
      rw [hmax] at hn
      exact hQ o' x' n s' hput' ho' hx' hn
    | grown hlt hs =>
      rw [hget] at hlt
      rw [hllMaxima_grown hlt] at hs
      rw [wp_bind]
      refine wp_setString hput _ fun o1 s1 hput1 ho1 => ?_
      refine ih hput1 ho1 hs (updated + 1) fun o' x' n s' hput' ho' hx' hn => ?_
      refine hQ o' x' n s' hput' ho' hx' (.inr ⟨by omega, (hllPatLen ele).1, ?_⟩)
      refine lt_of_lt_of_le ?_ (hllMax_le_append (es ++ [ele]) eles _)
      rw [hllMax_concat, if_pos rfl]
      exact lt_max_of_lt_right hlt

theorem pfaddCommand.add_wp {argv : List Sds} {es : List Sds} {Q : Post Unit}
    (hargs : Args c.argv argv) (hput : KeyPut dbs c.db key (some (.str o)) t s.dbs)
    (ho : o.Denotes x) (hx : HllIs x (hllMaxima es)) (updated : ℕ)
    (hQ : ∀ s' o' x' n, KeyPut dbs c.db key (some (.str o')) t s'.dbs → o'.Denotes x' →
      HllIs x' (hllMaxima (es ++ argv.drop 2)) →
      (0 < n → hllValidCache x' = false) → (n = 0 → x' = x) →
      (n = updated ∧ hllMax (es ++ argv.drop 2) = hllMax es ∨
        updated < n ∧ ∃ i, hllMax es i < hllMax (es ++ argv.drop 2) i) →
      Q () { c with out := c.out ++ [if 0 < n then cone else czero] } s') :
    (add key o updated).Wp c s Q := by
  rw [add, wp_args, hargs.map_text_drop, wp_bind]
  refine pfaddLoop_wp hput ho hx (argv.drop 2) updated fun o1 x1 n s1 hput1 ho1 hx1 hn => ?_
  rw [withSome, ho1.text_eq]
  split_ifs with hpos
  · rw [wp_bind]
    refine wp_setString hput1 _ fun o2 s2 hput2 ho2 => ?_
    have hpost := hQ s2 o2 _ n hput2 ho2 hx1.invalidateCache
      (fun _ => hllValidCache_invalidateCache hx1.hdrSize_le) (fun h0 => absurd h0 hpos.ne')
      (hn.imp (fun h => ⟨h.1, h.2.2⟩) id)
    rw [if_pos hpos] at hpost
    exact hpost
  · have hsame : n = 0 → x1 = x := fun h0 => by
      rcases hn with ⟨-, heq, -⟩ | ⟨hlt, -⟩
      · exact heq
      · omega
    have hpost :=
      hQ s1 o1 x1 n hput1 ho1 hx1 (fun h => absurd h hpos) hsame (hn.imp (fun h => ⟨h.1, h.2.2⟩) id)
    rw [if_neg hpos] at hpost
    exact hpost

omit [Host] in
theorem isHLLObject_eq (ho : o.Denotes x) (hlen : hllHdrSize ≤ x.length)
    (hmagic : x.take 4 = ascii "HYLL".toList)
    (henc : hllEncoding x = hllDense ∧ x.length = hllDenseSize ∨ hllEncoding x = hllSparse) :
    isHLLObject o = some true := by
  have hint : o.isInt = false := by
    unfold Robj.Denotes at ho
    unfold Robj.isInt
    rcases he : o.enc with u | u | i | _ <;> rw [he] at ho
    -- an integer does not begin with a letter
    have hread := string2ll_ll2string ho.1 ho.2.1
    rw [ho.2.2, ← take_append_drop 4 x, hmagic] at hread
    simp [string2ll, ascii] at hread
  rw [isHLLObject, ho.stringObjectLen_eq, if_neg (Nat.not_lt.mpr hlen), hint,
    if_neg Bool.false_ne_true, ho.text_eq]
  dsimp only
  rw [hmagic]
  rcases henc with ⟨hdense, hsize⟩ | hsparse
  · simp [hdense, hsize]
  · simp [hsparse]

omit [Host] in
theorem wp_withHLLObject {regs : List ℕ} {k : Robj → Cmd Unit} {Q : Post Unit} (ho : o.Denotes x)
    (hx : HllIs x regs) (hk : (k o).Wp c s Q) :
    (withHLLObject (.str o) k).Wp c s Q := by
  have hobj := isHLLObject_eq ho hx.hdrSize_le hx.magic (hx.encoding.imp id And.left)
  rw [withHLLObject, Value.str?, withSome, wp_bind, hobj, wp_orHalt_some, if_pos rfl]
  exact hk

variable {d : ℕ} {os : List Robj} {hist : List HllCmd}

theorem pfaddCommand_wp {eles : List Sds} (hargs : Args os ((HllCmd.pfadd eles).argv key))
    (h : HllAt s.dbs (home d key) key hist) :
    pfaddCommand.Ends (.called d os) s ((HllCmd.pfadd eles).Done (home d key) key hist) := by
  refine wp_lockKey hargs rfl ?_
  have happend : hllAdded hist ++ eles = hllAdded (hist ++ [.pfadd eles]) :=
    (hllAdded_concat hist (.pfadd eles)).symm
  cases h with
  | missing hnone h =>
    have hempty : hllAdded hist = [] := hllAdded_eq_nil hnone
    rw [wp_bind, wp_lookupKeyWrite (c := (Client.called d os).on key) h, withSome, wp_bind]
    refine wp_dbAdd_put h.put fun s1 hput => ?_
    refine pfaddCommand.add_wp hargs hput (createRawStringObject_denotes ..) hllIs_new 1
      fun s' o' x' n hput' ho' hx' hvalid _ hn => ?_
    have hpos : 0 < n := by omega
    rw [if_pos hpos]
    refine ⟨_, ⟨rfl, .inl rfl, iff_of_true rfl (.inl hnone)⟩,
      .holds ⟨eles, by simp⟩ hput'.keyIs ho' ?_ ?_⟩
    · rw [← happend, hempty]
      exact hx'
    · exact fun hv => absurd hv (by rw [hvalid hpos]; exact Bool.false_ne_true)
  | holds hsome h ho hx hfresh =>
    rw [wp_bind, wp_lookupKeyWrite (c := (Client.called d os).on key) h, withSome]
    refine wp_withHLLObject ho hx ?_
    rw [wp_bind]
    refine wp_dbUnshareStringValue h.put ho fun o1 s1 hput ho1 => ?_
    refine pfaddCommand.add_wp hargs hput ho1 hx 0 fun s' o' x' n hput' ho' hx' hvalid
      hkept hn => ?_
    have hdrop : ((HllCmd.pfadd eles).argv key).drop 2 = eles := rfl
    rw [hdrop, happend] at hx'
    rw [hdrop] at hn
    have hthere : ¬∀ eles, HllCmd.pfadd eles ∉ hist := fun hnone => hsome.elim hnone
    refine ⟨_, ⟨rfl, ?_⟩, .holds ⟨eles, by simp⟩ hput'.keyIs ho' hx' ?_⟩
    · rcases hn with ⟨rfl, hsame⟩ | ⟨hpos, hgrown⟩
      · refine ⟨.inr rfl, iff_of_false (show ¬[czero] = [cone] by decide) (not_or.mpr ⟨hthere, ?_⟩)⟩
        rintro ⟨i, hi⟩
        rw [hsame] at hi
        exact lt_irrefl _ hi
      · rw [if_pos hpos]
        exact ⟨.inl rfl, iff_of_true rfl (.inr hgrown)⟩
    · rcases hn with ⟨rfl, hsame⟩ | ⟨hpos, -⟩
      · rw [hkept rfl]
        exact hfresh.kept (happend ▸ hsame)
      · exact fun hv => absurd hv (by rw [hvalid hpos]; exact Bool.false_ne_true)

theorem pfcountCommand_wp (hargs : Args os (HllCmd.pfcount.argv key))
    (h : HllAt s.dbs (home d key) key hist) :
    pfcountCommand.Ends (.called d os) s (HllCmd.pfcount.Done (home d key) key hist) := by
  have hsame : hllAdded (hist ++ [.pfcount]) = hllAdded hist := by
    rw [hllAdded_concat]
    exact append_nil _
  have hargc : os.length = 2 := hargs.length_eq
  rw [Cmd.Ends, pfcountCommand, wp_argc, hargc, if_neg (by decide)]
  refine wp_lockKey hargs rfl ?_
  cases h with
  | missing hnone h =>
    rw [wp_bind, wp_lookupKeyWrite (c := (Client.called d os).on key) h, withSome]
    refine ⟨_, ⟨rfl, .inl ⟨hnone, rfl⟩⟩, .missing (fun eles hmem => ?_) h⟩
    rcases mem_append.mp hmem with hmem | hmem
    · exact hnone eles hmem
    · cases mem_singleton.mp hmem
  | @holds hsome o x h ho hx hfresh =>
    have hsome' : ∃ eles, HllCmd.pfadd eles ∈ hist ++ [.pfcount] :=
      hsome.imp fun _ h => mem_append_left _ h
    rw [wp_bind, wp_lookupKeyWrite (c := (Client.called d os).on key) h, withSome]
    refine wp_withHLLObject ho hx ?_
    rw [wp_bind]
    refine wp_dbUnshareStringValue h.put ho fun o1 s1 hput ho1 => ?_
    rw [pfcountCommand.count, ho1.text_eq]
    split_ifs with hvalid
    · obtain ⟨before, after, x0, hhist, hmax, hx0, hcard⟩ := hfresh hvalid
      refine ⟨_, ⟨rfl, .inr ⟨x0, ?_, ?_⟩⟩, .holds hsome' hput.keyIs ho1 (by rwa [hsame]) ?_⟩
      · rwa [hllMaxima, hmax]
      · rw [← hcard]
        rfl
      · exact hfresh.kept (by rw [hsame])
    · obtain ⟨hx', hcard⟩ := hx.setCard (Host.hllEstimate x)
      rw [wp_bind, hllCount_eq hx, wp_orHalt_some, withSome, wp_bind]
      refine wp_setString hput _ fun o2 s2 hput2 ho2 => ?_
      exact ⟨_, ⟨rfl, .inr ⟨x, hx, rfl⟩⟩, .holds hsome' hput2.keyIs ho2 (by rwa [hsame]) fun _ =>
        ⟨hist, [], x, rfl, by rw [hsame], hx, hcard⟩⟩

end Handler

theorem HllCmd.proc_wp (cmd : HllCmd) {d : ℕ} {os : List Robj} {s : Server} {key : Sds}
    (hargs : Args os (cmd.argv key)) (h : HllAt s.dbs (home d key) key hist) :
    cmd.proc.Ends (.called d os) s (cmd.Done (home d key) key hist) := by
  cases cmd with
  | pfadd eles => exact Handler.pfaddCommand_wp hargs h
  | pfcount => exact Handler.pfcountCommand_wp hargs h

theorem HllCmd.hist_eq {hist' : List HllCmd} {requests : List (Request HllCmd)}
    {outs : List (List Reply)}
    (h : Answers (fun hist r => HllCmd.Spec hist r.cmd) hist requests outs hist') :
    hist' = hist ++ requests.map Request.cmd := by
  induction h with
  | nil => rw [map_nil, append_nil]
  | cons hspec _ ih => rw [ih, hspec.1, append_assoc, map_cons, singleton_append]

/-- Whatever PFADD and PFCOUNT are sent for a key that is missing: the key has a HyperLogLog, in
either encoding, whose 16384 registers are the maxima of the patterns of the elements that were
added; PFADD replies 1 if and only if it has created the key or a register has grown; a cardinality
that is marked valid was computed for these registers. -/
theorem hll_registers_max (dictid : ℕ) (key : Sds) {s : Server}
    (h : KeyIs s.dbs (home dictid key) key none) (requests : List (Request HllCmd)) :
    ∃ outs s', serveAll (serve dictid HllCmd.proc (HllCmd.argv key)) requests s = some (outs, s') ∧
      Answers (fun hist r => HllCmd.Spec hist r.cmd) [] requests outs (requests.map Request.cmd) ∧
      HllAt s'.dbs (home dictid key) key (requests.map Request.cmd) := by
  obtain ⟨outs, s', hist, hserve, hanswers, hat⟩ := serveAll_answers HllCmd.Spec
    (fun d _ dbs => HllAt dbs (home d key) key)
    (fun cmd _ _ _ _ _ hargs h => cmd.proc_wp hargs h) requests (.missing (fun _ => not_mem_nil) h)
  obtain rfl := HllCmd.hist_eq hanswers
  exact ⟨outs, s', hserve, hanswers, hat⟩

end

theorem hll_registers_max_init :
    let _ := Host.plain 1 1 Nat.one_pos
    let requests : List (Request HllCmd) :=
      [⟨.pfadd [[97], [98]], 1, fun _ => 0⟩, ⟨.pfcount, 2, fun _ => 0⟩]
    ∃ outs s', serveAll (serve 0 HllCmd.proc (HllCmd.argv [107])) requests (Server.init 0) =
      some (outs, s') ∧
      Answers (fun hist r => HllCmd.Spec hist r.cmd) [] requests outs (requests.map Request.cmd) ∧
      HllAt s'.dbs (home 0 [107]) [107] (requests.map Request.cmd) := by
  intro _ _
  exact hll_registers_max 0 [107] (Server.init_keyIs 0 _ _) _

end Vire
