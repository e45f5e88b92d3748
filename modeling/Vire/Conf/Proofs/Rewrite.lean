import Mathlib.Data.List.Nodup
import Vire.Conf.Proofs.Values

/-!
# CONFIG REWRITE and a reload

While CONFIG REWRITE goes through the options, the lines that are not in the list of an option any
more, `fixed`, come to mean what is printed for each of them.  The lines left over are blanked, so
the file is loaded to the configuration that was written.
-/

namespace Vire.Conf

open List Option RewriteState

theorem Opt.plain_name (o : Opt) : Plain o.name := by cases o <;> decide +kernel

theorem Opt.tolower_name (o : Opt) : o.name.map tolower = o.name := by cases o <;> rfl

theorem Opt.name_inj {o o' : Opt} (h : o.name = o'.name) : o = o' := by
  have hnd : (Opt.all.map Opt.name).Nodup := by decide +kernel
  exact inj_on_of_nodup_map hnd o.mem_all o'.mem_all h

theorem Opt.head_name (o : Opt) : o.name.head? ≠ some 35 ∧ o.name.head? ≠ some 91 := by
  cases o <;> decide

theorem Opt.not_skipped (o : Opt) (t : Sds) :
    ¬ (Skipped (o.name ++ t) ∨ IsHeader (o.name ++ t)) := by
  have hne := o.plain_name.1
  obtain ⟨h35, h91⟩ := o.head_name
  simp [Skipped, IsHeader, head?_append_of_ne_nil _ hne, hne, h35, h91]

/-- A line that gives `args` for the key `x` and nothing else. -/
structure Gives (text x : Sds) (args : List Sds) : Prop where
  readable : Readable text
  own : argsFor x text = args
  others : ∀ y ≠ x, argsFor y text = []

variable {args : List Sds} {o : Opt}

theorem Opt.gives {t : Sds} (htrim : sdstrim (o.name ++ t) = o.name ++ t)
    (hnl : 10 ∉ t) (hz : 0 ∉ t) (hargs : sdssplitargs (o.name ++ t) = some (o.name :: args)) :
    Gives (o.name ++ t) o.name args := by
  have hplain := o.plain_name.2.1
  have hskip := o.not_skipped t
  refine ⟨⟨htrim, ?_, ?_, fun h => absurd (.inr h) hskip, fun _ _ => by simp [hargs]⟩, ?_,
    fun y hy => ?_⟩
  · simpa [hnl] using fun h => absurd (hplain 10 h) (by decide)
  · simpa [hz] using fun h => absurd (hplain 0 h) (by decide)
  · simp [argsFor, hskip, hargs, o.tolower_name]
  · simp [argsFor, hskip, hargs, o.tolower_name, Ne.symm hy]

theorem Opt.gives_line (o : Opt) (h : ∀ t ∈ args, Plain t) :
    Gives (line o.name args) o.name args := by
  have hall : ∀ t ∈ o.name :: args, Plain t := forall_mem_cons.mpr ⟨o.plain_name, h⟩
  refine Opt.gives (sdstrim_line hall) ?_ ?_ (sdssplitargs_line hall)
  · exact fun hm => not_mem_line hall (.inr rfl) (mem_append_right _ hm)
  · exact fun hm => not_mem_line hall (.inl rfl) (mem_append_right _ hm)

theorem Opt.gives_word (o : Opt) {w : Sds} (h : Plain w) :
    Gives (o.name ++ 32 :: w) o.name [w] := by
  have hline : Gives (line o.name [w]) o.name [w] := o.gives_line (by simpa using h)
  simpa [line] using hline

theorem Opt.gives_empty (o : Opt) : Gives (o.name ++ [32, 34, 34]) o.name [[]] := by
  refine Opt.gives ?_ (by decide) (by decide) ?_ <;> cases o <;> rfl

/-- A line in the list of an option gives nothing for the other keys, and no line gives several
values for a key that is no option. -/
structure Line.Good (l : Line) : Prop where
  readable : Readable l.text
  only : ∀ y, l.option = some y → ∀ x ≠ y, argsFor x l.text = []
  foreign : ∀ x, (∀ o : Opt, o.name ≠ x) → (argsFor x l.text).length ≤ 1

/-- What the lines that are in no list give for the key `x`, line by line. -/
def fixed (x : Sds) (lines : List Line) : List (List Sds) :=
  lines.flatMap fun l => if l.option = none then block (argsFor x l.text) else []

/-- Behind a line in the list of `x` nothing is given for `x`. -/
def Behind (x : Sds) : List Line → Prop
  | [] => True
  | l :: ls => (l.option = some x → fixed x ls = []) ∧ Behind x ls

theorem fixed_cons (x : Sds) (l : Line) (ls : List Line) :
    fixed x (l :: ls) = (if l.option = none then block (argsFor x l.text) else []) ++ fixed x ls :=
  rfl

theorem fixed_append (x : Sds) (ls ls' : List Line) :
    fixed x (ls ++ ls') = fixed x ls ++ fixed x ls' :=
  flatMap_append

theorem Behind.of_fixed {x : Sds} : ∀ {ls : List Line}, fixed x ls = [] → Behind x ls
  | [], _ => trivial
  | _ :: _, h => ⟨fun _ => (append_eq_nil_iff.mp h).2, .of_fixed (append_eq_nil_iff.mp h).2⟩

theorem Behind.of_no_line {x : Sds} :
    ∀ {ls : List Line}, (∀ l ∈ ls, l.option ≠ some x) → Behind x ls
  | [], _ => trivial
  | l :: _, h => ⟨fun hl => absurd hl (h l mem_cons_self),
      .of_no_line fun l hl => h l (mem_cons_of_mem _ hl)⟩

/-- A step adds lines for `x`, with these values, behind what the lines have given so far. -/
structure Adds (x : Sds) (new : List (List Sds)) (st st' : RewriteState) : Prop where
  good : (∀ l ∈ st.lines, l.Good) → ∀ l ∈ st'.lines, l.Good
  others : ∀ y ≠ x, fixed y st'.lines = fixed y st.lines
  own : Behind x st.lines → fixed x st'.lines = fixed x st.lines ++ new ∧ Behind x st'.lines
  rewritten : st.rewritten ⊆ st'.rewritten

theorem Adds.of_rewritten (x : Sds) (st : RewriteState) {rewritten : List Sds}
    (h : st.rewritten ⊆ rewritten) : Adds x [] st { st with rewritten } where
  good := id
  others _ _ := rfl
  own h := ⟨(append_nil _).symm, h⟩
  rewritten := h

theorem Adds.refl (x : Sds) (st : RewriteState) : Adds x [] st st :=
  .of_rewritten x st (Subset.refl _)

theorem Adds.mark (x : Sds) (st : RewriteState) : Adds x [] st (st.markAsProcessed x) :=
  .of_rewritten x st (subset_cons_self _ _)

theorem Adds.trans {x : Sds} {a b : List (List Sds)} {st st' st'' : RewriteState}
    (h : Adds x a st st') (h' : Adds x b st' st'') : Adds x (a ++ b) st st'' where
  good := h'.good ∘ h.good
  others y hy := (h'.others y hy).trans (h.others y hy)
  own hb := by
    obtain ⟨h1, hb1⟩ := h.own hb
    obtain ⟨h2, hb2⟩ := h'.own hb1
    exact ⟨by rw [h2, h1, append_assoc], hb2⟩
  rewritten := Subset.trans h.rewritten h'.rewritten

variable {text : Sds}

theorem Line.good_of_gives (h : Gives text o.name args) :
    (⟨text, none⟩ : Line).Good where
  readable := h.readable
  only y hy := by cases hy
  foreign x hx := by simp [h.others x (hx o).symm]

variable {x text : Sds}

theorem reuse_spec (ht : Gives text o.name args) :
    ∀ {ls ls' : List Line}, reuse o.name text ls = some ls' →
      ((∀ l ∈ ls, l.Good) → ∀ l ∈ ls', l.Good) ∧
      (∀ y ≠ o.name, fixed y ls' = fixed y ls) ∧
      (Behind o.name ls → fixed o.name ls' = fixed o.name ls ++ block args ∧
        Behind o.name ls') := by
  intro ls
  induction ls with
  | nil => intro ls' h; cases h
  | cons l ls ih =>
    intro ls' h
    rw [reuse] at h
    split_ifs at h with hl
    · obtain rfl := some.inj h
      refine ⟨fun hg => ?_, fun y hy => ?_, fun hb => ⟨?_, ⟨(fun h => nomatch h), hb.2⟩⟩⟩
      · exact forall_mem_cons.mpr ⟨Line.good_of_gives ht, (forall_mem_cons.mp hg).2⟩
      · simp [fixed_cons, hl, ht.others y hy]
      · simp [fixed_cons, hl, ht.own, hb.1 hl]
    · obtain ⟨ls'', hls, rfl⟩ := map_eq_some_iff.mp h
      obtain ⟨hgood, hothers, hown⟩ := ih hls
      refine ⟨fun hg => ?_, fun y hy => ?_, fun hb => ?_⟩
      · obtain ⟨hl, hls⟩ := forall_mem_cons.mp hg
        exact forall_mem_cons.mpr ⟨hl, hgood hls⟩
      · rw [fixed_cons, fixed_cons, hothers y hy]
      · obtain ⟨hf, hb'⟩ := hown hb.2
        exact ⟨by rw [fixed_cons, fixed_cons, hf, append_assoc], ⟨fun h => absurd h hl, hb'⟩⟩

theorem no_line_of_reuse :
    ∀ {ls : List Line}, reuse x text ls = none → ∀ l ∈ ls, l.option ≠ some x := by
  intro ls
  induction ls with
  | nil => exact fun _ l hl => absurd hl not_mem_nil
  | cons l ls ih =>
    intro h
    rw [reuse] at h
    split_ifs at h with hl
    exact forall_mem_cons.mpr ⟨hl, ih (map_eq_none_iff.mp h)⟩

variable {st : RewriteState}

theorem Adds.append (ht : Gives text o.name args) (hno : ∀ l ∈ st.lines, l.option ≠ some o.name) :
    Adds o.name (block args) st (st.appendLine ⟨text, none⟩) where
  good hg := by
    intro l hl
    rcases mem_append.mp hl with hl | hl
    · exact hg l hl
    · rw [mem_singleton.mp hl]
      exact Line.good_of_gives ht
  others y hy := by simp [appendLine, ht.others y hy, fixed]
  own _ := by
    refine ⟨by simp [appendLine, ht.own, fixed], .of_no_line ?_⟩
    simpa [appendLine, or_imp, forall_and] using hno
  rewritten := Subset.refl _

theorem gives_signature (x : Sds) : Gives rewriteSignature x [] :=
  have hargs : ∀ y, argsFor y rewriteSignature = [] := fun _ => if_pos (.inl (.inr rfl))
  ⟨⟨by decide, by decide, by decide, fun h => absurd h (by decide), fun h => absurd (.inr rfl) h⟩,
    hargs x, fun y _ => hargs y⟩

theorem Adds.signature (o : Opt) (hno : ∀ l ∈ st.lines, l.option ≠ some o.name) :
    let st' := if st.hasTail then st
      else { st.appendLine ⟨rewriteSignature, none⟩ with hasTail := true }
    Adds o.name [] st st' ∧ ∀ l ∈ st'.lines, l.option ≠ some o.name := by
  split_ifs
  · exact ⟨.refl _ st, hno⟩
  · obtain ⟨hgood, hothers, hown, hrew⟩ := Adds.append (gives_signature o.name) hno
    refine ⟨⟨hgood, hothers, hown, hrew⟩, ?_⟩
    simpa [appendLine, or_imp, forall_and] using hno

/-- `rewriteConfigRewriteLine` adds its line, but for a default that no line is there for. -/
theorem Adds.rewriteLine (ht : Gives text o.name args) (st : RewriteState) (force : Bool) :
    Adds o.name (block args) st (st.rewriteLine o.name text force) ∨
      force = false ∧ Adds o.name [] st (st.rewriteLine o.name text force) := by
  unfold RewriteState.rewriteLine
  dsimp only
  rcases hr : reuse o.name text (st.markAsProcessed o.name).lines with _ | lines
  · have hno := no_line_of_reuse hr
    rcases force with _ | _
    · exact .inr ⟨rfl, Adds.mark _ st⟩
    · obtain ⟨hsig, hno'⟩ := Adds.signature o hno
      exact .inl (((Adds.mark _ st).trans hsig).trans (Adds.append ht hno'))
  · obtain ⟨hgood, hothers, hown⟩ := reuse_spec ht hr
    exact .inl ⟨hgood, hothers, hown, subset_cons_self _ _⟩

theorem mem_rewriteLine (x text : Sds) (force : Bool) (st : RewriteState) :
    x ∈ (st.rewriteLine x text force).rewritten := by
  unfold RewriteState.rewriteLine
  dsimp only
  rcases reuse x text (st.markAsProcessed x).lines with _ | lines
  · rcases force with _ | _
    · exact mem_cons_self
    · split_ifs <;> exact mem_cons_self
  · exact mem_cons_self

/-- An option can be left out when it has its default; the addresses are always written. -/
def Opt.LeftOut (s d : Server) (o : Opt) : Prop := o ≠ .bind ∧ o.get s = o.get d

/-- The lines that are printed for an option: `commands-need-adminpass` has one for each value. -/
def Opt.printedLines (s : Server) (o : Opt) : List (List Sds) :=
  if o = .commandsNeedAdminpass then (o.printed s).map ([·]) else block (o.printed s)

theorem Opt.flatten_printedLines (s : Server) (o : Opt) :
    (o.printedLines s).flatten = o.printed s := by
  unfold Opt.printedLines
  split_ifs
  · induction o.printed s with
    | nil => rfl
    | cons w ws ih => simpa using ih
  · exact flatten_block _

theorem Opt.firstOnly_printedLines (s : Server) (o : Opt) : FirstOnly (o.printedLines s) := by
  unfold Opt.printedLines block FirstOnly
  split_ifs
  · intro b hb
    obtain ⟨w, -, rfl⟩ := mem_map.mp (mem_of_mem_tail hb)
    exact le_rfl
  · simp
  · simp

/-- What is done for an option: what is printed for it is added, or it is left out. -/
def Writes (s d : Server) (o : Opt) (st st' : RewriteState) : Prop :=
  o.name ∈ st'.rewritten ∧
    ∃ new, Adds o.name new st st' ∧ (new = o.printedLines s ∨ new = [] ∧ o.LeftOut s d)

variable {s d : Server}

theorem writes_rewriteLine {force : Bool} (ho : o ≠ .commandsNeedAdminpass)
    (ht : Gives text o.name (o.printed s)) (hf : force = false → o.LeftOut s d)
    (st : RewriteState) : Writes s d o st (st.rewriteLine o.name text force) := by
  have hlines : o.printedLines s = block (o.printed s) := if_neg ho
  rw [Writes, hlines]
  refine ⟨mem_rewriteLine _ _ _ _, ?_⟩
  rcases Adds.rewriteLine ht st force with h | ⟨hforce, h⟩
  · exact ⟨_, h, .inl rfl⟩
  · exact ⟨_, h, .inr ⟨rfl, hf hforce⟩⟩

theorem writes_word {α : Type} [DecidableEq α] {w : Sds} {v v' : α}
    (hw : Plain w) (hp : o.printed s = [w]) (hone : o ≠ .commandsNeedAdminpass) (ho : o ≠ .bind)
    (hv : v = v' → o.get s = o.get d) (st : RewriteState) :
    Writes s d o st (st.rewriteLine o.name (o.name ++ 32 :: w) (v ≠ v')) := by
  refine writes_rewriteLine hone ?_ (fun hf => ⟨ho, hv (by simpa using hf)⟩) st
  rw [hp]
  exact o.gives_word hw

theorem plain_formatMemory (v : ℤ) : Plain (formatMemory v) := by
  unfold formatMemory
  split_ifs
  iterate 3 exact plain_ll2string_append _ (all_eq_true.mp rfl)
  exact plain_ll2string v

theorem EvictPolicy.plain_name (p : EvictPolicy) : Plain p.name := by cases p <;> decide +kernel

variable {j : ℕ}

theorem writes_sds {p : Option Sds} (hget : o.get s = .sds p)
    (hw : (o.get s).Writable j) (hone : o ≠ .commandsNeedAdminpass) (ho : o ≠ .bind)
    (hd : o.get d = .sds none) (st : RewriteState) :
    Writes s d o st (st.sdsOption o p) := by
  have hp : o.printed s = [p.getD []] := by simp only [Opt.printed, hget]
  rw [hget] at hw
  rcases p with _ | p
  · refine writes_rewriteLine hone ?_ (fun _ => ⟨ho, hget.trans hd.symm⟩) st
    rw [hp]
    exact o.gives_empty
  · have hplain : Plain p := hw
    refine writes_rewriteLine hone ?_ (by simp) st
    rw [hp, hplain.cstr_eq]
    exact o.gives_word hplain

theorem writes_bind {l : List Sds} (hget : o.get s = .arraysds l)
    (hone : o ≠ .commandsNeedAdminpass) (hne : l ≠ []) (hw : (o.get s).Writable j)
    (st : RewriteState) :
    Writes s d o st (st.bindOption o l) := by
  rw [hget] at hw
  rw [bindOption, if_neg hne]
  refine writes_rewriteLine hone ?_ (by simp) st
  simp only [Opt.printed, hget]
  exact o.gives_line fun t ht => hw.1 t (mem_reverse.mp ht)

theorem writes_commandsNAP {l : List Sds} (ho : o = .commandsNeedAdminpass)
    (hget : o.get s = .arraysds l) (hw : (o.get s).Writable j) (st : RewriteState) :
    Writes s d o st (st.commandsNAPOption o l) := by
  rw [hget] at hw
  have hfold : ∀ (ws : List Sds), (∀ w ∈ ws, Plain w) → ∀ st, Adds o.name (ws.map ([·])) st
      (ws.foldl (fun st v => st.rewriteLine o.name (o.name ++ 32 :: cstr v) true) st) := by
    intro ws
    induction ws with
    | nil => exact fun _ st => Adds.refl _ st
    | cons w ws ih =>
      intro hws st
      obtain ⟨hplain, hws⟩ := forall_mem_cons.mp hws
      have hline : Gives (o.name ++ 32 :: cstr w) o.name [w] := by
        rw [hplain.cstr_eq]
        exact o.gives_word hplain
      rcases Adds.rewriteLine hline st true with h | ⟨h, -⟩
      · exact h.trans (ih hws _)
      · cases h
  refine ⟨mem_cons_self, _, ?_, .inl rfl⟩
  rw [Opt.printedLines, if_pos ho]
  simp only [Opt.printed, hget]
  have := (hfold l.reverse (fun t ht => hw.1 t (mem_reverse.mp ht)) st).trans (Adds.mark o.name _)
  rwa [append_nil] at this

variable {cpus : ℤ} {s : Server}

theorem writes_rewriteOption (hs : s.Sane)
    (hw : ∀ o : Opt, (o.get s).Writable j) (o : Opt) (st : RewriteState) :
    Writes s (.default cpus) o st (rewriteOption s (.default cpus) st o) := by
  have ha := hs o
  have hwo := hw o
  cases o
  case databases | internalDbsPerDatabases | maxmemorySamples | port | threads | maxclients |
      slowlogMaxLen =>
    exact writes_word (plain_ll2string _) rfl (by decide) (by decide) (congrArg FieldVal.int) st
  case maxTimeComplexityLimit | slowlogLogSlowerThan =>
    exact writes_word (plain_ll2string _) rfl (by decide) (by decide)
      (congrArg FieldVal.longlong) st
  case maxmemory =>
    exact writes_word (plain_formatMemory _) rfl (by decide) (by decide)
      (congrArg FieldVal.longlong) st
  case maxmemoryPolicy =>
    exact writes_word (EvictPolicy.plain_name _) rfl (by decide) (by decide)
      (congrArg FieldVal.policy) st
  case requirepass | adminpass => exact writes_sds rfl hwo (by decide) (by decide) rfl st
  case bind => exact writes_bind rfl (by decide) (ha rfl) hwo st
  case commandsNeedAdminpass => exact writes_commandsNAP rfl rfl hwo st

/-- What the lines mean for the options that have been gone through. -/
structure Written (s d : Server) (os : List Opt) (st : RewriteState) : Prop where
  good : ∀ l ∈ st.lines, l.Good
  done : ∀ o ∉ os, o.name ∈ st.rewritten ∧
    (fixed o.name st.lines = o.printedLines s ∨ fixed o.name st.lines = [] ∧ o.LeftOut s d)
  left : ∀ o ∈ os, fixed o.name st.lines = []

theorem Written.step {os : List Opt} {st st' : RewriteState}
    (h : Written s d (o :: os) st) (hw : Writes s d o st st') (ho : o ∉ os) :
    Written s d os st' := by
  obtain ⟨hmark, new, ha, hnew⟩ := hw
  have hnil := h.left o mem_cons_self
  have hown : fixed o.name st'.lines = new := by
    rw [(ha.own (.of_fixed hnil)).1, hnil, nil_append]
  have hothers : ∀ o' ≠ o, fixed o'.name st'.lines = fixed o'.name st.lines :=
    fun o' ho' => ha.others _ fun heq => ho' (Opt.name_inj heq)
  refine ⟨ha.good h.good, fun o' ho' => ?_, fun o' ho' => ?_⟩
  · by_cases heq : o' = o
    · subst heq
      rw [hown]
      exact ⟨hmark, hnew⟩
    · rw [hothers o' heq]
      obtain ⟨hmem, hdone⟩ := h.done o' (by simp [heq, ho'])
      exact ⟨ha.rewritten hmem, hdone⟩
  · have hne : o' ≠ o := by
      rintro rfl
      exact ho ho'
    rw [hothers o' hne]
    exact h.left o' (mem_cons_of_mem _ ho')

theorem Written.run (hs : s.Sane) (hw : ∀ o : Opt, (o.get s).Writable j) :
    ∀ {os : List Opt}, os.Nodup → ∀ {st : RewriteState}, Written s (.default cpus) os st →
      Written s (.default cpus) [] (os.foldl (rewriteOption s (.default cpus)) st) := by
  intro os
  induction os with
  | nil => exact fun _ _ h => h
  | cons o os ih =>
    intro hnd st h
    obtain ⟨ho, hnd⟩ := nodup_cons.mp hnd
    exact ih hnd (h.step (writes_rewriteOption hs hw o st) ho)

/-- The lines of a file, as CONFIG REWRITE reads them, open no organization but the server's. -/
def OneOrganization (file : Sds) : Prop :=
  ∀ p ∈ readPieces file, IsHeader (sdstrim p) →
    2 < (sdstrim p).length ∧ (sdstrim p).getLast? ≠ some 93 ∧ (sdstrim p).tail.dropLast = serverName

instance (file : Sds) : Decidable (OneOrganization file) :=
  inferInstanceAs (Decidable (∀ p ∈ readPieces file, _ → _ ∧ _ ∧ _))

/-- A key that is no option has at most one value on a line of the file. -/
def ForeignSingle (file : Sds) : Prop :=
  ∀ p ∈ readPieces file, ∀ x, (∀ o : Opt, o.name ≠ x) → (argsFor x (sdstrim p)).length ≤ 1

/-- The lines of the old file are good, and all that give something are in a list. -/
def Old (st : RewriteState) : Prop := (∀ l ∈ st.lines, l.Good) ∧ ∀ x, fixed x st.lines = []

theorem Old.append (h : Old st) {l : Line} (hl : l.Good)
    (hx : l.option = none → ∀ x, argsFor x l.text = []) : Old (st.appendLine l) := by
  refine ⟨fun l' hl' => ?_, fun x => ?_⟩
  · rcases mem_append.mp hl' with hl' | hl'
    · exact h.1 l' hl'
    · rw [mem_singleton.mp hl']
      exact hl
  · rw [appendLine, fixed_append, h.2 x, fixed_cons]
    split_ifs with hn
    · rw [hx hn x]
      rfl
    · rfl

theorem argsFor_of_skipped (h : Skipped text) (x : Sds) : argsFor x text = [] :=
  if_pos (.inl h)

theorem readable_comment {p : Sds} (hskip : ¬ Skipped (sdstrim p)) (hnl : 10 ∉ sdstrim p)
    (hz : 0 ∉ sdstrim p) : Readable (ascii "# ??? ".toList ++ sdstrim p) where
  trimmed := by
    refine sdstrim_eq_self (fun b hb => ?_) fun b hb => ?_
    · obtain rfl : (35 : UInt8) = b := some.inj hb
      decide
    · rw [getLast?_append_of_ne_nil _ fun h => hskip (.inl h)] at hb
      exact sdstrim_last b hb
  newline := by
    rw [mem_append, not_or]
    exact ⟨by decide, hnl⟩
  zero := by
    rw [mem_append, not_or]
    exact ⟨by decide, hz⟩
  header h := absurd h (by simp [IsHeader, ascii])
  balanced h := absurd (.inr rfl) h

variable {file : Sds}

theorem Old.read {p : Sds} (hp : p ∈ readPieces file) (hone : OneOrganization file)
    (hfor : ForeignSingle file) {st st' : RewriteState} (h : Old st)
    (hr : readOldLine st p = some st') : Old st' := by
  obtain ⟨hnl, hz⟩ := not_mem_readPieces hp
  have htrim := sdstrim_sdstrim p
  unfold readOldLine at hr
  by_cases hskip : Skipped (sdstrim p)
  · have hskip' : sdstrim p = [] ∨ (sdstrim p).head? = some 35 := hskip
    rw [if_pos hskip'] at hr
    obtain rfl := some.inj hr
    have hgood : (⟨sdstrim p, none⟩ : Line).Good :=
      ⟨⟨htrim, hnl, hz, hone p hp, fun hn => absurd hskip hn⟩, (fun y hy => nomatch hy), hfor p hp⟩
    exact h.append hgood fun _ => argsFor_of_skipped hskip
  · have hskip' : ¬ (sdstrim p = [] ∨ (sdstrim p).head? = some 35) := hskip
    rw [if_neg hskip'] at hr
    rcases hargs : sdssplitargs (sdstrim p) with _ | _ | ⟨k, args⟩ <;> simp only [hargs] at hr
    · -- a line that cannot be split becomes a comment
      obtain rfl := some.inj hr
      have hnone : ∀ x, argsFor x (ascii "# ??? ".toList ++ sdstrim p) = [] :=
        argsFor_of_skipped (.inr rfl)
      exact h.append ⟨readable_comment hskip hnl hz, (fun y hy => nomatch hy), fun x _ => by
        rw [hnone x]
        exact Nat.zero_le 1⟩ fun _ => hnone
    · cases hr
    · obtain rfl := some.inj hr
      refine h.append ⟨⟨htrim, hnl, hz, hone p hp, fun _ _ => by simp [hargs]⟩, ?_, hfor p hp⟩
        fun hn => nomatch hn
      intro y hy x hx
      obtain rfl := some.inj hy
      unfold argsFor
      split_ifs
      · rfl
      · simp [hargs, Ne.symm hx]

theorem Old.readFile (hone : OneOrganization file) (hfor : ForeignSingle file)
    (hr : readOldFile file = some st) : Old st := by
  have hloop : ∀ (ps : List Sds), ps ⊆ readPieces file → ∀ st st' : RewriteState, Old st →
      ps.foldlM readOldLine st = some st' → Old st' := by
    intro ps
    induction ps with
    | nil =>
      rintro - st st' h ⟨⟩
      exact h
    | cons p ps ih =>
      intro hps st st' h hr
      obtain ⟨st1, h1, h2⟩ := bind_eq_some_iff.mp hr
      obtain ⟨hp, hps⟩ := cons_subset.mp hps
      exact ih hps st1 st' (h.read hp hone hfor h1) h2
  exact hloop _ (Subset.refl _) _ st ⟨by simp, fun _ => rfl⟩ hr

theorem Written.orphans (h : Written s d [] st) :
    (∀ t ∈ st.removeOrphaned, Readable t) ∧
      ∀ o : Opt, blocks o.name st.removeOrphaned = fixed o.name st.lines := by
  constructor
  · intro t ht
    obtain ⟨l, hl, rfl⟩ := mem_map.mp ht
    split_ifs
    · exact readable_nil
    · exact (h.good l hl).readable
  · intro o
    rw [blocks, removeOrphaned, flatMap_map, fixed]
    refine flatMap_congr fun l hl => ?_
    rcases hopt : l.option with _ | y
    · simp
    · by_cases hy : o.name = y
      · subst hy
        simp [(h.done o not_mem_nil).1, argsFor_nil]
      · simp only [any_some, reduceCtorEq, if_false]
        split_ifs
        · rw [argsFor_nil, block_nil]
        · rw [(h.good l hl).only y hopt _ hy, block_nil]

theorem Written.firstOnly (h : Written s d [] st) (x : Sds) :
    FirstOnly (blocks x st.removeOrphaned) := by
  by_cases hx : ∃ o : Opt, o.name = x
  · obtain ⟨o, rfl⟩ := hx
    rw [h.orphans.2 o]
    rcases (h.done o not_mem_nil).2 with h | ⟨h, -⟩ <;> rw [h]
    · exact o.firstOnly_printedLines s
    · exact fun b hb => absurd hb not_mem_nil
  · -- what is left of the lines of other keys stands there as in the old file
    intro b hb
    obtain ⟨t, ht, hb⟩ := mem_flatMap.mp (mem_of_mem_tail hb)
    obtain ⟨l, hl, rfl⟩ := mem_map.mp ht
    have hlen := (h.good l hl).foreign x fun o ho => hx ⟨o, ho⟩
    unfold block at hb
    split_ifs at hb <;> simp_all [argsFor_nil]

theorem confCreate_rewriteConfig {file' : Sds} (hs : s.Sane)
    (hone : OneOrganization file) (hfor : ForeignSingle file) (hw : ∀ o : Opt, (o.get s).Writable j)
    (h : rewriteConfig cpus s file = some file') : confCreate j cpus file' = some s := by
  obtain ⟨st, hst, rfl⟩ := map_eq_some_iff.mp h
  obtain ⟨hgood, hfixed⟩ := Old.readFile hone hfor hst
  have hwritten :
      Written s (.default cpus) [] (order.foldl (rewriteOption s (.default cpus)) st) := by
    refine Written.run hs hw (by decide) ⟨hgood, fun o ho => ?_, fun o _ => hfixed o.name⟩
    exact absurd (by cases o <;> decide) ho
  obtain ⟨hread, hblocks⟩ := hwritten.orphans
  have hargs : ∀ o : Opt, let args :=
      (order.foldl (rewriteOption s (.default cpus)) st).removeOrphaned.flatMap (argsFor o.name)
      args = o.printed s ∨ args = [] ∧ o.LeftOut s (.default cpus) := fun o => by
    dsimp only
    rw [← flatten_blocks, hblocks o]
    rcases (hwritten.done o not_mem_nil).2 with h | ⟨h, hd⟩ <;> rw [h]
    · exact .inl (o.flatten_printedLines s)
    · exact .inr ⟨rfl, hd⟩
  rw [overwriteFile_eq file (not_mem_content (by decide) (fun t ht => (hread t ht).zero) _)]
  obtain ⟨p, hp, hl⟩ := confPreLoad_content hread hwritten.firstOnly
  -- the addresses are always written, so the organization of the server is there
  have hbind : flatMap (argsFor Opt.bind.name)
      (order.foldl (rewriteOption s (.default cpus)) st).removeOrphaned ≠ [] := by
    rcases hargs .bind with h | ⟨-, h, -⟩
    · rw [h]
      exact fun hnil => hs .bind rfl (reverse_eq_nil_iff.mp hnil)
    · exact absurd rfl h
  obtain ⟨-, hnil⟩ | ⟨org, horg, hm⟩ := hl.means
  · exact absurd (hnil _) hbind
  obtain ⟨c, hc, hcs⟩ := confParseConfServer_printed hm hs hw
    (fun o => (hargs o).imp_right fun h => ⟨h.1, h.2.2⟩) 0
  simp [confCreate, hp, horg, hc, hcs]

/-- The configurations, with the file, that are reached on a machine with `cpus` processors by
loading a file, by successful CONFIG SETs and by successful CONFIG REWRITEs. -/
inductive Reached (cpus : ℕ) : VrConf → Sds → Prop
  | load {j : ℕ} {file : Sds} {s : Server} (version : ℕ) (h : confCreate j cpus file = some s) :
    Reached cpus ⟨s, version⟩ file
  | set {os : Os} {j : ℕ} {admin : Option Sds} {authenticated : ℕ} {name value : Sds} {c : VrConf}
    {file : Sds} (h : Reached cpus c file)
    (hok : (configSet os j admin authenticated name value c).2 = .ok) :
    Reached cpus (configSet os j admin authenticated name value c).1 file
  | rewrite {c : VrConf} {file file' : Sds} (h : Reached cpus c file)
    (hok : rewriteConfig cpus c.server file = some file') : Reached cpus c file'

theorem Reached.sane {cpus : ℕ} {c : VrConf} (h : Reached cpus c file) :
    c.server.Sane := by
  induction h with
  | load version h => exact sane_of_confCreate h
  | set h hok ih => exact ih.configSet hok
  | rewrite h hok ih => exact ih

/-- A configuration that has been written is loaded again, if the file has no organization but the
server's, a key that is no option has one value on a line, and the passwords and lists are
writable. -/
theorem confCreate_rewritten {cpus j : ℕ} {c : VrConf} {file' : Sds} (hr : Reached cpus c file)
    (hone : OneOrganization file) (hfor : ForeignSingle file)
    (hw : ∀ o : Opt, (o.get c.server).Writable j)
    (h : rewriteConfig cpus c.server file = some file') :
    confCreate j cpus file' = some c.server :=
  confCreate_rewriteConfig hr.sane hone hfor hw h

theorem confCreate_rewritten_password :
    let file := ascii "port 7\nname a\n# x\nname b\n".toList
    ∃ c file', Reached 4 c file ∧ c.server.requirepass = some (ascii "abc".toList) ∧
      rewriteConfig 4 c.server file = some file' ∧ confCreate 0 4 file' = some c.server := by
  intro file
  have hload : confCreate 0 4 file = some { Server.default 4 with port := 7 } := by decide +kernel
  have hset : Reached 4 (configSet ⟨none, fun _ => true⟩ 0 none 0 (Opt.name .requirepass)
      (ascii "abc".toList) ⟨{ Server.default 4 with port := 7 }, 0⟩).1 file :=
    .set (.load 0 hload) (by decide +kernel)
  have hsingle : ∀ p ∈ readPieces file, ((sdssplitargs (sdstrim p)).getD []).length - 1 ≤ 1 := by
    decide +kernel
  refine ⟨_, _, hset, rfl, rfl, ?_⟩
  exact confCreate_rewritten hset (by decide +kernel)
    (fun p hp x _ => (length_argsFor_le x _).trans (hsingle p hp))
    (fun o => by cases o <;> decide +kernel) rfl

theorem bind_reversed :
    ∃ c file', Reached 4 c (ascii "bind 10.0.0.1 10.0.0.2\n".toList) ∧
      rewriteConfig 4 c.server (ascii "bind 10.0.0.1 10.0.0.2\n".toList) = some file' ∧
      c.server.binds = [ascii "10.0.0.1".toList, ascii "10.0.0.2".toList] ∧
      (confCreate 0 4 file').map (·.binds) =
        some [ascii "10.0.0.2".toList, ascii "10.0.0.1".toList] := by
  have hload : confCreate 0 4 (ascii "bind 10.0.0.1 10.0.0.2\n".toList) =
    some { Server.default 4 with
      binds := [ascii "10.0.0.1".toList, ascii "10.0.0.2".toList] } := by decide +kernel
  exact ⟨_, _, .load 0 hload, rfl, rfl, by decide +kernel⟩

/-! A password with a quote makes a file that is not loaded; below the header of another
organization a line of the server is reused all the same; a second line with two values for a key,
which is kept, has no answer. -/

example : (rewriteConfig 4 { Server.default 4 with requirepass := some (ascii "a\"b".toList) }
    (ascii "port 7\n".toList)).bind (confCreate 0 4) = none := by decide +kernel

example : ((rewriteConfig 4 { Server.default 4 with port := 7 }
    (ascii "bind 10.0.0.1\n[otherX\nport 8\n".toList)).bind (confCreate 0 4)).map (·.port) =
      some 55555 := by decide +kernel

example : (rewriteConfig 4 { Server.default 4 with port := 7 }
    (ascii "name a\nname b c\n".toList)).bind (confCreate 0 4) = none := by decide +kernel

end Vire.Conf
