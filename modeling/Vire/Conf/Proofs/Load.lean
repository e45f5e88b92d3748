import Vire.Conf.Proofs.Tokens

/-!
# What a file means

The loader collects the arguments that the lines of a file give for each key, `argsFor`.  So a file
whose lines are readable means for each key the arguments of its lines one after the other, if only
the first line of a key has several of them.
-/

namespace Vire.Conf

open List

def Skipped (text : Sds) : Prop := text = [] ∨ text.head? = some 35

instance (text : Sds) : Decidable (Skipped text) := inferInstanceAs (Decidable (_ ∨ _))

def IsHeader (text : Sds) : Prop := text.head? = some 91

instance (text : Sds) : Decidable (IsHeader text) := inferInstanceAs (Decidable (_ = _))

/-- The values that a line gives for the key `x`. -/
def argsFor (x text : Sds) : List Sds :=
  if Skipped text ∨ IsHeader text then []
  else
    match sdssplitargs text with
    | some (k :: args) => if k.map tolower = x then args else []
    | _ => []

/-- A trimmed line that the loader accepts and that does not leave the organization of the
server. -/
structure Readable (text : Sds) : Prop where
  trimmed : sdstrim text = text
  newline : 10 ∉ text
  zero : 0 ∉ text
  header : IsHeader text →
    2 < text.length ∧ text.getLast? ≠ some 93 ∧ text.tail.dropLast = serverName
  balanced : ¬ Skipped text → ¬ IsHeader text → sdssplitargs text ≠ none

theorem readable_nil : Readable [] where
  trimmed := rfl
  newline := by simp
  zero := by simp
  header h := by cases h
  balanced h := absurd (.inl rfl) h

theorem argsFor_nil (x : Sds) : argsFor x [] = [] := if_pos (.inl (.inl rfl))

theorem length_argsFor_le (x text : Sds) :
    (argsFor x text).length ≤ ((sdssplitargs text).getD []).length - 1 := by
  unfold argsFor
  split_ifs
  · exact Nat.zero_le _
  · rcases sdssplitargs text with _ | _ | ⟨k, args⟩
    · exact Nat.zero_le _
    · exact Nat.zero_le _
    · dsimp only
      split_ifs <;> simp

/-- The values of a line as a list of lines, which leaves out a line without one. -/
def block (args : List Sds) : List (List Sds) := if args = [] then [] else [args]

@[simp]
theorem block_nil : block [] = [] := rfl

theorem block_of_ne {args : List Sds} (h : args ≠ []) : block args = [args] := if_neg h

@[simp]
theorem flatten_block (args : List Sds) : (block args).flatten = args := by
  unfold block
  split_ifs with h <;> simp [h]

/-- The values for the key `x`, line by line. -/
def blocks (x : Sds) (texts : List Sds) :
    List (List Sds) := texts.flatMap fun t => block (argsFor x t)

theorem flatten_blocks (x : Sds) (texts : List Sds) :
    (blocks x texts).flatten = texts.flatMap (argsFor x) := by
  induction texts with
  | nil => rfl
  | cons t texts ih => simp_all [blocks]

/-- Only the first line has several values. -/
def FirstOnly (ls : List (List Sds)) : Prop := ∀ b ∈ ls.tail, b.length ≤ 1

theorem FirstOnly.head_or {args args' : List Sds} {ls : List (List Sds)}
    (h : FirstOnly (block args ++ (block args' ++ ls))) : args = [] ∨ args'.length ≤ 1 := by
  by_cases h1 : args = []
  · exact .inl h1
  · by_cases h2 : args' = []
    · exact .inr (by simp [h2])
    · rw [block_of_ne h1, block_of_ne h2] at h
      exact .inr (h args' (by simp))

theorem FirstOnly.merge {args args' : List Sds} {ls : List (List Sds)}
    (h : FirstOnly (block args ++ (block args' ++ ls))) :
    FirstOnly (block (args ++ args') ++ ls) := by
  by_cases h1 : args = []
  · simpa [h1] using h
  · rw [block_of_ne h1] at h
    rw [block_of_ne (by simp [h1])]
    exact fun b (hb : b ∈ ls) => h b (mem_append_right (block args') hb)

/-- The value of a key for which arguments were given. -/
def Value.ofArgs : List Sds → Option Value
  | [] => none
  | [s] => some (.string s)
  | l => some (.array l)

theorem Value.ofArgs_eq_none {l : List Sds} : Value.ofArgs l = none ↔ l = [] := by
  rcases l with _ | ⟨a, _ | ⟨b, l⟩⟩ <;> simp [Value.ofArgs]

theorem Value.ofArgs_concat (l : List Sds) (v : Sds) :
    Value.ofArgs (l ++ [v]) = some (((Value.ofArgs l).map (·.append v)).getD (.string v)) := by
  rcases l with _ | ⟨a, _ | ⟨b, l⟩⟩ <;> rfl

theorem lookup_cons_eq (k : Sds) (v : Value) (org : Org) (x : Sds) :
    lookup x ((k, v) :: org) = if x = k then some v else lookup x org := by
  rw [lookup_cons]
  by_cases hx : x = k
  · simp [hx]
  · rw [beq_false_of_ne hx, if_neg hx]

theorem lookup_confKeyValueInsert (key v x : Sds) (org : Org) :
    (confKeyValueInsert key v org).lookup x =
      if x = key then some (((org.lookup key).map (·.append v)).getD (.string v))
      else org.lookup x := by
  induction org with
  | nil => rw [confKeyValueInsert, lookup_cons_eq]; rfl
  | cons e org ih =>
    obtain ⟨k, w⟩ := e
    rw [confKeyValueInsert, lookup_cons_eq, lookup_cons_eq]
    by_cases hk : k = key
    · subst hk
      rw [if_pos rfl, lookup_cons_eq, if_pos rfl]
      split_ifs <;> rfl
    · rw [if_neg hk, lookup_cons_eq, ih, if_neg (Ne.symm hk)]
      by_cases hx : x = key
      · rw [if_pos hx, if_pos hx, if_neg (by rw [hx]; exact Ne.symm hk)]
      · rw [if_neg hx, if_neg hx]

/-- The keys of an organization, with the arguments `f` gives for them. -/
def Org.Means (org : Org) (f : Sds → List Sds) : Prop := ∀ x, org.lookup x = Value.ofArgs (f x)

variable {f : Sds → List Sds}

theorem Org.Means.insert_all {org : Org} (h : org.Means f) (key : Sds) (args : List Sds) :
    (args.foldl (fun org v => confKeyValueInsert key v org) org : Org).Means
      fun x => f x ++ if key = x then args else [] := by
  induction args generalizing org f with
  | nil => simpa using h
  | cons v args ih =>
    have hv : (confKeyValueInsert key v org : Org).Means fun x => f x ++ if key =
        x then [v] else [] := by
      intro x
      rw [lookup_confKeyValueInsert, h key]
      by_cases hx : x = key
      · subst hx
        simp [Value.ofArgs_concat]
      · simp [hx, Ne.symm hx, h x]
    refine fun x => (ih hv x).trans ?_
    by_cases hx : key = x <;> simp [hx]

/-- What the lines read so far mean.  Nothing is there before the first of them. -/
structure Loaded (p : PreConf) (f : Sds → List Sds) : Prop where
  org : p.org = none ∨ p.org = some serverName
  means : (p.organizations = [] ∧ ∀ x, f x = []) ∨
    ∃ org : Org, p.organizations = [(serverName, org)] ∧ org.Means f

theorem Loaded.start : Loaded ⟨[], none⟩ fun _ => [] := ⟨.inl rfl, .inl ⟨rfl, fun _ => rfl⟩⟩

variable {p : PreConf}

theorem Loaded.update {g : Sds → List Sds} (h : Loaded p f) {change : Org → Org}
    (hc : ∀ org : Org, org.Means f → (change org).Means g) :
    Loaded ⟨PreConf.update serverName change p.organizations, some serverName⟩ g := by
  refine ⟨.inr rfl, .inr ?_⟩
  obtain ⟨hnil, hf⟩ | ⟨org, horg, hm⟩ := h.means
  · refine ⟨change [], by simp [hnil, PreConf.update], hc [] fun x => ?_⟩
    rw [hf x]
    rfl
  · exact ⟨change org, by simp [horg, PreConf.update], hc org hm⟩

theorem Loaded.lookup (h : Loaded p f) (x : Sds) :
    (p.organizations.lookup serverName).bind (·.lookup x) = Value.ofArgs (f x) := by
  obtain ⟨hnil, hf⟩ | ⟨org, horg, hm⟩ := h.means
  · rw [hnil, hf x]
    rfl
  · rw [horg, lookup_cons_self]
    exact hm x

theorem Loaded.line (h : Loaded p f) {text : Sds}
    (ht : Readable text) (hfirst : ∀ x, f x = [] ∨ (argsFor x text).length ≤ 1) :
    ∃ p', confPreLoadLine p text = some p' ∧ Loaded p' fun x => f x ++ argsFor x text := by
  unfold confPreLoadLine
  unfold argsFor at hfirst ⊢
  rw [ht.trimmed]
  by_cases hskip : Skipped text
  · exact ⟨p, if_pos hskip, by simpa [hskip] using h⟩
  have hskip' : ¬ (text = [] ∨ text.head? = some 35) := hskip
  rw [if_neg hskip']
  by_cases hhead : IsHeader text
  · obtain ⟨hlen, hlast, hname⟩ := ht.header hhead
    have hhead' : text.head? = some 91 := hhead
    rw [if_pos hhead', if_neg (by rw [not_or]; exact ⟨by omega, hlast⟩), hname]
    exact ⟨_, rfl, h.update fun org hm => by simpa [hhead] using hm⟩
  · have hhead' : text.head? ≠ some 91 := hhead
    rw [if_neg hhead']
    simp only [hskip, hhead, or_self, if_false] at hfirst ⊢
    have hname : p.org.getD serverName = serverName := by
      rcases h.org with h | h <;> rw [h] <;> rfl
    rcases hargs : sdssplitargs text with _ | _ | ⟨k, args⟩
    · exact absurd hargs (ht.balanced hskip hhead)
    · exact ⟨p, rfl, by simpa using h⟩
    · have hfree : ¬ (1 < args.length ∧
          ((p.organizations.lookup serverName).bind (·.lookup (k.map tolower))).isSome) := by
        rw [h.lookup]
        rintro ⟨hlen, hsome⟩
        rcases hfirst (k.map tolower) with hf | hle
        · simp [hf, Value.ofArgs] at hsome
        · simp [hargs] at hle
          omega
      dsimp only
      rw [hname, if_neg hfree]
      exact ⟨_, rfl, h.update fun org hm => hm.insert_all _ args⟩

theorem Loaded.lines {texts : List Sds} (ht : ∀ t ∈ texts, Readable t) :
    ∀ {p : PreConf} {f : Sds → List Sds}, Loaded p f →
      (∀ x, FirstOnly (block (f x) ++ blocks x texts)) →
        ∃ p', texts.foldlM confPreLoadLine p = some p' ∧
        Loaded p' fun x => f x ++ texts.flatMap (argsFor x) := by
  induction texts with
  | nil => exact fun {p f} h _ => ⟨p, rfl, by simpa using h⟩
  | cons t texts ih =>
    intro p f h hfirst
    obtain ⟨p1, h1, hl1⟩ := h.line (ht t mem_cons_self) fun x => (hfirst x).head_or
    obtain ⟨p2, h2, hl2⟩ := ih (fun t ht' => ht t (mem_cons_of_mem _ ht')) hl1 fun x =>
      (hfirst x).merge
    refine ⟨p2, ?_, by simpa using hl2⟩
    rw [foldlM_cons, h1]
    exact h2

open RewriteState (content)

theorem confPreLoadLine_nil (p : PreConf) : confPreLoadLine p [] = some p := rfl

theorem not_mem_content {b : UInt8} (hb : b ≠ 10) {ls : List Sds} (h : ∀ l ∈ ls, b ∉ l) :
    ∀ w, b ∉ content w ls := by
  induction ls with
  | nil => simp [content]
  | cons l ls ih =>
    intro w
    have hl := h l mem_cons_self
    have ih := ih fun l hl => h l (mem_cons_of_mem _ hl)
    rw [content]
    split_ifs <;> simp [hb, hl, ih]

theorem foldlM_splitOn_content {ls : List Sds} (h : ∀ l ∈ ls, 10 ∉ l) :
    ∀ w p, ((content w ls).splitOn 10).foldlM confPreLoadLine p = ls.foldlM confPreLoadLine p := by
  induction ls with
  | nil => intro w p; rfl
  | cons l ls ih =>
    intro w p
    have ih := ih fun l hl => h l (mem_cons_of_mem _ hl)
    rw [content]
    split_ifs with hl hw
    · subst hl
      rw [ih, foldlM_cons, confPreLoadLine_nil]
      rfl
    · subst hl
      rw [← nil_append (10 :: _), splitOn_append_cons_self_of_not_mem (by simp),
        foldlM_cons, foldlM_cons]
      exact congrArg _ (funext fun p => ih true p)
    · rw [splitOn_append_cons_self_of_not_mem (h l mem_cons_self), foldlM_cons,
        foldlM_cons]
      exact congrArg _ (funext fun p => ih false p)

theorem confPreLoad_content {texts : List Sds} (ht : ∀ t ∈ texts, Readable t)
    (hfirst : ∀ x, FirstOnly (blocks x texts)) :
    ∃ p, confPreLoad (content false texts) = some p ∧
      Loaded p fun x => texts.flatMap (argsFor x) := by
  obtain ⟨p, hp, hl⟩ := Loaded.start.lines ht hfirst
  refine ⟨p, ?_, by simpa using hl⟩
  rw [confPreLoad, readPieces_flatten (not_mem_content (by decide) (fun t h => (ht t h).zero) _),
    splitLines]
  have hfold := foldlM_splitOn_content (fun t h => (ht t h).newline) false ⟨[], none⟩
  split_ifs with hnil
  · rw [hnil] at hfold
    exact hfold.trans hp
  · exact hfold.trans hp

theorem overwriteFile_eq (old : Sds) {content : Sds} (h : 0 ∉ content) :
    overwriteFile old content = content := by
  unfold overwriteFile
  split_ifs with hlt
  · have hpad :
        0 ∉ content ++ 10 :: replicate (old.length - content.length - 1) (35 : UInt8) := by
      simp [h]
    simp only [cstr_eq_self hpad]
    simp
  · rw [cstr_eq_self h, drop_eq_nil_of_le (by omega), append_nil]

end Vire.Conf
