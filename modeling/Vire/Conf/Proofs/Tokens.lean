import Vire.Conf.File
import Vire.Decimal

/-!
# Lines that read back

A token without blanks and quotes stands for itself, so a line that is put together from such tokens
is split into them again.  A file without zero bytes is read as it is, however long its lines are.
-/

namespace Vire.Conf

open List Option

def plainByte (b : UInt8) : Bool :=
  b ≠ 0 && b ≠ 9 && b ≠ 10 && b ≠ 13 && b ≠ 32 && b ≠ 34 && b ≠ 39

/-- A token that stands for itself.  A vertical tab or a form feed is skipped in front of a
token. -/
def Plain (t : Sds) : Prop :=
  t ≠ [] ∧ (∀ b ∈ t, plainByte b = true) ∧ ∀ b ∈ t.head?, isspace b = false

instance (t : Sds) : Decidable (Plain t) :=
  decidable_of_iff (t ≠ [] ∧ t.all plainByte = true ∧ t.head?.all (!isspace ·) = true) (by
    unfold Plain
    cases t <;> simp)

variable {b : UInt8}

theorem plainByte_iff : plainByte b = true ↔
    b ≠ 0 ∧ b ≠ 9 ∧ b ≠ 10 ∧ b ≠ 13 ∧ b ≠ 32 ∧ b ≠ 34 ∧ b ≠ 39 := by
  simp [plainByte, and_assoc]

theorem plainByte_of_isdigit (h : isdigit b = true) : plainByte b = true := by
  rw [plainByte_iff]
  refine ⟨?_, ?_, ?_, ?_, ?_, ?_, ?_⟩ <;> rintro rfl <;> exact absurd h (by decide)

theorem isTrimmed_of_plainByte (h : plainByte b = true) : isTrimmed b = false := by
  obtain ⟨h0, h9, h10, h13, h32, -, -⟩ := plainByte_iff.mp h
  simp [isTrimmed, *]

theorem plain_decimal_append (n : ℕ) {u : Sds} (hu : ∀ b ∈ u, plainByte b = true) :
    Plain (decimal n ++ u) := by
  refine ⟨by simp [decimal_ne_nil], fun b hb => ?_, fun b hb => ?_⟩
  · rcases mem_append.mp hb with hb | hb
    · exact plainByte_of_isdigit (isdigit_decimal n b hb)
    · exact hu b hb
  · rw [head?_append_of_ne_nil _ (decimal_ne_nil n)] at hb
    exact isspace_of_isdigit (isdigit_decimal n b (mem_of_mem_head? hb))

theorem plain_ll2string_append (v : ℤ) {u : Sds} (hu : ∀ b ∈ u, plainByte b = true) :
    Plain (ll2string v ++ u) := by
  obtain ⟨-, hmem, -⟩ := plain_decimal_append v.natAbs hu
  unfold ll2string
  split_ifs
  · refine ⟨by simp, fun b hb => ?_, fun b hb => ?_⟩
    · rcases mem_cons.mp hb with rfl | hb
      · decide
      · exact hmem b hb
    · obtain rfl : (45 : UInt8) = b := by simpa using hb
      decide
  · exact plain_decimal_append v.natAbs hu

theorem plain_ll2string (v : ℤ) : Plain (ll2string v) := by
  simpa using plain_ll2string_append v (u := []) (by simp)

/-- A line of tokens with a space before each but the first. -/
def line (k : Sds) (args : List Sds) : Sds := k ++ args.flatMap (32 :: ·)

theorem line_cons (k a : Sds) (args : List Sds) : line k (a :: args) = k ++ 32 :: line a args := by
  simp [line]

theorem splitToken_plain {t : Sds} (h : ∀ b ∈ t, plainByte b = true) (rest : Sds) :
    ∀ cur, splitToken .none (t ++ rest) cur = splitToken .none rest (cur ++ t) := by
  induction t with
  | nil => simp
  | cons b t ih =>
    intro cur
    obtain ⟨-, h9, h10, h13, h32, h34, h39⟩ := plainByte_iff.mp (h b mem_cons_self)
    rw [cons_append, splitToken, if_neg (by simp [h32, h10, h13, h9]), if_neg h34, if_neg h39,
      ih fun c hc => h c (mem_cons_of_mem _ hc), append_assoc, singleton_append]

variable {k : Sds}

theorem Plain.cstr_eq (hk : Plain k) : cstr k = k :=
  cstr_eq_self fun h0 => absurd (hk.2.1 0 h0) (by decide)

theorem splitLoop_plain (hk : Plain k) (fuel : ℕ) (rest : Sds) :
    splitLoop (fuel + 1) (k ++ rest) =
      (splitToken .none rest k).bind fun r => (splitLoop fuel r.2).map (r.1 :: ·) := by
  obtain ⟨hne, hmem, hhead⟩ := hk
  obtain ⟨b, t, rfl⟩ := exists_cons_of_ne_nil hne
  have hb : isspace b = false := hhead b rfl
  rw [splitLoop, cons_append, dropWhile_cons_of_neg (by simp [hb])]
  dsimp only
  rw [← cons_append, splitToken_plain hmem, nil_append]
  rcases splitToken .none rest (b :: t) with _ | ⟨tok, r⟩ <;> rfl

variable {args : List Sds}

theorem splitLoop_line (hargs : ∀ t ∈ args, Plain t) :
    ∀ {k : Sds}, Plain k → ∀ {fuel : ℕ}, args.length < fuel →
      splitLoop fuel (line k args) = some (k :: args) := by
  induction args with
  | nil =>
    intro k hk fuel hfuel
    obtain ⟨fuel, rfl⟩ := Nat.exists_eq_add_of_lt hfuel
    have hend : splitLoop fuel [] = some [] := by cases fuel <;> rfl
    simpa [line, splitToken, hend] using splitLoop_plain hk fuel []
  | cons a args ih =>
    intro k hk fuel hfuel
    obtain ⟨fuel, rfl⟩ : ∃ f, fuel = f + 1 := ⟨fuel - 1, by omega⟩
    rw [line_cons, splitLoop_plain hk, splitToken, if_pos (by simp)]
    simp only [bind_some]
    rw [ih (fun t ht => hargs t (mem_cons_of_mem _ ht)) (hargs a mem_cons_self)
      (by simpa using hfuel)]
    rfl

theorem length_lt_length_line (hk : k ≠ []) (args : List Sds) :
    args.length < (line k args).length := by
  have hpos := length_pos_iff.mpr hk
  have hargs : args.length ≤ (args.flatMap (32 :: ·)).length := by
    induction args with
    | nil => simp
    | cons a args ih =>
      simp only [flatMap_cons, length_append, length_cons] at ih ⊢
      omega
  rw [line, length_append]
  omega

theorem mem_line (hb : b ∈ line k args) :
    b = 32 ∨ ∃ t ∈ k :: args, b ∈ t := by
  simp only [line, mem_append, mem_flatMap, mem_cons] at hb
  rcases hb with hb | ⟨t, ht, rfl | hb⟩
  · exact .inr ⟨k, mem_cons_self, hb⟩
  · exact .inl rfl
  · exact .inr ⟨t, mem_cons_of_mem _ ht, hb⟩

theorem not_mem_line (h : ∀ t ∈ k :: args, Plain t) (hb : b = 0 ∨ b = 10) : b ∉ line k args := by
  intro hm
  rcases mem_line hm with rfl | ⟨t, ht, hbt⟩
  · exact absurd hb (by decide)
  · have := plainByte_iff.mp ((h t ht).2.1 b hbt)
    rcases hb with rfl | rfl
    · exact this.1 rfl
    · exact this.2.2.1 rfl

variable {s : Sds}

theorem not_mem_cstr (s : Sds) : 0 ∉ cstr s := fun h => by
  simpa using mem_takeWhile_imp h

theorem sdssplitargs_line (h : ∀ t ∈ k :: args, Plain t) :
    sdssplitargs (line k args) = some (k :: args) := by
  have hk : Plain k := h k mem_cons_self
  rw [sdssplitargs, cstr_eq_self (not_mem_line h (.inl rfl))]
  exact splitLoop_line (fun t ht => h t (mem_cons_of_mem _ ht)) hk
    (length_lt_length_line hk.1 args)

theorem sdstrim_eq_self (hhead : ∀ b ∈ s.head?, isTrimmed b = false)
    (hlast : ∀ b ∈ s.getLast?, isTrimmed b = false) : sdstrim s = s := by
  have hdrop : s.dropWhile isTrimmed = s := by
    rw [dropWhile_eq_self_iff]
    intro hpos
    rw [hhead _ (by simp [head?_eq_getElem?])]
    exact Bool.false_ne_true
  rw [sdstrim, hdrop, rdropWhile_eq_self_iff]
  intro hne
  rw [hlast _ (getLast?_eq_some_getLast hne)]
  exact Bool.false_ne_true

theorem plainByte_line_last :
    ∀ {k : Sds}, (∀ t ∈ k :: args, Plain t) → ∀ b ∈ (line k args).getLast?, plainByte b = true := by
  induction args with
  | nil =>
    intro k h b hb
    refine (h k mem_cons_self).2.1 b ?_
    simpa [line] using mem_of_mem_getLast? hb
  | cons a args ih =>
    intro k h b hb
    have ha : Plain a := h a (by simp)
    have hne : line a args ≠ [] := fun hnil => ha.1 (append_eq_nil_iff.mp hnil).1
    refine ih (fun t ht => h t (mem_cons_of_mem _ ht)) b ?_
    rw [line_cons, getLast?_append_of_ne_nil _ (by simp), getLast?_cons_of_ne_nil hne] at hb
    exact hb

theorem sdstrim_line (h : ∀ t ∈ k :: args, Plain t) :
    sdstrim (line k args) = line k args := by
  have hk : Plain k := h k mem_cons_self
  refine sdstrim_eq_self (fun b hb => ?_) fun b hb =>
    isTrimmed_of_plainByte (plainByte_line_last h b hb)
  rw [line, head?_append_of_ne_nil _ hk.1] at hb
  exact isTrimmed_of_plainByte (hk.2.1 b (mem_of_mem_head? hb))

theorem sdstrim_last : ∀ b ∈ (sdstrim s).getLast?, isTrimmed b = false := by
  intro b hb
  have hne : sdstrim s ≠ [] := by
    rintro h
    simp [h] at hb
  rw [getLast?_eq_some_getLast hne] at hb
  have hlast : ¬ isTrimmed ((sdstrim s).getLast hne) = true := rdropWhile_last_not _ _ hne
  rwa [mem_some_iff.mp hb, Bool.not_eq_true] at hlast

theorem sdstrim_infix (s : Sds) : ∃ a c, s = a ++ sdstrim s ++ c := by
  obtain ⟨a, ha⟩ := dropWhile_suffix (l := s) isTrimmed
  obtain ⟨c, hc⟩ := rdropWhile_prefix isTrimmed (s.dropWhile isTrimmed)
  exact ⟨a, c, by rw [append_assoc, sdstrim, hc, ha]⟩

theorem sdstrim_sdstrim (s : Sds) : sdstrim (sdstrim s) = sdstrim s := by
  refine sdstrim_eq_self (fun b hb => ?_) sdstrim_last
  obtain ⟨c, hc⟩ := rdropWhile_prefix isTrimmed (s.dropWhile isTrimmed)
  have hhead : b ∈ (s.dropWhile isTrimmed).head? := by
    rw [← hc, head?_append]
    change b ∈ (sdstrim s).head?.or _
    rw [mem_def.mp hb]
    rfl
  have := head?_dropWhile_not isTrimmed s
  rw [mem_def.mp hhead] at this
  simpa using this

theorem mem_of_mem_sdstrim (h : b ∈ sdstrim s) : b ∈ s := by
  obtain ⟨a, c, hs⟩ := sdstrim_infix s
  rw [hs]
  simp [h]

theorem not_mem_sdstrim (h : 10 ∉ s.dropLast) : 10 ∉ sdstrim s := by
  intro hm
  obtain ⟨a, c, hs⟩ := sdstrim_infix s
  rcases eq_nil_or_concat (sdstrim s) with hnil | ⟨t, z, ht⟩
  · simp [hnil] at hm
  have hz : isTrimmed z = false := sdstrim_last (s := s) z (by simp [ht])
  rw [ht, concat_eq_append] at hs hm
  refine h ?_
  have hdrop : s.dropLast = a ++ t ++ (z :: c).dropLast := by
    rw [hs, ← dropLast_append_of_ne_nil (by simp)]
    simp
  rcases mem_append.mp hm with hm | hm
  · rw [hdrop]
    simp [hm]
  · obtain rfl : (10 : UInt8) = z := by simpa using hm
    exact absurd hz (by decide)

theorem fgets_append (n : ℕ) (s : Sds) : (fgets n s).1 ++ (fgets n s).2 = s := by
  fun_induction fgets n s <;> simp_all

theorem length_fgets_le (n : ℕ) (b : UInt8) (s : Sds) :
    (fgets (n + 1) (b :: s)).2.length ≤ s.length := by
  rw [fgets]
  split_ifs
  · exact le_rfl
  · have := congrArg length (fgets_append n s)
    rw [length_append] at this
    simp only
    omega

theorem not_mem_fgets_dropLast (n : ℕ) (s : Sds) : 10 ∉ (fgets n s).1.dropLast := by
  fun_induction fgets n s with
  | case1 | case2 | case3 => simp
  | case4 n b s hb ih =>
    rcases hr : (fgets n s).1 with _ | ⟨c, t⟩
    · simp
    · rw [hr] at ih
      simpa [Ne.symm hb] using ih

theorem mem_fgetsAll : ∀ {fuel : ℕ} {s p : Sds}, p ∈ fgetsAll fuel s → 10 ∉ p.dropLast
  | 0, _, _, h => by simp [fgetsAll] at h
  | _ + 1, [], _, h => by simp [fgetsAll] at h
  | fuel + 1, b :: s, p, h => by
    rcases mem_cons.mp h with rfl | h
    · exact not_mem_fgets_dropLast _ _
    · exact mem_fgetsAll h

theorem fgetsAll_flatten : ∀ {fuel : ℕ} {s : Sds}, s.length ≤ fuel → (fgetsAll fuel s).flatten = s
  | 0, s, h => by simp_all [fgetsAll]
  | fuel + 1, [], _ => rfl
  | fuel + 1, b :: s, h => by
    rw [fgetsAll, flatten_cons, fgetsAll_flatten, fgets_append]
    exact (length_fgets_le 1023 b s).trans (by simpa using h)

theorem readPieces_flatten {file : Sds} (h : 0 ∉ file) : (readPieces file).flatten = file := by
  have hall := fgetsAll_flatten (le_refl file.length)
  have hmap : (fgetsAll file.length file).map cstr = fgetsAll file.length file := by
    refine (map_congr_left fun p hp => ?_).trans (map_id _)
    refine cstr_eq_self fun h0 => h ?_
    rw [← hall]
    exact mem_flatten.mpr ⟨p, hp, h0⟩
  rw [readPieces, hmap, hall]

theorem not_mem_readPieces {file p : Sds} (h : p ∈ readPieces file) :
    10 ∉ sdstrim p ∧ 0 ∉ sdstrim p := by
  obtain ⟨q, hq, rfl⟩ := mem_map.mp h
  refine ⟨not_mem_sdstrim fun hm => mem_fgetsAll hq ?_,
    fun hm => not_mem_cstr q (mem_of_mem_sdstrim hm)⟩
  obtain ⟨t, ht⟩ := takeWhile_prefix (l := q) (fun b => decide (b ≠ 0))
  rcases eq_nil_or_concat t with rfl | ⟨t, z, rfl⟩
  · rw [← ht, append_nil]
    exact hm
  · rw [← ht, concat_eq_append, ← append_assoc, dropLast_concat]
    exact mem_append_left _ (dropLast_subset _ hm)

end Vire.Conf
