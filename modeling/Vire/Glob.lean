import Mathlib.Computability.Language
import Vire.Util

/-!
# The language of a glob pattern

`stringmatchlen` accepts the strings of the language of its pattern, whatever their order of stars
and classes, but for the empty string: there a class is tried on the zero byte behind the string.
If it accepts that byte, `stringLen` becomes negative, and the rest of the pattern is matched
against what is in memory behind the string.
-/

namespace Vire

open List

/-- The loop of `stringmatchlen` with a negative `stringLen`; `none` where it goes on to look at
memory behind the string. -/
def stringmatchPast : Sds → Option Bool
  | [] => some false
  | b :: p =>
    if b = 63 then stringmatchPast p
    else if b = 42 ∧ p.all (· == 42) then some true
    else none

/-- The first turn of the loop on an empty string, which has a zero byte behind it. -/
def stringmatchEmpty (nocase : Bool) : Sds → Option Bool
  | [] => some true
  | b :: p =>
    if b = 42 then some (p.all (· == 42))
    else if b = 63 then some false
    else if b = 91 then
      let neg := p.head? == some 94
      match matchClass nocase 0 (if neg then p.tail else p) false with
      | none => some false
      | some (m, p) => if m != neg then stringmatchPast p else some false
    else
      let q := if b = 92 ∧ p ≠ [] then p else b :: p
      if q.head?.any (sameChar nocase · 0) then stringmatchPast q.tail else some false

def stringmatchlen (pattern string : Sds) (nocase : Bool) : Option Bool :=
  if string = [] then stringmatchEmpty nocase pattern
  else some (matchLoop nocase (pattern.length + 1) pattern string)

inductive GlobItem
  | byte (b : UInt8)
  | escaped (b : UInt8)
  | range (a b : UInt8)

def GlobItem.text : GlobItem → Sds
  | byte b => [b]
  | escaped b => [92, b]
  | range a b => [a, 45, b]

/-- The items of a class.  A byte with a dash behind it is the beginning of a range, and that does
not end with the bracket. -/
def GlobItems : List GlobItem → Prop
  | [] => True
  | .byte b :: items =>
    b ≠ 92 ∧ b ≠ 93 ∧ (items.flatMap GlobItem.text).head? ≠ some 45 ∧ GlobItems items
  | .escaped _ :: items => GlobItems items
  | .range a b :: items => a ≠ 92 ∧ a ≠ 93 ∧ b ≠ 93 ∧ GlobItems items

/-- A range has the bytes between its ends, in the order of `char`. -/
def GlobItem.has (c : UInt8) : GlobItem → Bool
  | byte b => b == c
  | escaped b => b == c
  | range a b => min (signed a) (signed b) ≤ signed c && signed c ≤ max (signed a) (signed b)

inductive GlobTok
  | star
  | any
  | cls (neg : Bool) (items : List GlobItem)
  | escaped (b : UInt8)
  | byte (b : UInt8)

def GlobTok.text : GlobTok → Sds
  | star => [42]
  | any => [63]
  | cls neg items => 91 :: ((if neg then [94] else []) ++ items.flatMap GlobItem.text ++ [93])
  | escaped b => [92, b]
  | byte b => [b]

def GlobTok.Ok : GlobTok → Prop
  | cls neg items => GlobItems items ∧ (neg = false → (items.flatMap GlobItem.text).head? ≠ some 94)
  | byte b => b ≠ 42 ∧ b ≠ 63 ∧ b ≠ 91 ∧ b ≠ 92
  | _ => True

/-- The tokens of a pattern.  A backslash at the end stands for itself. -/
def GlobOk : List GlobTok → Prop
  | [] => True
  | t :: ts => (t.Ok ∨ t = .byte 92 ∧ ts = []) ∧ GlobOk ts

def globText (ts : List GlobTok) : Sds := ts.flatMap GlobTok.text

def GlobTok.accepts (c : UInt8) : GlobTok → Bool
  | star | any => true
  | cls neg items => items.any (·.has c) != neg
  | escaped b | byte b => b == c

def GlobTok.language : GlobTok → Language UInt8
  | star => ⊤
  | t => {s | ∃ c, s = [c] ∧ t.accepts c = true}

def globLanguage (ts : List GlobTok) : Language UInt8 := (ts.map GlobTok.language).prod

variable {t : GlobTok} {ts : List GlobTok} {items : List GlobItem} {c : UInt8} {s : Sds}

theorem mem_star_cons : s ∈ globLanguage (.star :: ts) ↔ ∃ v, v <:+ s ∧ v ∈ globLanguage ts := by
  rw [globLanguage, map_cons, prod_cons, Language.mem_mul]
  constructor
  · rintro ⟨u, -, v, hv, rfl⟩
    exact ⟨v, suffix_append u v, hv⟩
  · rintro ⟨v, ⟨u, rfl⟩, hv⟩
    exact ⟨u, trivial, v, hv, rfl⟩

theorem mem_cons_iff (ht : t ≠ .star) :
    s ∈ globLanguage (t :: ts) ↔ ∃ c v, s = c :: v ∧ t.accepts c = true ∧ v ∈ globLanguage ts := by
  have hlang : t.language = {s | ∃ c, s = [c] ∧ t.accepts c = true} := by
    cases t <;> first | rfl | exact absurd rfl ht
  rw [globLanguage, map_cons, prod_cons, Language.mem_mul, hlang]
  constructor
  · rintro ⟨u, ⟨c, rfl, hc⟩, v, hv, rfl⟩
    exact ⟨c, v, rfl, hc, hv⟩
  · rintro ⟨c, v, rfl, hc, hv⟩
    exact ⟨[c], ⟨c, rfl, hc⟩, v, hv, rfl⟩

theorem nil_mem_iff : [] ∈ globLanguage ts ↔ ∀ t ∈ ts, t = .star := by
  induction ts with
  | nil => simp [globLanguage]
  | cons t ts ih =>
    by_cases ht : t = .star
    · subst ht
      simp [mem_star_cons, ih]
    · simp [mem_cons_iff ht, ht]

theorem GlobTok.text_cons (h : t.Ok ∨ t = .byte 92 ∧ ts = []) :
    ∃ b p, t.text = b :: p ∧ (b = 42 ↔ t = .star) ∧ (b = 63 ↔ t = .any) := by
  cases t <;> simp_all [GlobTok.text, GlobTok.Ok]
  rcases h with h | h <;> simp [h]

theorem all_star_iff (h : GlobOk ts) :
    (globText ts).all (· == 42) = true ↔ ∀ t ∈ ts, t = .star := by
  induction ts with
  | nil => simp [globText]
  | cons t ts ih =>
    obtain ⟨b, p, hp, hb, -⟩ := t.text_cons h.1
    rw [globText, flatMap_cons, all_append, Bool.and_eq_true, forall_mem_cons]
    refine and_congr ⟨fun hall => ?_, ?_⟩ (ih h.2)
    · rw [hp, all_cons, Bool.and_eq_true, beq_iff_eq] at hall
      exact hb.mp hall.1
    · rintro rfl
      rfl

theorem matchClass_byte {b : UInt8} {p : Sds} (h92 : b ≠ 92) (h93 : b ≠ 93) (hp : p.head? ≠ some 45)
    (m : Bool) : matchClass false c (b :: p) m = matchClass false c p (m || b == c) := by
  rw [matchClass]
  · rfl
  · rintro rfl
    exact fun _ => h92 rfl
  · rintro e p' rfl
    exact fun _ => h92 rfl
  · exact h93
  · rintro e p' rfl
    exact hp rfl

theorem matchClass_range {a b : UInt8} {p : Sds} (h92 : a ≠ 92) (h93 : a ≠ 93) (m : Bool) :
    matchClass false c (a :: 45 :: b :: p) m =
      matchClass false c p (m || (GlobItem.range a b).has c) := by
  rw [matchClass]
  · simp [inRange, lowerIf, GlobItem.has]
  · exact fun h => absurd h h92
  · exact h93

theorem matchClass_text (h : GlobItems items) (c : UInt8) (rest : Sds) (m : Bool) :
    matchClass false c (items.flatMap GlobItem.text ++ 93 :: rest) m =
      some (m || items.any (·.has c), rest) := by
  induction items generalizing m with
  | nil => simp [matchClass]
  | cons i items ih =>
    rw [flatMap_cons, append_assoc, any_cons, ← Bool.or_assoc]
    cases i with
    | byte b =>
      obtain ⟨h92, h93, hdash, hitems⟩ := h
      have hp : (items.flatMap GlobItem.text ++ 93 :: rest).head? ≠ some 45 := by
        rw [head?_append]
        cases hh : (items.flatMap GlobItem.text).head? <;> simp_all
      exact (matchClass_byte h92 h93 hp m).trans (ih hitems _)
    | escaped b =>
      refine Eq.trans ?_ (ih h _)
      rw [GlobItem.text, cons_append, singleton_append, matchClass]
      rfl
    | range a b =>
      obtain ⟨h92, h93, -, hitems⟩ := h
      exact (matchClass_range h92 h93 m).trans (ih hitems _)

theorem globText_cons (t : GlobTok) (ts : List GlobTok) :
    globText (t :: ts) = t.text ++ globText ts := flatMap_cons

theorem matchClass_cls {neg : Bool} (h : (GlobTok.cls neg items).Ok) (c : UInt8) (rest : Sds) :
    ∃ p, (GlobTok.cls neg items).text ++ rest = 91 :: p ∧ (p.head? == some 94) = neg ∧
      matchClass false c (if neg then p.tail else p) false = some (items.any (·.has c), rest) := by
  obtain ⟨hitems, hhead⟩ := h
  have hclass := matchClass_text hitems c rest false
  refine ⟨(if neg then [94] else []) ++ items.flatMap GlobItem.text ++ 93 :: rest, ?_, ?_, ?_⟩
  · simp [GlobTok.text]
  · cases neg
    · have := hhead rfl
      rw [if_neg Bool.false_ne_true, nil_append, head?_append]
      cases hh : (items.flatMap GlobItem.text).head? <;> simp_all
    · rfl
  · cases neg <;> simpa using hclass

theorem matchRest_iff {next : Sds → Sds → Bool} (h : GlobOk ts)
    (hnext : s ≠ [] → (next (globText ts) s = true ↔ s ∈ globLanguage ts)) :
    matchRest next (globText ts) s = true ↔ s ∈ globLanguage ts := by
  rw [matchRest]
  split_ifs with hs
  · rw [hs, all_star_iff h, nil_mem_iff]
  · exact hnext hs

theorem globText_eq_nil (h : GlobOk ts) (hts : globText ts = []) : ts = [] := by
  cases ts with
  | nil => rfl
  | cons t ts =>
    obtain ⟨b, p, hp, -⟩ := t.text_cons h.1
    simp [globText_cons, hp] at hts

theorem exists_dropWhile_star (h : GlobOk ts) :
    ∃ ts', GlobOk ts' ∧ (globText ts).dropWhile (· == 42) = globText ts' ∧
      (∀ s, s ∈ globLanguage (.star :: ts) ↔ s ∈ globLanguage (.star :: ts')) ∧
      ([] ∈ globLanguage ts' → ts' = []) := by
  induction ts with
  | nil => exact ⟨[], trivial, rfl, fun s => Iff.rfl, fun _ => rfl⟩
  | cons t ts ih =>
    obtain ⟨b, p, hp, hb, -⟩ := t.text_cons h.1
    by_cases ht : t = .star
    · subst ht
      obtain ⟨ts', hok, hdrop, hlang, hnil⟩ := ih h.2
      refine ⟨ts', hok, hdrop, fun s => (Iff.trans ?_ (hlang s)), hnil⟩
      rw [mem_star_cons, mem_star_cons]
      constructor
      · rintro ⟨v, hv, hmem⟩
        obtain ⟨w, hw, hmem⟩ := mem_star_cons.mp hmem
        exact ⟨w, hw.trans hv, hmem⟩
      · rintro ⟨v, hv, hmem⟩
        exact ⟨s, suffix_rfl, mem_star_cons.mpr ⟨v, hv, hmem⟩⟩
    · refine ⟨t :: ts, h, ?_, fun s => Iff.rfl, fun hnil => ?_⟩
      · rw [globText_cons, hp, cons_append, dropWhile_cons_of_neg]
        simpa using fun h42 => ht (hb.mp h42)
      · exact absurd (nil_mem_iff.mp hnil t mem_cons_self) ht

theorem matchLoop_iff {fuel : ℕ} : ∀ {ts s}, GlobOk ts → s ≠ [] → (globText ts).length < fuel →
    (matchLoop false fuel (globText ts) s = true ↔ s ∈ globLanguage ts) := by
  induction fuel with
  | zero => exact fun _ _ h => absurd h (Nat.not_lt_zero _)
  | succ fuel ih =>
    intro ts s hok hs hfuel
    obtain ⟨c, s, rfl⟩ := exists_cons_of_ne_nil hs
    cases ts with
    | nil => simp [globText, matchLoop, globLanguage]
    | cons t ts =>
      obtain ⟨b, p, hp, -⟩ := t.text_cons hok.1
      have hrest : (globText ts).length < fuel := by
        rw [globText_cons, hp, length_append, length_cons] at hfuel
        omega
      have hround := matchRest_iff (s := s) hok.2 fun hs => ih hok.2 hs hrest
      rw [globText_cons]
      cases t with
      | star =>
        obtain ⟨ts', hok', hdrop, hlang, hnil⟩ := exists_dropWhile_star hok.2
        have hlen : (globText ts').length ≤ (globText ts).length := by
          rw [← hdrop]
          exact (dropWhile_sublist _).length_le
        rw [hlang, mem_star_cons, GlobTok.text, singleton_append, matchLoop, if_pos rfl, hdrop]
        simp only [Bool.or_eq_true, decide_eq_true_eq, any_eq_true, mem_filter, mem_tails]
        constructor
        · rintro (hnil' | ⟨v, ⟨hv, hne⟩, hmatch⟩)
          · rw [globText_eq_nil hok' hnil']
            exact ⟨[], nil_suffix, rfl⟩
          · exact ⟨v, hv, (ih hok' hne (by omega)).mp hmatch⟩
        · rintro ⟨v, hv, hmem⟩
          rcases eq_or_ne v [] with rfl | hne
          · rw [hnil hmem]
            exact .inl rfl
          · exact .inr ⟨v, ⟨hv, hne⟩, (ih hok' hne (by omega)).mpr hmem⟩
      | any =>
        rw [mem_cons_iff (by simp)]
        simp [GlobTok.text, matchLoop, GlobTok.accepts, hround]
      | cls neg items =>
        obtain ⟨p, hp, hneg, hclass⟩ :=
          matchClass_cls (hok.1.resolve_right (by simp)) c (globText ts)
        rw [hp, mem_cons_iff (by simp), matchLoop, if_neg (by decide),
          if_neg (by decide), if_pos rfl]
        simp [hneg, hclass, GlobTok.accepts, hround]
      | escaped b =>
        rw [mem_cons_iff (by simp)]
        simp [GlobTok.text, matchLoop, GlobTok.accepts, hround, sameChar]
      | byte b =>
        rw [mem_cons_iff (by simp)]
        rcases hok.1 with ⟨h42, h63, h91, h92⟩ | ⟨hb, rfl⟩
        · simp [GlobTok.text, matchLoop, GlobTok.accepts, hround, sameChar, h42, h63, h91, h92]
        · cases hb
          simpa [GlobTok.text, matchLoop, GlobTok.accepts, sameChar, globText] using fun _ => hround

theorem stringmatchPast_eq_false_iff (h : GlobOk ts) :
    stringmatchPast (globText ts) = some false ↔ ∀ t ∈ ts, t = .any := by
  induction ts with
  | nil => simp [globText, stringmatchPast]
  | cons t ts ih =>
    by_cases ht : t = .any
    · subst ht
      rw [globText_cons, GlobTok.text, singleton_append, stringmatchPast, if_pos rfl, ih h.2]
      simp
    · obtain ⟨b, p, hp, -, h63⟩ := t.text_cons h.1
      rw [globText_cons, hp, cons_append, stringmatchPast, if_neg (mt h63.mp ht)]
      split_ifs <;> simp [ht]

/-- The pattern begins with a class that accepts the zero byte, and not only `?` follow it. -/
def GlobPast : List GlobTok → Prop
  | .cls neg items :: ts => (GlobTok.cls neg items).accepts 0 = true ∧ ∃ t ∈ ts, t ≠ .any
  | _ => False

theorem stringmatchEmpty_iff (hok : GlobOk ts) (hts : 0 ∉ globText ts) :
    (∃ b, stringmatchEmpty false (globText ts) = some b ∧ (b = true ↔ [] ∈ globLanguage ts)) ↔
      ¬GlobPast ts := by
  rw [nil_mem_iff]
  cases ts with
  | nil => simp [globText, stringmatchEmpty, GlobPast]
  | cons t ts =>
    rw [globText_cons] at hts ⊢
    cases t with
    | star => simp [GlobTok.text, stringmatchEmpty, GlobPast, ← all_star_iff hok.2]
    | any => simp [GlobTok.text, stringmatchEmpty, GlobPast]
    | cls neg items =>
      obtain ⟨p, hp, hneg, hclass⟩ := matchClass_cls (hok.1.resolve_right (by simp)) 0 (globText ts)
      have hpast := stringmatchPast_eq_false_iff hok.2
      rw [hp, stringmatchEmpty, if_neg (by decide), if_neg (by decide), if_pos rfl]
      by_cases hzero : (items.any (·.has 0) != neg) = true
      · simp [hneg, hclass, GlobPast, GlobTok.accepts, hzero, hpast]
      · simp [hneg, hclass, GlobPast, GlobTok.accepts, hzero]
    | escaped b =>
      have hb : b ≠ 0 := by
        rintro rfl
        simp [GlobTok.text] at hts
      simp [GlobTok.text, stringmatchEmpty, GlobPast, sameChar, hb]
    | byte b =>
      have hb : b ≠ 0 := by
        rintro rfl
        simp [GlobTok.text] at hts
      rcases hok.1 with ⟨h42, h63, h91, h92⟩ | ⟨hb, rfl⟩
      · simp [GlobTok.text, stringmatchEmpty, GlobPast, sameChar, hb, h42, h63, h91, h92]
      · cases hb
        simp [GlobTok.text, stringmatchEmpty, GlobPast, sameChar, globText]

/-- For every pattern whose classes are closed, without zero bytes, and every string:
`stringmatchlen` returns whether the string is in the language of the pattern, unless the string is
empty and the pattern begins with a class that accepts the zero byte, and not only `?` follow
that. -/
theorem glob_exact_iff (ts : List GlobTok) (s : Sds) (hok : GlobOk ts) (hts : 0 ∉ globText ts) :
    (∃ b, stringmatchlen (globText ts) s false = some b ∧ (b = true ↔ s ∈ globLanguage ts)) ↔
      ¬(s = [] ∧ GlobPast ts) := by
  rw [stringmatchlen]
  by_cases hs : s = []
  · rw [if_pos hs, hs, stringmatchEmpty_iff hok hts]
    simp
  · rw [if_neg hs]
    exact iff_of_true ⟨_, rfl, matchLoop_iff hok hs (Nat.lt_succ_self _)⟩ fun h => hs h.1

theorem glob_exact_range :
    ∃ b, stringmatchlen [97, 42, 91, 98, 45, 100, 93] [97, 120, 99] false = some b ∧
      (b = true ↔ [97, 120, 99] ∈ globLanguage [.byte 97, .star, .cls false [.range 98 100]]) :=
  (glob_exact_iff [.byte 97, .star, .cls false [.range 98 100]] _
    (by simp [GlobOk, GlobTok.Ok, GlobItems, GlobItem.text]) (by decide)).mpr
    fun h => cons_ne_nil _ _ h.1

/-- `[^a]*` is found to match the empty string. -/
theorem glob_accepts_empty :
    stringmatchlen [91, 94, 97, 93, 42] [] false = some true ∧
      [] ∉ globLanguage [.cls true [.byte 97], .star] := by
  refine ⟨by decide, fun h => ?_⟩
  cases nil_mem_iff.mp h _ mem_cons_self

end Vire
