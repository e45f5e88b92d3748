import Vire.Keyspace.Proofs.HashCommands
import Vire.Keyspace.Proofs.String

/-!
# Integer increments

INCR, DECR, INCRBY, DECRBY and HINCRBY should be exact or have no effect.  What they read is a C
string: an empty text counts as 0, and what comes after a zero byte is not seen.  DECRBY cannot
negate the smallest integer.
-/

namespace Vire

open List Logic Prog

def plusMinus (neg : Bool) (n k : ℤ) : ℤ := if neg then n - k else n + k

/-- The reply to an increment of `old` (0 if there is no value) by `arg`, or a decrement: an error,
unless the numerals are canonical and the result is in range; or the exact result. -/
def IncrReply (neg : Bool) (old : Option Sds) (arg : Sds) (out : Reply) : Prop :=
  (∃ e, out = .error e) ∧
      (∀ n k, InRange n → InRange k → old = some (ll2string n) ∨ old = none ∧ n = 0 →
        arg = ll2string k → ¬InRange (plusMinus neg n k)) ∨
    ∃ n k, old.elim (some 0) numeral = some n ∧ numeral arg = some k ∧ InRange n ∧ InRange k ∧
      InRange (plusMinus neg n k) ∧ out = .int (plusMinus neg n k)

/-- The texts for which the reply is exact: where the code reads numbers from them and the result is
in range, both texts are seen as a whole; and the smallest integer is not subtracted from a number
that is not negative, or as a canonical numeral. -/
def IncrSeen (neg : Bool) (old : Option Sds) (arg : Sds) : Prop :=
  ∀ n k, old.elim (some 0) getLongLong = some n → getLongLong arg = some k →
    if neg ∧ k = llongMin then
      n < 0 ∧ ¬((old = some (ll2string n) ∨ old = none ∧ n = 0) ∧ arg = ll2string k)
    else InRange (plusMinus neg n k) → (∀ s ∈ old, Whole s) ∧ Whole arg

theorem numeral_eq_iff {s : Sds} {n : ℤ} (h : getLongLong s = some n) :
    numeral s = some n ↔ Whole s := by
  refine ⟨whole_of_numeral, fun ⟨hne, h0⟩ => ?_⟩
  obtain ⟨-, hread | ⟨hnil, -⟩⟩ := (getLongLong_eq_some_iff s n).mp h
  · rwa [cstr_eq_self h0] at hread
  · exact absurd (cstr_eq_self h0 ▸ hnil) hne

def number (old : Option Sds) : Option ℤ := old.elim (some 0) getLongLong

/-- The reply to an increment, with the reply `bad` for a value that is not a number. -/
def incrResult (bad : Reply) (old : Option Sds) (incr : ℤ) : Reply :=
  match number old with
  | none => bad
  | some n => if Handler.incrOverflows n incr then Handler.incrOverflowErr else .int (n + incr)

def incrbyResult (bad : Reply) (neg : Bool) (old : Option Sds) (arg : Sds) : Reply :=
  match getLongLong arg with
  | none => Handler.notAnInteger
  | some k => incrResult bad old (if neg then wrap (-k) else k)

section

variable {old : Option Sds} {arg : Sds} {n k : ℤ} {neg : Bool}

theorem number_range (h : number old = some n) : InRange n := by
  cases old with
  | none =>
    cases h
    exact ⟨by decide, by decide⟩
  | some s => exact getLongLong_mem h

theorem number_of_canonical (hn : InRange n) (h : old = some (ll2string n) ∨ old = none ∧ n = 0) :
    number old = some n := by
  rcases h with rfl | ⟨rfl, rfl⟩
  · exact getLongLong_ll2string hn
  · rfl

theorem number_of_numeral (hn : InRange n) (h : old.elim (some 0) numeral = some n) :
    number old = some n := by
  cases old with
  | none => exact h
  | some s => exact getLongLong_of_numeral h hn

theorem numeral_old_iff (h : number old = some n) :
    old.elim (some 0) numeral = some n ↔ ∀ s ∈ old, Whole s := by
  cases old with
  | none => exact iff_of_true h (by simp)
  | some s =>
    change numeral s = some n ↔ _
    rw [numeral_eq_iff h]
    simp

theorem incrOverflows_iff (hn : InRange n) (hk : InRange k) :
    Handler.incrOverflows n k = true ↔ ¬InRange (n + k) := by
  simp only [Handler.incrOverflows, InRange, Bool.or_eq_true, Bool.and_eq_true,
    decide_eq_true_eq] at *
  omega

theorem wrap_neg_of_ne (hk : InRange k) (hmin : k ≠ llongMin) : wrap (-k) = -k ∧ InRange (-k) := by
  have hrange : InRange (-k) := by
    unfold InRange llongMin llongMax at *
    omega
  exact ⟨wrap_eq_self_iff.mpr hrange, hrange⟩

variable {e : Sds}

theorem incrReply_error : IncrReply neg old arg (.error e) ↔
    ∀ n k, InRange n → InRange k → old = some (ll2string n) ∨ old = none ∧ n = 0 →
      arg = ll2string k → ¬InRange (plusMinus neg n k) := by
  simp [IncrReply]

section

variable (hn : number old = some n)

include hn

section

variable (hk : getLongLong arg = some k)

include hk

theorem incrReply_int {m : ℤ} :
    IncrReply neg old arg (.int m) ↔
      ((∀ s ∈ old, Whole s) ∧ Whole arg) ∧ InRange (plusMinus neg n k) ∧ m = plusMinus neg n k := by
  have hkr := getLongLong_mem hk
  constructor
  · rintro (⟨⟨e, he⟩, -⟩ | ⟨n', k', hn', hk', hnr', hkr', hsum, hout⟩)
    · cases he
    · obtain rfl : n = n' := Option.some.inj (hn.symm.trans (number_of_numeral hnr' hn'))
      obtain rfl : k = k' := Option.some.inj (hk.symm.trans (getLongLong_of_numeral hk' hkr'))
      exact ⟨⟨(numeral_old_iff hn).mp hn', (numeral_eq_iff hk).mp hk'⟩, hsum, Reply.int.inj hout⟩
  · rintro ⟨⟨hold, harg⟩, hsum, rfl⟩
    exact .inr ⟨n, k, (numeral_old_iff hn).mpr hold, (numeral_eq_iff hk).mpr harg, number_range hn,
      hkr, hsum, rfl⟩

theorem incrReply_error_iff :
    IncrReply neg old arg (.error e) ↔
      ((old = some (ll2string n) ∨ old = none ∧ n = 0) ∧ arg = ll2string k →
        ¬InRange (plusMinus neg n k)) := by
  rw [incrReply_error]
  constructor
  · rintro h ⟨hold, harg⟩
    exact h n k (number_range hn) (getLongLong_mem hk) hold harg
  · intro h n' k' hnr hkr hold harg
    obtain rfl : n = n' := Option.some.inj (hn.symm.trans (number_of_canonical hnr hold))
    rw [harg, getLongLong_ll2string hkr, Option.some.injEq] at hk
    subst hk
    exact h ⟨hold, harg⟩

theorem incrSeen_iff :
    IncrSeen neg old arg ↔
      if neg ∧ k = llongMin then
        n < 0 ∧ ¬((old = some (ll2string n) ∨ old = none ∧ n = 0) ∧ arg = ll2string k)
      else InRange (plusMinus neg n k) → (∀ s ∈ old, Whole s) ∧ Whole arg := by
  refine ⟨fun h => h n k hn hk, fun h n' k' hn' hk' => ?_⟩
  obtain rfl : n = n' := Option.some.inj (hn.symm.trans hn')
  obtain rfl : k = k' := Option.some.inj (hk.symm.trans hk')
  exact h

theorem incrReply_sum {incr : ℤ} (hincr : InRange incr) (hsum : n + incr = plusMinus neg n k) :
    IncrReply neg old arg (incrResult (.error e) old incr) ↔
      (InRange (plusMinus neg n k) → (∀ s ∈ old, Whole s) ∧ Whole arg) := by
  have hover := incrOverflows_iff (number_range hn) hincr
  rw [hsum] at hover
  unfold incrResult
  rw [hn]
  dsimp only
  by_cases hr : InRange (plusMinus neg n k)
  · rw [if_neg (fun h => hover.mp h hr), hsum, incrReply_int hn hk, and_iff_left ⟨hr, rfl⟩,
      forall_prop_of_true hr]
  · rw [if_pos (hover.mpr hr)]
    exact iff_of_true ((incrReply_error_iff hn hk).mpr fun _ => hr) fun h => absurd h hr

end

theorem incrReply_min (hk : getLongLong arg = some llongMin) :
    IncrReply true old arg (incrResult (.error e) old llongMin) ↔
      n < 0 ∧ ¬((old = some (ll2string n) ∨ old = none ∧ n = 0) ∧ arg = ll2string llongMin) := by
  have hnr := number_range hn
  have hover := incrOverflows_iff hnr ⟨le_rfl, by decide⟩
  unfold incrResult
  rw [hn]
  dsimp only
  by_cases hneg : n < 0
  · have hsum : InRange (plusMinus true n llongMin) := by
      simp only [InRange, plusMinus, if_true] at *
      unfold llongMin llongMax at *
      omega
    have hbad : ¬InRange (n + llongMin) := fun h => by
      have := h.1
      omega
    rw [if_pos (hover.mpr hbad), and_iff_right hneg]
    refine (incrReply_error_iff hn hk).trans
      ⟨fun h hcanon => h hcanon hsum, fun h hcanon => absurd hcanon h⟩
  · have hsum : ¬InRange (plusMinus true n llongMin) := by
      simp only [InRange, plusMinus, if_true] at *
      unfold llongMin llongMax at *
      omega
    have hgood : InRange (n + llongMin) := by
      unfold InRange llongMin llongMax at *
      omega
    rw [if_neg (fun h => hover.mp h hgood), incrReply_int hn hk]
    exact iff_of_false (fun h => hsum h.2.1) fun h => hneg h.1

end

theorem incrReply_iff {bad : Reply} (hbad : ∃ e, bad = .error e) :
    IncrReply neg old arg (incrbyResult bad neg old arg) ↔ IncrSeen neg old arg := by
  obtain ⟨e, rfl⟩ := hbad
  unfold incrbyResult
  cases hk : getLongLong arg with
  | none =>
    refine iff_of_true (incrReply_error.mpr fun n k hn hkr _ harg => ?_) fun n k _ hk' => by
      cases hk.symm.trans hk'
    rw [harg, getLongLong_ll2string hkr] at hk
    cases hk
  | some k =>
    cases hn : number old with
    | none =>
      have hres : ∀ incr, incrResult (.error e) old incr = .error e := fun incr => by
        rw [incrResult, hn]
      dsimp only
      rw [hres]
      refine iff_of_true (incrReply_error.mpr fun n k hnr _ hold _ => ?_) fun n k hn' _ => by
        cases hn.symm.trans hn'
      cases hn.symm.trans (number_of_canonical hnr hold)
    | some n =>
      have hkr := getLongLong_mem hk
      dsimp only
      rw [incrSeen_iff hn hk]
      cases neg with
      | false =>
        exact incrReply_sum hn hk hkr rfl
      | true =>
        rw [if_pos rfl]
        by_cases hmin : k = llongMin
        · subst hmin
          exact incrReply_min hn hk
        · obtain ⟨hwrap, hrange⟩ := wrap_neg_of_ne hkr hmin
          rw [if_neg (fun h => hmin h.2), hwrap]
          exact incrReply_sum hn hk hrange (by simp [plusMinus, sub_eq_add_neg])

end

def incrNew (old : Option Sds) : Reply → Option Sds
  | .int m => some (ll2string m)
  | _ => old

section

variable [Host]

namespace Handler

variable {d : ℕ} {os : List Robj} {s : Server} {key name arg : Sds} {argv : List Sds}
  {old : Option Sds} {t : Option ℤ} {incr : ℤ}

theorem incrDecrCommand_wp (hargs : Args os argv) (hkey : argv[1]? = some key)
    (h : StrFound s.dbs (home d key) key s.now old t) (hincr : InRange incr) :
    (incrDecrCommand incr).Ends (.called d os) s fun out dbs => out =
      [incrResult notAnInteger old incr] ∧
      StrPut s.dbs (home d key) key (incrNew old (incrResult notAnInteger old incr)) t dbs := by
  refine wp_lockKey hargs hkey ?_
  rw [wp_bind]
  refine wp_lookupKeyWrite_str h fun v s' hput his => ?_
  have hnum : strOrMissing v = some (v.bind Value.str?) ∧
      (v.bind Value.str?).elim (some 0) getLongLongFromObject = number old ∧
      ((v.bind Value.str?).isSome = v.isSome) := by
    cases his with
    | missing => exact ⟨rfl, rfl, rfl⟩
    | holds ho => exact ⟨rfl, ho.getLongLongFromObject, rfl⟩
  rw [hnum.1, withSome, hnum.2.1, incrResult]
  cases hn : number old with
  | none => exact ⟨rfl, v, hput, his⟩
  | some n =>
    rw [withSome]
    dsimp only
    by_cases hover : incrOverflows n incr = true
    · rw [if_pos hover, if_pos hover]
      exact ⟨rfl, v, hput, his⟩
    · have hsum : InRange (n + incr) :=
        not_not.mp fun h => hover ((incrOverflows_iff (number_range hn) hincr).mpr h)
      have hdenotes :
          ∀ heap, StrIs (some (numberValue (n + incr) heap).1) (some (ll2string (n + incr))) :=
        fun heap => .holds (Made.createStringObjectFromLongLong hsum.1 hsum.2 rfl heap).denotes
      rw [if_neg hover, if_neg hover, hnum.2.2]
      have hdone :
        ∀ heap s1, KeyPut s.dbs (home d key) key (some (numberValue (n + incr) heap).1) t s1.dbs →
          (do addReply (.int (n + incr)); unlockDb : Cmd Unit).Ends ((Client.called d os).on key) s1
            fun out dbs =>
            out = [.int (n + incr)] ∧
              StrPut s.dbs (home d key) key (some (ll2string (n + incr))) t dbs :=
        fun heap s1 h1 => ⟨rfl, _, h1, hdenotes heap⟩
      cases v with
      | none => exact (wp_bind ..).mpr (wp_dbAdd_put hput (hdone _))
      | some v => exact (wp_bind ..).mpr (wp_dbOverwrite_put hput (hdone _))

def IncrEffect (dbs : ℕ → Db Value) (i : ℕ) (key : Sds) (old : Option Sds)
    (t : Option ℤ) (out : Reply) (dbs' : ℕ → Db Value) : Prop :=
  ((∃ e, out = .error e) ∧ dbs' = dbs) ∨ StrPut dbs i key (incrNew old out) t dbs'

theorem incrbyCommand_wp (neg : Bool) (hargs : Args os [name, key, arg])
    (h : StrFound s.dbs (home d key) key s.now old t) :
    (do withLong (← Handler.arg 2) fun k => incrDecrCommand (if neg then wrap (-k) else k)).Ends
      (.called d os) s fun out dbs => out = [incrbyResult notAnInteger neg old arg] ∧
        IncrEffect s.dbs (home d key) key old t (incrbyResult notAnInteger neg old arg) dbs := by
  refine wp_withLong hargs rfl (fun hnone => ?_) fun k hk => ?_
  · rw [incrbyResult, hnone]
    exact ⟨rfl, .inl ⟨⟨_, rfl⟩, rfl⟩⟩
  · have hincr : InRange (if neg then wrap (-k) else k) := by
      split_ifs
      · exact wrap_range _
      · exact (getLongLong_mem hk)
    rw [incrbyResult, hk]
    exact (incrDecrCommand_wp hargs rfl h hincr).mono fun _ _ _ hdone => ⟨hdone.1, .inr hdone.2⟩

end Handler

inductive HashIs : Option Value → (Sds → Option Sds) → Prop
  | missing : HashIs none fun _ => none
  | holds {v : HashVal} {m : Sds → Option Sds} (hv : v.Has m) (hp : v.Proper) :
    HashIs (some (.hash v)) m

/-- `dbs'` is `dbs` but for the key, which has this map and this deadline. -/
def HashPut (dbs : ℕ → Db Value) (i : ℕ) (key : Sds) (m : Sds → Option Sds) (t : Option ℤ)
    (dbs' : ℕ → Db Value) : Prop :=
  ∃ v, KeyPut dbs i key v t dbs' ∧ HashIs v m

def foundHash (v : Option Value) : HashVal := (v.bind Value.hash?).getD createHashObject

theorem HashIs.foundHash {v : Option Value} {m : Sds → Option Sds} (h : HashIs v m) :
    (foundHash v).Has m ∧ (foundHash v).Proper := by
  cases h with
  | missing => exact ⟨createHashObject_has, trivial⟩
  | holds hv hp => exact ⟨hv, hp⟩

/-- The key has this value, which stands for the map, and this deadline when a command that writes
comes at `now`. -/
structure HashFound (dbs : ℕ → Db Value) (i : ℕ) (key : Sds) (now : ℕ) (v : Option Value)
    (m : Sds → Option Sds) (t : Option ℤ) : Prop where
  ok : (dbs i).Ok
  found : (dbs i).found key now = (v, t)
  is : HashIs v m

omit [Host] in
theorem fieldNumber_eq {item : Option HashItem} {x : Option Sds}
    (htext : item.map HashItem.text = x)
    (hp : ∀ i ∈ item, i.Proper) (heap : Heap) : (Handler.fieldNumber item heap).1 = number x := by
  subst htext
  rcases item with _ | ⟨e | o⟩
  · rfl
  · have he : e = zipEntry (text e) := hp _ rfl
    have hobj : (e.object heap).1.Denotes (text e) := by
      rw [he, text_zipEntry]
      exact zipEntry_object_denotes _ _
    exact hobj.getLongLongFromObject
  · have ho : o.Denotes (text o) := hp _ rfl
    exact ho.getLongLongFromObject

namespace Handler

variable {c : Client} {s : Server} {key name f arg : Sds} {v : Option Value} {m : Sds → Option Sds}
  {t : Option ℤ}

variable {Q : Post Unit}

theorem wp_hashTypeLookupWriteOrCreate_found (h : HashFound s.dbs c.db key s.now v m t)
    {body : HashVal → Cmd Unit}
    (hQ : ∀ s', KeyPut s.dbs c.db key (some (.hash (foundHash v))) t s'.dbs →
      (body (foundHash v)).Wp c s' Q) :
    (hashTypeLookupWriteOrCreate key body).Wp c s Q := by
  rw [hashTypeLookupWriteOrCreate, wp_bind]
  refine wp_lookupKeyWrite_found h.ok fun s' hput => ?_
  rw [h.found] at hput ⊢
  cases h.is with
  | missing => exact (wp_bind ..).mpr (wp_dbAdd_put hput hQ)
  | holds hv hp => exact hQ s' hput

theorem fails_hashTypeLookupWriteOrCreate (h : HashFound s.dbs c.db key s.now v m t)
    {body : HashVal → Cmd Unit} (hfails : ∀ s', (body (foundHash v)).Fails c s') :
    (hashTypeLookupWriteOrCreate key body).Fails c s := by
  refine .of_wp (wp_lookupKeyWrite_found h.ok fun s' hput => ?_)
  rw [h.found] at hput ⊢
  cases h.is with
  | missing => exact .of_wp (wp_dbAdd_put hput fun s'' _ => hfails s'')
  | holds hv hp => exact hfails s'

theorem wp_fieldNumber {v : HashVal} (hv : v.Has m) (hp : v.Proper) {field : Robj}
    (hf : field.Denotes f)
    {Q : Post (Option ℤ)} (hQ : ∀ s', s'.dbs = s.dbs → Q (number (m f)) c s') :
    (getField v field).Wp c s fun current c s => (inMemory (fieldNumber current)).Wp c s Q := by
  obtain ⟨item, heap', hget, htext, hproper⟩ := hv.hashTypeGet hf s.heap
  rw [getField, wp_bind, wp_inMemory, hget, wp_orHalt_some, wp_inMemory,
    fieldNumber_eq htext (hproper hp)]
  exact hQ _ rfl

omit [Host] in
theorem wp_encodeField (v : HashVal) {argv : List Sds} {i : ℕ} {a : Sds} (hargs : Args c.argv argv)
    (hi : argv[i]? = some a)
    (hQ : ∀ os heap, Args os argv → Q () { c with argv := os } { s with heap := heap }) :
    (encodeField v i).Wp c s Q := by
  cases v with
  | ziplist zl => exact hQ c.argv s.heap hargs
  | ht d => exact wp_encodeArg hargs hi hQ

section

variable (hargs : Args c.argv [name, key, f, arg]) {value : ℤ}
  (hvalue : InRange value) {v : HashVal}

include hargs hvalue

theorem hincrbyCommand.increment_wp {dbs : ℕ → Db Value}
    (h : KeyPut dbs c.db key (some (.hash v)) t s.dbs)
    (hv : v.Has m) (hp : v.Proper) (hroom : ziplistHasRoom v f (ll2string value) = true) :
    (increment key v value).Ends c s fun out dbs' => out = c.out ++ [.int value] ∧
      HashPut dbs c.db key (Function.update m f (some (ll2string value))) t dbs' := by
  rw [Cmd.Ends, increment, wp_bind, wp_inMemory, wp_bind]
  have hnew := (Made.createStringObjectFromLongLong hvalue.1 hvalue.2 rfl s.heap).denotes
  refine wp_encodeField v hargs rfl fun os heap hargs1 => ?_
  have hfield : (os.getD 2 (sharedInteger 0)).Denotes f := hargs1.getD rfl _
  rw [Handler.wp_arg, wp_bind, wp_assert, hfield.text_eq, hnew.text_eq]
  refine ⟨hroom, ?_⟩
  obtain ⟨v', heap', hset, hv', hp', -⟩ := hv.hashTypeSet hfield hnew heap
  rw [wp_bind]
  refine wp_update_put (c := { c with argv := os }) (s := { s with heap := heap }) h
    (by rw [hset]; rfl) fun s2 h2 => ?_
  exact ⟨rfl, _, h2, .holds hv' (hp' hp)⟩

theorem hincrbyCommand.increment_fails (hroom : ziplistHasRoom v f (ll2string value) = false) :
    (increment key v value).Fails c s := by
  have hnew := (Made.createStringObjectFromLongLong hvalue.1 hvalue.2 rfl s.heap).denotes
  refine .of_wp ?_
  rw [wp_inMemory]
  refine .of_wp (wp_encodeField v hargs rfl fun os heap hargs1 => .of_wp ?_)
  have hfield : (os.getD 2 (sharedInteger 0)).Denotes f := hargs1.getD rfl _
  rw [Handler.arg, wp_readP, hfield.text_eq, hnew.text_eq, hroom]
  exact trivial

end

def hashNotInteger : Reply := err "hash value is not an integer"

/-- What a request leaves at the key: the value as it was found, or the map with a new value at the
field. -/
def HincrbyEffect (dbs : ℕ → Db Value) (i : ℕ) (key : Sds) (v : Option Value)
    (m : Sds → Option Sds) (f : Sds) (t : Option ℤ) (out : Reply) (dbs' : ℕ → Db Value) : Prop :=
  (∃ e, out = .error e) ∧ (dbs' = dbs ∨ KeyPut dbs i key v t dbs') ∨
    ∃ n, out = .int n ∧ HashPut dbs i key (Function.update m f (some (ll2string n))) t dbs'

def HincrbyRoom (v : Option Value) (m : Sds → Option Sds) (f arg : Sds) : Prop :=
  ∀ n k, number (m f) = some n → getLongLong arg = some k → InRange (n + k) →
    ziplistHasRoom (foundHash v) f (ll2string (n + k)) = true

section

variable {d : ℕ} {os : List Robj} (hargs : Args os [name, key, f, arg])
  (h : HashFound s.dbs (home d key) key s.now v m t)

include hargs h

theorem hincrbyCommand_wp (hroom : HincrbyRoom v m f arg) :
    hincrbyCommand.Ends (.called d os) s fun out dbs => out =
      [incrbyResult hashNotInteger false (m f) arg] ∧
      HincrbyEffect s.dbs (home d key) key v m f t
        (incrbyResult hashNotInteger false (m f) arg) dbs := by
  obtain ⟨hv, hp⟩ := h.is.foundHash
  refine wp_withLong hargs rfl (fun hnone => ?_) fun k hk => ?_
  · rw [incrbyResult, hnone]
    exact ⟨rfl, .inl ⟨⟨_, rfl⟩, .inl rfl⟩⟩
  rw [incrbyResult, hk]
  dsimp only
  rw [if_neg Bool.false_ne_true]
  have hkr := getLongLong_mem hk
  refine wp_lockKey hargs rfl (wp_hashTypeLookupWriteOrCreate_found h fun s1 h1 => ?_)
  rw [Handler.wp_arg, wp_bind]
  refine (wp_fieldNumber hv hp (hargs.getD rfl _) fun s2 hs2 => ?_).mono fun _ _ _ hwp =>
    (wp_bind ..).mpr hwp
  rw [← hs2] at h1
  have herror : ∀ e, incrResult hashNotInteger (m f) k = .error e →
      HincrbyEffect s.dbs (home d key) key v m f t (.error e) s2.dbs := by
    intro e he
    refine .inl ⟨⟨e, rfl⟩, .inr ?_⟩
    cases h.is with
    | holds _ _ => exact h1
    | missing =>
      -- the new hash has no field, so the number is 0 and the sum is the argument
      have hover : ¬incrOverflows 0 k = true := fun hover =>
        (incrOverflows_iff ⟨by decide, by decide⟩ hkr).mp hover (by rwa [Int.zero_add])
      simp only [incrResult, number, Option.elim_none, if_neg hover] at he
      cases he
  unfold incrResult at herror ⊢
  cases hn : number (m f) with
  | none =>
    rw [hn] at herror
    exact ⟨rfl, herror _ rfl⟩
  | some n =>
    rw [hn] at herror
    rw [withSome]
    dsimp only at herror ⊢
    by_cases hover : incrOverflows n k = true
    · rw [if_pos hover] at herror ⊢
      rw [if_pos hover]
      exact ⟨rfl, herror _ rfl⟩
    · have hsum : InRange (n + k) :=
        not_not.mp fun h => hover ((incrOverflows_iff (number_range hn) hkr).mpr h)
      rw [if_neg hover, if_neg hover]
      exact (hincrbyCommand.increment_wp hargs hsum h1 hv hp (hroom n k hn hk hsum)).mono
        fun _ _ _ hdone =>
        ⟨hdone.1, .inr ⟨_, rfl, hdone.2⟩⟩

theorem hincrbyCommand_fails (hroom : ¬HincrbyRoom v m f arg) :
    hincrbyCommand.Fails (.called d os) s := by
  obtain ⟨hv, hp⟩ := h.is.foundHash
  obtain ⟨n, k, hn, hk, hsum, hfull⟩ : ∃ n k, number (m f) = some n ∧ getLongLong arg = some k ∧
    InRange (n + k) ∧
      ziplistHasRoom (foundHash v) f (ll2string (n + k)) = false := by
    simpa [HincrbyRoom] using hroom
  have hkr := getLongLong_mem hk
  have hover : ¬incrOverflows n k = true := fun hover =>
    (incrOverflows_iff (number_range hn) hkr).mp hover hsum
  refine fails_withLong hargs rfl hk (fails_lockKey hargs rfl ?_)
  refine fails_hashTypeLookupWriteOrCreate h fun s1 => .of_wp ?_
  refine .of_wp ((wp_fieldNumber hv hp (hargs.getD rfl _) fun s2 hs2 => ?_).mono fun _ _ _
    hwp => .of_wp hwp)
  rw [hn, withSome, if_neg hover]
  exact hincrbyCommand.increment_fails hargs hsum hfull

end

end Handler

section

variable {s : Server} {dictid : ℕ} {key : Sds} {now : ℕ} {t : Option ℤ} {world : ℕ → ℤ}

/-- A request on a string is answered exactly, or with an error and without an effect. -/
def Incremented (dictid : ℕ) (proc : Cmd Unit) (argv : List Sds) (now : ℕ)
    (world : ℕ → ℤ) (s : Server)
    (key : Sds) (old : Option Sds) (t : Option ℤ) (neg : Bool) (arg : Sds) : Prop :=
  ∃ out s', call dictid proc argv now world s = some ([out], s') ∧ IncrReply neg old arg out ∧
    Handler.IncrEffect s.dbs (home dictid key) key old t out s'.dbs

/-- HINCRBY is answered exactly, or with an error and without an effect. -/
def Hincremented (dictid : ℕ) (argv : List Sds) (now : ℕ) (world : ℕ → ℤ) (s : Server) (key : Sds)
    (v : Option Value) (m : Sds → Option Sds) (f : Sds) (t : Option ℤ) (arg : Sds) : Prop :=
  ∃ out s', call dictid Handler.hincrbyCommand argv now world s = some ([out], s') ∧
    IncrReply false (m f) arg out ∧
      Handler.HincrbyEffect s.dbs (home dictid key) key v m f t out s'.dbs

variable {proc : Cmd Unit}

theorem exists_call_iff {argv : List Sds} {r : Reply} {E : Reply → (ℕ → Db Value) → Prop}
    (hwp : ∀ {os}, Args os argv → proc.Ends (.called dictid os) (.called argv now s) fun out dbs =>
      out = [r] ∧ E r dbs)
    (P : Reply → Prop) :
    (∃ out s', call dictid proc argv now world s = some ([out], s') ∧ P out ∧ E out s'.dbs) ↔
      P r := by
  obtain ⟨out, s', hcall, rfl, heffect⟩ := call_of_ends hwp world
  constructor
  · rintro ⟨r', s'', hcall', hr', -⟩
    rw [hcall] at hcall'
    cases hcall'
    exact hr'
  · exact fun hr => ⟨r, s', hcall, hr, heffect⟩

section

variable {old : Option Sds} (h : StrFound s.dbs (home dictid key) key now old t)

include h

theorem incremented_iff {argv : List Sds} {neg : Bool} {arg : Sds}
    (hwp : ∀ {os}, Args os argv → StrFound s.dbs (home dictid key) key now old t →
      proc.Ends (.called dictid os) (.called argv now s) fun out dbs =>
        out = [incrbyResult Handler.notAnInteger neg old arg] ∧
          Handler.IncrEffect s.dbs (home dictid key) key old t
          (incrbyResult Handler.notAnInteger neg old arg) dbs) :
    Incremented dictid proc argv now world s key old t neg arg ↔ IncrSeen neg old arg :=
  (exists_call_iff (fun hargs => hwp hargs h) _).trans (incrReply_iff ⟨_, rfl⟩)

theorem incrby_iff (name arg : Sds) (neg : Bool)
    (hproc : proc = do Handler.withLong (← Handler.arg 2) fun k =>
      Handler.incrDecrCommand (if neg then wrap (-k) else k)) :
    Incremented dictid proc [name, key, arg] now world s key old t neg arg ↔
      IncrSeen neg old arg := by
  subst hproc
  exact incremented_iff h fun hargs h' => Handler.incrbyCommand_wp neg hargs h'

theorem incr_iff (name : Sds) (neg : Bool) {incr : ℤ} (hincr : InRange incr)
    (hone : (if neg then wrap (-1) else 1) = incr) :
    Incremented dictid (Handler.incrDecrCommand incr) [name, key] now world s key old t neg [49] ↔
      IncrSeen neg old [49] := by
  refine incremented_iff h fun hargs h' => ?_
  have hres : incrbyResult Handler.notAnInteger neg old [49] =
      incrResult Handler.notAnInteger old incr := by
    rw [← hone]
    rfl
  rw [hres]
  exact (Handler.incrDecrCommand_wp hargs rfl h' hincr).mono fun _ _ _ hdone =>
    ⟨hdone.1, .inr hdone.2⟩

end

theorem hincrby_iff {v : Option Value} {m : Sds → Option Sds}
    (h : HashFound s.dbs (home dictid key) key now v m t) (name f arg : Sds) :
    Hincremented dictid [name, key, f, arg] now world s key v m f t arg ↔
      IncrSeen false (m f) arg ∧ Handler.HincrbyRoom v m f arg := by
  by_cases hroom : Handler.HincrbyRoom v m f arg
  · rw [and_iff_left hroom]
    exact (exists_call_iff (fun hargs => Handler.hincrbyCommand_wp hargs h hroom) _).trans
      (incrReply_iff ⟨_, rfl⟩)
  · refine iff_of_false ?_ fun hno => hroom hno.2
    rintro ⟨out, s', hcall, -⟩
    rw [call_of_fails (fun hargs => Handler.hincrbyCommand_fails hargs h hroom) world] at hcall
    cases hcall

/-- Each of the five commands is exact or has no effect, whatever the value and the argument are, if
and only if it sees the texts as they are (and a ziplist has room for what HINCRBY puts in it). -/
theorem increments_exact_iff (dictid : ℕ) (s : Server) (now : ℕ) (world : ℕ → ℤ) :
    (∀ key old t, StrFound s.dbs (home dictid key) key now old t →
      (Incremented dictid Handler.incrCommand [ascii "incr".toList, key] now world s key old
        t false [49] ↔ IncrSeen false old [49]) ∧
      (Incremented dictid Handler.decrCommand [ascii "decr".toList, key] now world s key
        old t true [49] ↔ IncrSeen true old [49]) ∧
      ∀ arg,
        (Incremented dictid Handler.incrbyCommand [ascii "incrby".toList, key, arg] now world s key
          old t false arg ↔ IncrSeen false old arg) ∧
        (Incremented dictid Handler.decrbyCommand [ascii "decrby".toList, key, arg] now world s key
          old t true arg ↔ IncrSeen true old arg)) ∧
    ∀ key v m t, HashFound s.dbs (home dictid key) key now v m t → ∀ f arg,
      (Hincremented dictid [ascii "hincrby".toList, key, f, arg] now world s key v m f t arg ↔
        IncrSeen false (m f) arg ∧ Handler.HincrbyRoom v m f arg) :=
  ⟨fun _ _ _ h =>
    ⟨incr_iff h _ false ⟨by decide, by decide⟩ rfl, incr_iff h _ true ⟨by decide, by decide⟩ rfl,
      fun arg => ⟨incrby_iff h _ arg false rfl, incrby_iff h _ arg true rfl⟩⟩,
    fun _ _ _ _ h f arg => hincrby_iff h _ f arg⟩

end

end

/-- The string 41, and a hash with the value -7 at one field and a text at another one. -/
theorem increments_exact_stored :
    let _ := Host.plain 1 1 Nat.one_pos
    let v := Value.hash (.ziplist (zipFlat [([102], [45, 55]), ([103], [120])]))
    let m :=
      Function.update (Function.update (fun _ => none) [103] (some [120])) [102] (some [45, 55])
    let s := (Server.single 0 [107] (.str ⟨0, false, .raw [52, 49]⟩)).hold 0 [104] v
    Incremented 0 Handler.incrbyCommand [ascii "incrby".toList, [107], [53]] 0 (fun _ => 0) s [107]
        (some [52, 49]) none false [53] ∧
      Hincremented 0 [ascii "hincrby".toList, [104], [102], [53]] 0 (fun _ => 0) s [104]
        (some v) m [102] none [53] := by
  intro _ v m s
  have hnone :
      KeyIs (Server.single 0 [107] (.str ⟨0, false, .raw [52, 49]⟩)).dbs
        (home 0 [104]) [104] none :=
    (Server.init_keyIs 0 _ _).hold_other (Server.init_keyIs 0 _ _) (by decide) _
  have hstr := ((Server.single_keyIs 0 [107] _).hold_other hnone (by decide) v).strFound
    (rfl : Robj.Denotes ⟨0, false, .raw [52, 49]⟩ [52, 49]) 0
  have hkey := hnone.hold v
  have hl : Logic.Enumerates (K := Sds) (V := Sds) [([102], [45, 55]), ([103], [120])] m :=
    (Logic.Enumerates.nil.cons rfl _).cons rfl _
  have hhash : HashFound s.dbs (home 0 [104]) [104] 0 (some v) m none :=
    ⟨hkey.ok, hkey.found 0, .holds (.ziplist hl (flat_zipFlat _)) trivial⟩
  have hseen : ∀ x, Whole x → IncrSeen false (some x) [53] := fun x hx n k _ _ _ => by
    refine ⟨fun y hy => ?_, by decide, by decide⟩
    cases hy
    exact hx
  have hroom : Handler.HincrbyRoom (some v) m [102] [53] := by
    intro n k hn hk _
    obtain rfl : (-7 : ℤ) = n := Option.some.inj hn
    obtain rfl : (5 : ℤ) = k := Option.some.inj hk
    decide
  have hexact := increments_exact_iff 0 s 0 fun _ => 0
  exact ⟨((hexact.1 [107] _ none hstr).2.2 [53]).1.mpr (hseen _ ⟨by decide, by decide⟩),
    (hexact.2 [104] _ _ none hhash [102] [53]).mpr ⟨hseen _ ⟨by decide, by decide⟩, hroom⟩⟩

/-- An empty string is incremented to 1, and so is a text with a zero byte in it; the smallest
integer is added when it should be subtracted. -/
theorem incr_not_numeral :
    let _ := Host.plain 1 1 Nat.one_pos
    let serve := fun r : Cmd Unit × List Sds => call 0 r.1 r.2 0 fun _ => 0
    numeral [] = none ∧ numeral [48, 0, 97] = none ∧
      (serveAll serve
        [(Handler.setCommand, [ascii "set".toList, [107], []]),
          (Handler.incrCommand, [ascii "incr".toList, [107]]),
          (Handler.setCommand, [ascii "set".toList, [107], [48, 0, 97]]),
          (Handler.incrCommand, [ascii "incr".toList, [107]]),
          (Handler.decrbyCommand, [ascii "decrby".toList, [108],
            ascii "-9223372036854775808".toList])]
        (Server.init 0)).map Prod.fst =
          some [[Handler.ok], [.int 1], [Handler.ok], [.int 1], [.int (-2 ^ 63)]] := by
  decide +kernel

end Vire
