import Vire.Keyspace.Proofs.Bits
import Vire.Keyspace.Proofs.ListCommands
import Vire.Keyspace.Proofs.String

/-!
# Ranges of bytes

GETRANGE and BITCOUNT take the bytes at the indexes that LRANGE selects in a list of the same
length, except where the end of the range is in front of the first byte: it is moved to the first
byte, and a range that starts there, or in front of it too, is no longer empty.
-/

namespace Vire

open List Option Logic Prog

def slice {α : Type} (l : List α) (start stop : ℤ) : List α :=
  (selected l.length start stop).filterMap (l[·]?)

/-- The whole range is in front of the first byte, and its start is moved to the first byte. -/
def EndsBefore (n : ℕ) (start stop : ℤ) : Prop := 0 < n ∧ stop < -n ∧ (start = 0 ∨ start ≤ -n)

section

variable {x : Sds} {start stop : ℤ}

theorem endsBefore_iff (n : ℕ) : EndsBefore n start stop ↔
    0 < n ∧ (convertIndexes start stop n).1 = 0 ∧ (convertIndexes start stop n).2 < 0 := by
  simp only [EndsBefore, convertIndexes]
  omega

theorem byteRange_snd_of_nil (h : x.length = 0) :
    (byteRange start stop x.length).2 < (byteRange start stop x.length).1 := by
  have := convertIndexes_nonneg start stop x.length
  simp only [byteRange, clampStop]
  omega

theorem bytesOf_byteRange (h : ¬EndsBefore x.length start stop) :
    Handler.bytesOf x (byteRange start stop x.length) = slice x start stop := by
  have hpos := convertIndexes_nonneg start stop x.length
  rw [endsBefore_iff] at h
  rw [slice, ← listSlice_eq_selected, listSlice_eq]
  dsimp only [Handler.bytesOf, byteRange]
  rw [take_eq_take_iff, length_drop, clampStop]
  omega

def rangeBytes (x : Sds) (start stop : ℤ) : Sds :=
  let r := byteRange start stop x.length
  if r.2 < r.1 then [] else Handler.bytesOf x r

theorem rangeBytes_of_not_endsBefore (h : ¬EndsBefore x.length start stop) :
    rangeBytes x start stop = slice x start stop := by
  rw [← bytesOf_byteRange h]
  dsimp only [rangeBytes]
  split_ifs with hempty
  · rw [Handler.bytesOf, Int.toNat_of_nonpos (by omega), take_zero]
  · rfl

theorem rangeBytes_of_endsBefore (h : EndsBefore x.length start stop) :
    slice x start stop = [] ∧ ∃ b t, x = b :: t ∧ rangeBytes x start stop = [b] := by
  obtain ⟨hpos, hfirst, hlast⟩ := (endsBefore_iff x.length).mp h
  refine ⟨?_, ?_⟩
  · rw [slice, ← listSlice_eq_selected]
    exact listSlice_empty (.inl (by omega))
  · obtain ⟨b, t, rfl⟩ := exists_cons_of_length_pos hpos
    have hrange : byteRange start stop (b :: t).length = (0, 0) := by
      rw [byteRange, hfirst, if_pos hlast, clampStop, if_neg (by omega)]
    refine ⟨b, t, rfl, ?_⟩
    rw [rangeBytes, hrange]
    rfl

theorem rangeBytes_eq_iff :
    rangeBytes x start stop = slice x start stop ↔ ¬EndsBefore x.length start stop := by
  refine ⟨fun heq h => ?_, rangeBytes_of_not_endsBefore⟩
  obtain ⟨hslice, b, t, -, hbytes⟩ := rangeBytes_of_endsBefore h
  rw [hslice, hbytes] at heq
  cases heq

theorem ones_singleton_eq_zero (b : UInt8) : ones [b] = 0 ↔ b = 0 := by
  have htable : ∀ n < 256, bitsinbyte.getD n 0 = 0 ↔ n = 0 := by decide +kernel
  rw [ones_eq_sum, map_singleton, sum_singleton, ← UInt8.toNat_inj]
  exact htable _ b.toNat_lt

theorem ones_rangeBytes_eq_iff : ones (rangeBytes x start stop) = ones (slice x start stop) ↔
    ¬(EndsBefore x.length start stop ∧ x.head? ≠ some 0) := by
  by_cases h : EndsBefore x.length start stop
  · obtain ⟨hslice, b, t, rfl, hbytes⟩ := rangeBytes_of_endsBefore h
    rw [hslice, hbytes, ones_nil, ones_singleton_eq_zero, head?_cons, and_iff_right h, not_not,
      some.injEq]
  · rw [rangeBytes_of_not_endsBefore h]
    simp [h]

end

section

variable [Host]

namespace Handler

variable {d : ℕ} {os : List Robj} {s : Server} {key name a b : Sds} {start stop : ℤ}
  {x : Option Sds} (hargs : Args os [name, key, a, b])
  (h : StrIs (Vire.lookupKeyRead (s.dbs (home d key)) key s.now) x)
  (ha : getLongLong a = some start) (hb : getLongLong b = some stop)

include hargs h ha hb

theorem getrangeCommand_wp :
    getrangeCommand.Ends (.called d os) s fun out dbs =>
      out = [.bulk (rangeBytes (x.getD []) start stop)] ∧ dbs = s.dbs := by
  rw [Cmd.Ends, getrangeCommand, wp_arg, wp_arg, withLong,
    (hargs.getD rfl _).getLongLongFromObject, ha, withSome, withLong,
      (hargs.getD rfl _).getLongLongFromObject, hb,
    withSome]
  refine wp_readKey_str hargs rfl h (fun hx => ⟨?_, rfl⟩) fun y o hx ho => ⟨?_, rfl⟩
  · rw [hx, getD_none, rangeBytes, if_pos (byteRange_snd_of_nil rfl)]
    rfl
  · change [_] = _
    rw [hx, getD_some, ho.text_eq]
    by_cases hempty : (byteRange start stop y.length).2 < (byteRange start stop y.length).1
    · rw [rangeBytes, if_pos hempty, if_pos (.inl hempty)]
      rfl
    · have hne : y.length ≠ 0 := fun hnil => hempty (byteRange_snd_of_nil hnil)
      rw [rangeBytes, if_neg hempty, if_neg (not_or.mpr ⟨hempty, hne⟩)]

theorem bitcountCommand_wp :
    bitcountCommand.Ends (.called d os) s fun out dbs =>
      out = [.int (ones (rangeBytes (x.getD []) start stop))] ∧ dbs = s.dbs := by
  refine wp_readKey_str hargs rfl h (fun hx => ⟨?_, rfl⟩) fun y o hx ho => ?_
  · rw [hx, getD_none, rangeBytes, if_pos (byteRange_snd_of_nil rfl), ones_nil]
    rfl
  · have hargc : os.length = 4 := hargs.length_eq
    rw [wp_argc, wp_bind, hargc]
    refine wp_someNat fun p => ?_
    rw [if_pos rfl, wp_arg, wp_arg, withLongLocked,
      (hargs.getD rfl _).getLongLongFromObject, ha, withSome, withLongLocked,
      (hargs.getD rfl _).getLongLongFromObject, hb, withSome, ho.text_eq, hx, getD_some]
    refine ⟨?_, rfl⟩
    change [_] = _
    rw [redisPopcount_eq, rangeBytes]
    split_ifs
    · rw [ones_nil]
      rfl
    · rfl

end Handler

/-- The request is answered in this way, and leaves the databases as they are. -/
def Replies (dictid : ℕ) (proc : Cmd Unit) (argv : List Sds) (now : ℕ) (world : ℕ → ℤ) (s : Server)
    (out : List Reply) : Prop :=
  ∃ s', call dictid proc argv now world s = some (out, s') ∧ s'.dbs = s.dbs

section

variable {s : Server} {dictid : ℕ} {now : ℕ} {world : ℕ → ℤ} {key a b : Sds}

theorem Replies.iff_eq {proc : Cmd Unit} {argv : List Sds} {out out' : List Reply}
    (h : Replies dictid proc argv now world s out) :
    Replies dictid proc argv now world s out' ↔ out = out' := by
  refine ⟨fun ⟨s1, h1, _⟩ => ?_, fun heq => heq ▸ h⟩
  obtain ⟨s2, h2, -⟩ := h
  rw [h1, some.injEq, Prod.mk.injEq] at h2
  exact h2.1.symm

theorem replies_of_ends {proc : Cmd Unit} {argv : List Sds} {out : List Reply}
    (h : ∀ {os}, Args os argv → proc.Ends (.called dictid os) (.called argv now s) fun o dbs =>
      o = out ∧ dbs = s.dbs) :
    Replies dictid proc argv now world s out := by
  obtain ⟨_, s', hcall, rfl, hdbs⟩ := call_of_ends h world
  exact ⟨s', hcall, hdbs⟩

/-- For a string of any length, or none, and all indexes: GETRANGE sends the bytes at the selected
indexes, unless the range ends before the first byte and its start is moved there; BITCOUNT counts
the ones in them, unless the first byte has any then.  LRANGE sends the elements of a list at the
same indexes. -/
theorem byte_ranges_iff {x : Option Sds} {start stop : ℤ}
    (h : StrIs (lookupKeyRead (s.dbs (home dictid key)) key now) x)
    (ha : getLongLong a = some start) (hb : getLongLong b = some stop) :
    (Replies dictid Handler.getrangeCommand [ascii "getrange".toList, key, a, b] now world s
        [.bulk (slice (x.getD []) start stop)] ↔ ¬EndsBefore (x.getD []).length start stop) ∧
    (Replies dictid Handler.bitcountCommand [ascii "bitcount".toList, key, a, b] now world s
        [.int (ones (slice (x.getD []) start stop))] ↔
      ¬(EndsBefore (x.getD []).length start stop ∧ (x.getD []).head? ≠ some 0)) ∧
    ∀ lkey peak l, ListAt peak s.dbs (home dictid lkey) lkey l →
      ∃ s', call dictid Handler.lrangeCommand [ascii "lrange".toList, lkey, a, b] now world s =
        some (.multi (slice l start stop).length :: (slice l start stop).map .bulk, s') := by
  refine ⟨?_, ?_, fun lkey peak l hl => ?_⟩
  · have hreplies :
      Replies dictid Handler.getrangeCommand [ascii "getrange".toList, key, a, b] now world s
        [.bulk (rangeBytes (x.getD []) start stop)] :=
      replies_of_ends fun hargs => Handler.getrangeCommand_wp hargs h ha hb
    rw [hreplies.iff_eq, singleton_inj, Reply.bulk.injEq, rangeBytes_eq_iff]
  · have hreplies :
      Replies dictid Handler.bitcountCommand [ascii "bitcount".toList, key, a, b] now world s
        [.int (ones (rangeBytes (x.getD []) start stop))] :=
      replies_of_ends fun hargs => Handler.bitcountCommand_wp hargs h ha hb
    rw [hreplies.iff_eq, singleton_inj, Reply.int.injEq, Nat.cast_inj, ones_rangeBytes_eq_iff]
  · obtain ⟨_, s', hcall, rfl, -⟩ := call_of_ends
      (fun hargs : Args _ [ascii "lrange".toList, lkey, a, b] =>
        Handler.lrangeCommand_wp (s := .called _ now s) hl hargs) world
    refine ⟨s', hcall.trans ?_⟩
    rw [ListCmd.eval, evalRange, ha, hb]
    dsimp only
    rw [listSlice_eq_selected, slice]

end

end

/-- The bytes of `foobar` from 1 to -2, and the ones in them. -/
theorem byte_ranges_stored :
    let _ := Host.plain 1 1 Nat.one_pos
    let s := Server.single 0 [107] (.str ⟨0, false, .raw [102, 111, 111, 98, 97, 114]⟩)
    Replies 0 Handler.getrangeCommand [ascii "getrange".toList, [107], [49], [45, 50]] 0
      (fun _ => 0) s
        [.bulk [111, 111, 98, 97]] ∧
      Replies 0 Handler.bitcountCommand [ascii "bitcount".toList, [107], [49], [45, 50]] 0
        (fun _ => 0) s [.int 18] := by
  intro _ s
  have h : StrIs (lookupKeyRead (s.dbs (home 0 [107])) [107] (0 : ℕ))
      (some [102, 111, 111, 98, 97, 114]) := by
    rw [(Server.single_keyIs 0 [107] _).lookupKeyRead]
    exact .holds rfl
  have ha : getLongLong [49] = some 1 := rfl
  have hb : getLongLong [45, 50] = some (-2) := rfl
  have hslice : slice [102, 111, 111, 98, 97, 114] 1 (-2) = ([111, 111, 98, 97] : Sds) := by decide
  have hones : (ones [111, 111, 98, 97] : ℤ) = 18 := by
    rw [ones_eq_sum]
    decide
  have hafter : ¬EndsBefore 6 1 (-2) := by
    unfold EndsBefore
    decide
  rw [← hslice, ← hones, ← hslice]
  exact ⟨(byte_ranges_iff h ha hb).1.mpr hafter,
    (byte_ranges_iff h ha hb).2.1.mpr fun h => hafter h.1⟩

/-- The bytes of `abc` from 0 to -5: there is none, but GETRANGE sends the first one, and BITCOUNT
counts its three ones. -/
theorem getrange_before_first :
    let _ := Host.plain 1 1 Nat.one_pos
    let serve := fun r : Cmd Unit × List Sds => call 0 r.1 r.2 0 fun _ => 0
    slice [97, 98, 99] 0 (-5) = ([] : Sds) ∧
      (serveAll serve
        [(Handler.setCommand, [ascii "set".toList, [107], [97, 98, 99]]),
          (Handler.getrangeCommand, [ascii "getrange".toList, [107], [48], [45, 53]]),
          (Handler.bitcountCommand, [ascii "bitcount".toList, [107], [48], [45, 53]])]
        (Server.init 0)).map Prod.fst = some [[Handler.ok], [.bulk [97]], [.int 3]] := by
  decide +kernel

end Vire
