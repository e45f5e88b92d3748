import Vire.Keyspace.Proofs.SetOps

/-!
# SINTER among other clients

Before every lock that SINTER takes other clients may have done anything to the keys.  It is
answered by one error or by one array of the announced length, unless a source disappears after a
member was found in all of them: the members found so far are dropped, but still counted.
-/

namespace Vire

open List Logic Prog Handler

/-- One error, or an array with as many bulk strings as its header says. -/
def Framed (out : List Reply) : Prop :=
  (∃ e, out = [.error e]) ∨ ∃ xs : List Sds, out = .multi xs.length :: xs.map .bulk

theorem framed_multi_iff {k : ℕ} : Framed [.multi k] ↔ k = 0 := by
  constructor
  · rintro (⟨e, he⟩ | ⟨xs, hxs⟩)
    · cases he
    · obtain ⟨hlen, hnil⟩ := cons.inj hxs
      have hnil : xs = [] := map_eq_nil_iff.mp hnil.symm
      rw [hnil] at hlen
      exact Int.ofNat.inj (Reply.multi.inj hlen)
  · rintro rfl
    exact .inr ⟨[], rfl⟩

section

variable [Host]

/-- `call` among other clients, who have brought the server to `env n` when the handler takes a lock
for the `n`-th time. -/
def callAmong (dictid : ℕ) (proc : Cmd Unit) (argv : List Sds) (env : ℕ → Server) (world : ℕ → ℤ)
    (s : Server) : Option (List Reply × Server) :=
  let a := createArgv argv s.heap
  let c : Client := ⟨dictid * Host.dbinum, dictid, none, a.1, []⟩
  (proc.runAmong (fun n _ => env n) world 0 c { s with heap := a.2 }).map fun r =>
    (r.2.1.out, { r.2.2 with heap := r.2.2.heap.freeAll r.2.1.argv })

def lookAt (dictid : ℕ) (env : ℕ → Server) (n : ℕ) (key : Sds) : Option Value :=
  Vire.lookupKeyRead ((env n).dbs (home dictid key)) key (env n).now

/-- All keys hold sets at the first look, and the smallest one still does when it is copied.  Then
its members are looked for in the other sets one after the other; a key is missing at one of these
looks, and at least one member had been found in all sets before. -/
def Vanishes (look : ℕ → Sds → Option Value) (keys : List Sds) (heap : Heap) : Prop :=
  ∃ idx w found, seenSizes look keys 0 none 0 = .found idx ∧
    look keys.length (keys.getD idx []) = some (.set w) ∧
    seenMembers look (keys.eraseIdx idx) (copyOf w heap).texts (keys.length + 1) =
      some (false, found) ∧
    found ≠ []

variable {look : ℕ → Sds → Option Value} {heap : Heap}

theorem Vanishes.of_gone {keys : List Sds} {k : ℕ}
    (h : sinterSeen look keys heap = .gone k) (hk : k ≠ 0) : Vanishes look keys heap := by
  unfold sinterSeen at h
  cases hsizes : seenSizes look keys 0 none 0 with
  | missing => simp [hsizes] at h
  | wrongtype => simp [hsizes] at h
  | found idx =>
    simp only [hsizes] at h
    cases hfound : Found.ofValue (look keys.length (keys.getD idx [])) with
    | missing =>
      simp only [hfound, SinterEnd.gone.injEq] at h
      exact absurd h.symm hk
    | wrongtype =>
      simp only [hfound] at h
      cases h
    | found w =>
      simp only [hfound] at h
      split at h
      · cases h
      · rename_i xs hseen
        refine ⟨idx, w, xs, hsizes, Found.ofValue_eq_found.mp hfound, hseen, ?_⟩
        rintro rfl
        exact hk (SinterEnd.gone.inj h).symm
      · cases h

theorem Vanishes.gone {keys : List Sds}
    (h : Vanishes look keys heap) : ∃ k, k ≠ 0 ∧ sinterSeen look keys heap = .gone k := by
  obtain ⟨idx, w, found, hsizes, hlook, hseen, hne⟩ := h
  refine ⟨found.length, fun hlen => hne (length_eq_zero_iff.mp hlen), ?_⟩
  simp only [sinterSeen, hsizes, Found.ofValue_eq_found.mpr hlook, hseen]

variable {dictid : ℕ} {env : ℕ → Server} {key : Sds} {keys : List Sds}

theorem sees_lookAt :
    Sees dictid (fun n _ s' => s' = env n) (fun _ => True) (lookAt dictid env) where
  lock := by
    rintro n s _ - rfl
    exact ⟨trivial, fun _ => rfl⟩
  heap _ _ := trivial

theorem callAmong_of_wp {proc : Cmd Unit} {argv : List Sds} (Post : List Reply → Prop)
    (h : ∀ c s, Args c.argv argv → c.dictid = dictid → c.out = [] →
      proc.WpAmong (fun n _ s' => s' = env n) 0 c s fun _ _ c _ => Post c.out)
    (world : ℕ → ℤ) (s : Server) :
    ∃ out s', callAmong dictid proc argv env world s = some (out, s') ∧ Post out := by
  obtain ⟨_, _, c', s', hrun, hpost⟩ :=
    (h ⟨dictid * Host.dbinum, dictid, none, (createArgv argv s.heap).1, []⟩
      { s with heap := (createArgv argv s.heap).2 } (createArgv_denotes argv s.heap) rfl rfl).run
      (fun n _ => env n) (fun _ _ => rfl) world
  refine ⟨c'.out, { s' with heap := s'.heap.freeAll c'.argv }, ?_, hpost⟩
  simp only [callAmong, hrun, Option.map_some]

theorem not_vanishes {e : SinterEnd}
    (he : sinterSeen look keys heap = e) (hne : ∀ k, e ≠ .gone k) : ¬ Vanishes look keys heap := by
  intro hvan
  obtain ⟨k, -, hgone⟩ := hvan.gone
  exact hne k (he.symm.trans hgone)

/-- SINTER returns and is well framed, unless a source disappears after a member was found. -/
theorem sinter_framed_iff (hsound : Sound (lookAt dictid env) (key :: keys)) (world : ℕ → ℤ)
    (s : Server) :
    ∃ out s', callAmong dictid sinterCommand (ascii "sinter".toList :: key :: keys) env world s =
        some (out, s') ∧
      (Framed out ↔ ¬ Vanishes (lookAt dictid env) (key :: keys)
        (env (key :: keys).length).heap) := by
  refine callAmong_of_wp (fun out => Framed out ↔ _) (fun c s hargs hdict hout => ?_) world s
  have hkeys : (c.argv.drop 1).map text = key :: keys := hargs.map_text_drop 1
  rw [sinterCommand, wpAmong_bind, args, wpAmong_readP, hkeys]
  refine sinterGenericCommand_wp sees_lookAt ⟨hdict, hout, trivial⟩ hsound (cons_ne_nil _ _)
    (P := fun heap => heap = (env (key :: keys).length).heap) _ rfl
      (fun _ s₁ hs₁ => hs₁ ▸ rfl) ?_ ?_ ?_ ?_
  · rintro _ n' c' s' rfl hseen hat
    change Framed (c'.out ++ [.multi 0]) ↔ _
    rw [hat.out]
    exact iff_of_true (.inr ⟨[], rfl⟩) (not_vanishes hseen (by simp))
  · rintro _ n' c' s' rfl hseen hat
    rw [hat.out]
    exact iff_of_true (.inl ⟨_, rfl⟩) (not_vanishes hseen (by simp))
  · -- the result is dropped, the count is not
    rintro _ k n' c' s' rfl hseen hat
    change Framed (c'.out ++ [.multi k]) ↔ _
    rw [hat.out, nil_append, framed_multi_iff]
    constructor
    · intro hk hvan
      obtain ⟨k', hk', hgone⟩ := hvan.gone
      exact hk' ((SinterEnd.gone.inj (hgone.symm.trans hseen)).trans hk)
    · intro hvan
      by_contra hk
      exact hvan (.of_gone hseen hk)
  · rintro _ xs v n' c' s' rfl hseen hnodup hv hat
    change Framed (c'.out ++ [.multi xs.length] ++ (setTypeElems v).map fun e => .bulk e.text) ↔ _
    have hlen : v.texts.length = xs.length := by
      rw [← hv.ok.size_eq, hv.size_eq, toFinset_card_of_nodup hnodup]
    rw [hat.out, ← hlen]
    refine iff_of_true (.inr ⟨v.texts, ?_⟩) (not_vanishes hseen (by simp))
    rw [SetVal.texts, map_map]
    rfl

end

/-- Before the fourth lock another client puts other members in the second set. -/
theorem sinter_framed_written :
    let _ := Host.plain 1 1 Nat.one_pos
    let env := fun n => holdingTwo (if n < 3 then wordsSet else numbersSet)
    ∃ out s', callAmong 0 sinterCommand [ascii "sinter".toList, [97], [98]] env
      (fun _ => 0) (env 0) =
        some (out, s') ∧
      (Framed out ↔ ¬ Vanishes (lookAt 0 env) [[97], [98]] (env 2).heap) := by
  intro _ env
  refine sinter_framed_iff (fun n key hkey w h => ?_) (fun _ => 0) (env 0)
  obtain ⟨ha, hb, -⟩ := holdingTwo_keyIs (if n < 3 then wordsSet else numbersSet)
  rcases mem_pair.mp hkey with rfl | rfl
  · rw [lookAt, ha.lookupKeyRead] at h
    cases h
    exact ⟨numbersSet_sound.ok, numbersSet_sound.proper⟩
  · rw [lookAt, hb.lookupKeyRead] at h
    cases h
    split_ifs
    · exact ⟨wordsSet_sound.ok, wordsSet_sound.proper⟩
    · exact ⟨numbersSet_sound.ok, numbersSet_sound.proper⟩

/-- Two keys hold the set of 1 and 2.  Before the fifth lock, when 1 has been found in both, another
client removes the members of the second one: SINTER announces one member and sends none. -/
theorem sinter_source_vanishes :
    let _ := Host.plain 1 1 Nat.one_pos
    let serve := fun r : Cmd Unit × List Sds => call 0 r.1 r.2 0 fun _ => 0
    let before := (serveAll serve
      [(saddCommand, [ascii "sadd".toList, [97], [49], [50]]),
        (saddCommand, [ascii "sadd".toList, [98], [49], [50]])] (Server.init 0)).map Prod.snd
    let after := before.bind fun s =>
      (serve (sremCommand, [ascii "srem".toList, [98], [49], [50]]) s).map Prod.snd
    (before.bind fun s => after.bind fun s' =>
        (callAmong 0 sinterCommand [ascii "sinter".toList, [97], [98]]
          (fun n => if n < 4 then s else s')
          (fun _ => 0) s).map Prod.fst) = some [.multi 1] ∧ ¬ Framed [.multi 1] := by
  refine ⟨by decide +kernel, ?_⟩
  rintro (⟨e, he⟩ | ⟨xs, hxs⟩)
  · cases he
  · rcases xs with _ | ⟨x, xs⟩ <;> simp at hxs

end Vire
