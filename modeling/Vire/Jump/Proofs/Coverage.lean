import Vire.Jump.Proofs.Exclusive
import Vire.Jump.Proofs.Execution

/-!
# Whom CLIENT LIST and CLIENT KILL reach

A command that visits all workers meets every client that stays linked to one event loop meanwhile.
A client that itself jumps can be missed.
-/

namespace Vire.Jump

open List

variable {n ncmd : ℕ} {s : Sys} {i w a b d : ℕ} {c x : Cid} {q : Request} {rep : Reply}
  {r : ServerRun n ncmd} {pl : Cid → Place} {st : Prop}

theorem linesOf_append (x : Cid) (l l' : List ClientInfo) :
    linesOf x (l ++ l') = linesOf x l ++ linesOf x l' := by
  simp [linesOf]

variable {k : Client}

theorem linesOf_clients (hnd : (s.loop i).clients.Nodup) (hk : s.client x = some k) :
    linesOf x (getAllClientsInfoString s i) =
      if x ∈ (s.loop i).clients then [k.ident] else [] := by
  unfold getAllClientsInfoString
  generalize (s.loop i).clients = l at hnd
  induction l with
  | nil => rfl
  | cons y ys ih =>
    obtain ⟨hy, hys⟩ := nodup_cons.mp hnd
    by_cases hxy : x = y
    · subst hxy
      have hrest := ih hys
      rw [if_neg hy] at hrest
      rw [filterMap_cons, hk]
      change linesOf x ([catClientInfoString x k] ++ _) = _
      rw [linesOf_append, hrest]
      simp [linesOf, catClientInfoString, Client.ident]
    · have hrest := ih hys
      rw [filterMap_cons]
      simp only [mem_cons, hxy, false_or]
      cases hky : s.client y with
      | none => exact hrest
      | some ky =>
        change linesOf x ([catClientInfoString y ky] ++ _) = _
        rw [linesOf_append, hrest]
        have hne : y ≠ x := fun h => hxy h.symm
        simp [linesOf, catClientInfoString, hne]

theorem ident_of_fixed {k' : Client} (h : k'.fixed = k.fixed) : k'.ident = k.ident := by
  simp only [Client.fixed, Prod.mk.injEq] at h
  simp [Client.ident, h]

theorem selects_of_fixed {k' : Client} (h : k'.fixed = k.fixed) (ckd : ClientKillData) :
    ckd.selects k' = ckd.selects k := by
  simp only [Client.fixed, Prod.mk.injEq] at h
  simp [ClientKillData.selects, h]

theorem Inv.linked (hI : Inv n pl s) (hB : Between st pl) (hx : x ∈ (s.loop i).clients) :
    i < n ∧ (∃ k, s.client x = some k) ∧ ∀ j, x ∈ (s.loop j).clients ↔ j = i := by
  have hph := hI.phase x
  have hiff := hI.placed.clients_iff
  rcases (hiff i x).mp hx with hp | hp | hp
  · rw [hp] at hph
    obtain ⟨hi, k, hk, -⟩ := hph
    exact ⟨hi, ⟨k, hk⟩, fun j => by rw [hiff, hp]; simp [eq_comm]⟩
  · rw [hp] at hph
    obtain ⟨hi, k, hk, -⟩ := hph
    exact ⟨hi, ⟨k, hk⟩, fun j => by rw [hiff, hp]; simp [eq_comm]⟩
  · exact absurd hp (hB.busy x i)

/-- The visit on which a command issued on worker `w` reaches worker `i`. -/
def visitOf (n w i : ℕ) : ℕ := (i + n - w) % n

theorem visitOf_iff (hw : w < n) (hi : i < n) {t : ℕ} (ht : t < n) :
    (w + t) % n = i ↔ t = visitOf n w i := by
  unfold visitOf
  rcases Nat.lt_or_ge i w with h | h
  · rw [Nat.mod_eq_of_lt (by omega : i + n - w < n)]
    constructor
    · intro he
      rcases Nat.lt_or_ge (w + t) n with h' | h'
      · rw [Nat.mod_eq_of_lt h'] at he
        omega
      · rw [Nat.mod_eq_sub_mod h', Nat.mod_eq_of_lt (by omega)] at he
        omega
    · rintro rfl
      rw [show w + (i + n - w) = i + n by omega, Nat.add_mod_right, Nat.mod_eq_of_lt hi]
  · rw [show i + n - w = (i - w) + n by omega, Nat.add_mod_right,
      Nat.mod_eq_of_lt (by omega : i - w < n)]
    constructor
    · intro he
      rcases Nat.lt_or_ge (w + t) n with h' | h'
      · rw [Nat.mod_eq_of_lt h'] at he
        omega
      · rw [Nat.mod_eq_sub_mod h', Nat.mod_eq_of_lt (by omega)] at he
        omega
    · rintro rfl
      rw [show w + (i - w) = i by omega, Nat.mod_eq_of_lt hi]

section

variable (hinv : ∀ m, ∃ pl, Inv n pl (r.state m) ∧ Between st pl)

include hinv

section

variable (hex : Executes r c w q rep a b)

include hex

theorem Executes.lt : w < n := by
  obtain ⟨k0, K, P, s0, s1, hv⟩ := hex.first hinv
  obtain ⟨pl, hI, hB⟩ := hinv a
  exact (hI.linked hB ((hv.linked w).mpr ⟨rfl, rfl⟩)).1

theorem Executes.list_lines (hkind : kind? q = some .list) (hd : d < n) {id : ℕ × ℤ × Sds}
    (hseen : ∀ m t k0 K P s0 s1, a ≤ m → m ≤ b → t < n → Visit n c w q ((r.state a).hist c) t k0 K P
      (r.state m) s0 s1 (r.state (m + 1)) →
      linesOf x (getAllClientsInfoString s0 ((w + t) % n)) = if t = d then [id] else []) :
    ∃ lines, rep = .clientList lines ∧ linesOf x lines = [id] := by
  have hcollects : ∀ {m t k0 K P s0 s1}, Visit n c w q ((r.state a).hist c) t k0 K P (r.state m) s0
      s1 (r.state (m + 1)) → P =
        .list (cachedLines k0 ++ getAllClientsInfoString s0 ((w + t) % n)) := by
    intro m t k0 K P s0 s1 hv
    have hK : some K = some .list := hv.ran.ready.kind.symm.trans hkind
    cases hK
    exact hv.ran.collects
  obtain ⟨P, ⟨str, rfl, hlines⟩, rfl⟩ := hex.collect hinv
    (fun t P => ∃ str, P = .list str ∧ linesOf x str = if d ≤ t then [id] else [])
    (by
      intro k0 K P s0 s1 hv
      refine ⟨_, hcollects hv, ?_⟩
      rw [linesOf_append, cachedLines, hv.cache rfl,
        hseen a 0 k0 K P s0 s1 le_rfl hex.le (Nat.zero_lt_of_lt hd) hv]
      simp [linesOf, eq_comm])
    (by
      rintro m t k0 K P s0 s1 ham hmb ht ⟨str, hcache, hstr⟩ hv
      refine ⟨_, hcollects hv, ?_⟩
      rw [linesOf_append, cachedLines, hcache, hstr, hseen m (t + 1) k0 K P s0 s1 ham.le hmb ht hv]
      by_cases h1 : d ≤ t
      · rw [if_pos h1, if_neg (by omega), if_pos (by omega), append_nil]
      · by_cases h2 : t + 1 = d
        · rw [if_neg h1, if_pos h2, if_pos (by omega), nil_append]
        · rw [if_neg h1, if_neg h2, if_neg (by omega), append_nil])
  exact ⟨str, rfl, by rwa [if_pos (by omega)] at hlines⟩

theorem Executes.list_self (hkind : kind? q = some .list) (hk : (r.state a).client c = some k) :
    ∃ lines, rep = .clientList lines ∧ linesOf c lines = [k.ident] := by
  refine hex.list_lines hinv hkind (Nat.zero_lt_of_lt (hex.lt hinv)) ?_
  intro m t k0 K P s0 s1 ham hmb ht hv
  obtain ⟨pl, hI, -⟩ := hinv m
  obtain ⟨k1, hk1, hfix⟩ := hv.fixed
  obtain ⟨k2, hk2, hfix'⟩ := connected_between hinv hk le_rfl ham hk1
  rw [hk] at hk2
  cases hk2
  have hiff : c ∈ ((r.state m).loop ((w + t) % n)).clients ↔ t = 0 := by
    rw [hv.linked]
    refine ⟨And.left, fun h0 => ⟨h0, ?_⟩⟩
    rw [h0]
    exact Nat.mod_eq_of_lt (hex.lt hinv)
  rw [linesOf_clients (by rw [hv.ran.loop]; exact hI.placed.clients_nodup _) hv.ran.self,
    hv.ran.loop, ident_of_fixed (hfix.trans hfix')]
  exact if_congr hiff rfl rfl

theorem Executes.list_linked
    (hkind : kind? q = some .list) (hk : (r.state a).client x = some k) (hx : x ≠ c)
    (hstay : ∀ m, a ≤ m → m ≤ b → x ∈ ((r.state m).loop i).clients) :
    ∃ lines, rep = .clientList lines ∧ linesOf x lines = [k.ident] := by
  obtain ⟨_, hI, hB⟩ := hinv a
  have hi := (hI.linked hB (hstay a le_rfl hex.le)).1
  refine hex.list_lines hinv hkind (d := visitOf n w i) (Nat.mod_lt _ (Nat.zero_lt_of_lt hi)) ?_
  intro m t k0 K P s0 s1 ham hmb ht hv
  obtain ⟨pl, hI, hB⟩ := hinv m
  obtain ⟨-, ⟨k1, hk1⟩, hloops⟩ := hI.linked hB (hstay m ham hmb)
  obtain ⟨k2, hk2, hfix⟩ := connected_between hinv hk le_rfl ham hk1
  rw [hk] at hk2
  cases hk2
  rw [linesOf_clients (by rw [hv.ran.loop]; exact hI.placed.clients_nodup _)
    ((hv.ran.others x hx).trans hk1), hv.ran.loop, ident_of_fixed hfix]
  exact if_congr ((hloops _).trans (visitOf_iff (hex.lt hinv) hi ht)) rfl rfl

theorem Executes.kill_linked {ckd : ClientKillData} (hkind : kind? q = some (.kill ckd))
    (hk : (r.state a).client x = some k) (hsel : ckd.selects k = true) (hx : x ≠ c)
    (hstay : ∀ m, a ≤ m → m ≤ b + 1 → x ∈ ((r.state m).loop i).clients) : False := by
  obtain ⟨_, hI, hB⟩ := hinv a
  have hi := (hI.linked hB (hstay a le_rfl (Nat.le_succ_of_le hex.le))).1
  have hw := hex.lt hinv
  -- the visit to worker `i` would close `x`
  have hmiss : ∀ m t k0 K P s0 s1, a ≤ m → m ≤ b → t < n → Visit n c w q ((r.state a).hist c) t k0 K
      P (r.state m) s0 s1 (r.state (m + 1)) → t ≠ visitOf n w i := by
    intro m t k0 K P s0 s1 ham hmb ht hv heq
    have hwi : (w + t) % n = i := (visitOf_iff hw hi ht).mpr heq
    have hran := hv.ran
    rw [hwi] at hran
    have hK : some K = some (.kill ckd) := hran.ready.kind.symm.trans hkind
    cases hK
    obtain ⟨pl, hI, hB⟩ := hinv m
    have hmem := hstay m ham (by omega)
    obtain ⟨-, ⟨k1, hk1⟩, -⟩ := hI.linked hB hmem
    obtain ⟨k2, hk2, hfix⟩ := connected_between hinv hk le_rfl ham hk1
    rw [hk] at hk2
    cases hk2
    have hcloses : ckd.closes (r.state m) c x = true := by
      simp [ClientKillData.closes, hk1, selects_of_fixed hfix, hsel, hx]
    have hnone := hran.closed ckd rfl (hI.placed.clients_nodup i) x hmem hx hcloses
    obtain ⟨pl', hI', hB'⟩ := hinv (m + 1)
    obtain ⟨-, ⟨k', hk'⟩, -⟩ := hI'.linked hB' (hstay (m + 1) (by omega) (by omega))
    rw [hv.after.others x hx, hnone] at hk'
    cases hk'
  have hd : visitOf n w i < n := Nat.mod_lt _ (Nat.zero_lt_of_lt hi)
  obtain ⟨P, hlt, -⟩ := hex.collect hinv (fun t _ => t < visitOf n w i)
    (by
      intro k0 K P s0 s1 hv
      have := hmiss a 0 k0 K P s0 s1 le_rfl hex.le (by omega) hv
      omega)
    (by
      intro m t k0 K P s0 s1 ham hmb ht hlt hv
      have := hmiss m (t + 1) k0 K P s0 s1 ham.le hmb ht hv
      omega)
  omega

end

end

/-- The reply of a CLIENT LIST has exactly one line about the client that issued it, and about each
client that stays linked to one event loop.  After a CLIENT KILL no other client that its filter
selects is connected, unless it left the event loop it was linked to. -/
theorem covers_linked (hn : 0 < n) (r : ServerRun n ncmd) (hr : r.Meets Tidy)
    (hex : Executes r c w q rep a b) :
    (kind? q = some .list → ∃ lines, rep = .clientList lines ∧
      ∀ x k, (r.state a).client x = some k →
        (x = c ∨ ∃ i, ∀ m, a ≤ m → m ≤ b → x ∈ ((r.state m).loop i).clients) →
        linesOf x lines = [k.ident]) ∧
    ∀ ckd, kind? q = some (.kill ckd) →
      ∀ x k, x ≠ c → (r.state a).client x = some k → ckd.selects k = true →
        (∃ i, ∀ m, a ≤ m → m ≤ b + 1 → (r.state m).client x ≠ none →
          x ∈ ((r.state m).loop i).clients) →
        (r.state (b + 1)).client x = none := by
  have hinv := inv_of_run hn r hr
  constructor
  · intro hkind
    obtain ⟨k₀, K, P, s₀, s₁, hv⟩ := hex.first hinv
    obtain ⟨kc, hkc, -⟩ := hv.fixed
    obtain ⟨lines, rfl, hself⟩ := hex.list_self hinv hkind hkc
    refine ⟨lines, rfl, fun x k hk hx => ?_⟩
    by_cases hxc : x = c
    · subst hxc
      rw [hkc] at hk
      cases hk
      exact hself
    · obtain ⟨i, hstay⟩ := hx.resolve_left hxc
      obtain ⟨_, ⟨⟩, hlines⟩ := hex.list_linked hinv hkind hk hxc hstay
      exact hlines
  · rintro ckd hkind x k hxc hk hsel ⟨i, hstay⟩
    by_contra hne
    obtain ⟨k', hk'⟩ := Option.ne_none_iff_exists'.mp hne
    refine hex.kill_linked hinv hkind hk hsel hxc fun m ham hmb => hstay m ham hmb ?_
    obtain ⟨k₁, hk₁, -⟩ := connected_between hinv hk ham hmb hk'
    simp [hk₁]

/-- Two workers with one client each; the first client issues `q`. -/
def askBoth (q : Request) : List Act :=
  connects 0 5 ++ connects 1 6 ++
    [.readQuery 0 0 (.data [q]), .input 0 true, .dispatch 0 true, .readCuridx 0 0, .write 0 true,
    .masterRead 0 true, .masterPop, .masterPush, .masterWrite true, .read 1 true,
    .pop 1 .failed true]

theorem covers_linked_askBoth : ∃ (r : ServerRun 2 0) (lines : List ClientInfo),
    Executes r 0 0 clientListRequest (.clientList lines) 9 18 ∧
      linesOf 0 lines = [(1, 5, [])] ∧ linesOf 1 lines = [(1, 6, [])] := by
  let r : ServerRun 2 0 := .ofList (askBoth clientListRequest) (by decide)
  have hex : Executes r 0 0 clientListRequest
      (.clientList [⟨0, 0, 1, [], 5, ['N']⟩, ⟨1, 1, 1, [], 6, ['N']⟩]) 9 18 :=
    ⟨by decide, by decide, by decide⟩
  obtain ⟨lines, hlines, hcov⟩ :=
    (covers_linked (by decide) r (Logic.Run.ofList_meets _ (by decide)) hex).1 (by decide)
  refine ⟨r, lines, hlines ▸ hex, ?_, ?_⟩
  · exact hcov 0 { newClient 1 0 5 [] with querybuf := [clientListRequest] } (by decide) (.inl rfl)
  · refine hcov 1 (newClient 1 1 6 []) (by decide) (.inr ⟨1, ?_⟩)
    have hstay : ∀ m, m < 19 → 9 ≤ m → 1 ∈ ((r.state m).loop 1).clients := by decide
    exact fun m ham hmb => hstay m (by omega) ham

def commandStatsRequest : Request := ⟨.command, [ascii ['s', 't', 'a', 't', 's']], 0, 0⟩

def killNormalRequest : Request :=
  ⟨.client, [ascii ['k', 'i', 'l', 'l'], ascii ['t', 'y', 'p', 'e'],
    ascii ['n', 'o', 'r', 'm', 'a', 'l']], 0, 0⟩

/-- The second client jumps from worker 1 to worker 0 while the request of the first one is between
its two visits. -/
def crossing (q : Request) : List Act :=
  connects 0 5 ++ connects 1 6 ++
    [.readQuery 1 1 (.data [commandStatsRequest]), .input 1 true, .dispatch 1 true, .readCuridx 1 0,
    .write 1 true, .masterRead 1 true, .masterPop, .masterPush, .masterWrite true,
    .readQuery 0 0 (.data [q]), .input 0 true, .dispatch 0 true, .readCuridx 0 0, .write 0 true,
    .read 0 true, .pop 0 .failed true, .input 0 true, .masterRead 0 true, .masterPop, .masterPush,
    .masterWrite true, .read 1 true, .pop 1 .failed true]

/-- On lossless socket pairs a client that is connected all the time has no line in the reply of a
CLIENT LIST, and a CLIENT KILL that selects it does not close it. -/
theorem crossing_missed :
    (∃ (r : ServerRun 2 0) (lines : List ClientInfo),
      (r.Meets fun _ a => Lossless a) ∧ r.Meets Careful ∧
      Executes r 0 0 clientListRequest (.clientList lines) 18 30 ∧
      (∀ m < 32, 18 ≤ m → (r.state m).client 1 ≠ none) ∧ linesOf 1 lines = []) ∧
    ∃ (r : ServerRun 2 0) (ckd : ClientKillData),
      (r.Meets fun _ a => Lossless a) ∧ r.Meets Careful ∧
      Executes r 0 0 killNormalRequest (.killed 0) 18 30 ∧
      kind? killNormalRequest = some (.kill ckd) ∧
      ∀ m < 32, 18 ≤ m → ((r.state m).client 1).map ckd.selects = some true := by
  constructor
  · let r : ServerRun 2 0 := .ofList (crossing clientListRequest) (by decide)
    exact ⟨r, [⟨0, 0, 1, [], 5, ['N']⟩], Logic.Run.ofList_meets _ (by decide),
      Logic.Run.ofList_meets _ (by decide), ⟨by decide, by decide, by decide⟩, by decide, by decide⟩
  · let r : ServerRun 2 0 := .ofList (crossing killNormalRequest) (by decide)
    exact ⟨r, ⟨none, some .normal, 0, true, 0, false⟩, Logic.Run.ofList_meets _ (by decide),
      Logic.Run.ofList_meets _ (by decide), ⟨by decide, by decide, by decide⟩, by decide, by decide⟩

end Vire.Jump
