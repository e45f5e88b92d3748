import Vire.Proto.Request

/-!
# Serving a stream of requests

`Stages` says how the parser of a protocol goes through a stream; from it follows what holds of the
client after every read and jump (`Stages.Inv`).
-/

namespace Vire.Proto

open List

/-- The client after the server has read `received`, in reads of at most the length asked for.
While a client jumps nothing is read from it. -/
inductive Reads (exec : List (List Sds) → Outcome) : Sds → Client → Prop
  | start : Reads exec [] newClient
  | read {received bytes : Sds} {c c' : Client} (h : Reads exec received c) (hj : c.jump = false)
      (hg : c.gone = false) (hne : bytes ≠ []) (hlen : (bytes.length : ℤ) ≤ readlen c)
      (hc : readQueryFromClient exec c bytes = some c') : Reads exec (received ++ bytes) c'
  | jumpDone {received : Sds} {c c' : Client} (h : Reads exec received c) (hj : c.jump = true)
      {close : Bool} (he : exec c.handed = .jump close) (hc : jumpDone exec c close = some c') :
      Reads exec received c'

/-- The parser changed no other field. -/
def Kept (c c' : Client) : Prop :=
  c'.reqtype = c.reqtype ∧ c'.closeAfterReply = c.closeAfterReply ∧ c'.jump = c.jump ∧
    c'.gone = c.gone ∧ c'.errors = c.errors ∧ c'.handed = c.handed

theorem Kept.refl (c : Client) : Kept c c := ⟨rfl, rfl, rfl, rfl, rfl, rfl⟩

theorem Kept.trans {c c' c'' : Client} (h : Kept c c') (h' : Kept c' c'') : Kept c c'' := by
  obtain ⟨h1, h2, h3, h4, h5, h6⟩ := h
  obtain ⟨k1, k2, k3, k4, k5, k6⟩ := h'
  exact ⟨k1.trans h1, k2.trans h2, k3.trans h3, k4.trans h4, k5.trans h5, k6.trans h6⟩

theorem setReqtype_eq (c : Client) :
    setReqtype c = { c with reqtype := (setReqtype c).reqtype } := by
  unfold setReqtype
  split_ifs <;> rfl

/-- How a parser goes through `stream`, which stands for `requests`.  `future` is what has not
arrived yet. -/
structure Stages where
  stream : Sds
  requests : List (List Sds)
  kind : ReqType → Prop
  /-- At the top of the loop of `processInputBuffer`. -/
  here : Client → Sds → Prop
  /-- The next request has not arrived as a whole. -/
  waits : Client → Sds → Prop
  /-- Some requests have been handed over, and the others begin in the buffer. -/
  between : List (List Sds) → Sds → Sds → Prop
  start : waits newClient stream
  kind_unknown : kind .unknown
  waits_nil {c : Client} {future : Sds} : here c future → c.querybuf = [] → waits c future
  waits_readlen {c : Client} {future : Sds} : waits c future → 0 < readlen c
  waits_read {c : Client} {bytes future : Sds} : waits c (bytes ++ future) →
    (bytes.length : ℤ) ≤ readlen c → here { c with querybuf := c.querybuf ++ bytes } future ∧
      (c.querybuf ++ bytes).length ≤ protoMaxQuerybufLen
  between_handed {handed : List (List Sds)} {buf future : Sds} : between handed buf future →
    handed <+: requests
  between_reset {c : Client} {future : Sds} : between c.handed c.querybuf future →
    here (resetClient { c with jump := false }) future
  parse {c : Client} {future : Sds} : here c future → c.querybuf ≠ [] →
    ∃ c' ok, processBuffer (setReqtype c) = some (c', ok) ∧ Kept (setReqtype c) c' ∧
      kind c'.reqtype ∧ (ok = false → waits c' future) ∧
      (ok = true → c'.bulklen = none ∧ c'.querybuf.length < c.querybuf.length ∧
        between (c'.handed ++ if c'.argv = [] then [] else [c'.argv]) c'.querybuf future)

section

variable (exec : List (List Sds) → Outcome)

/-- Some command that was handed over ended the connection. -/
def Ended (c : Client) : Prop :=
  ∃ k ≤ c.handed.length, (exec (c.handed.take k)).stays = false

namespace Stages

variable (S : Stages)

structure Inv (c : Client) (future : Sds) : Prop where
  errors : c.errors = []
  kind : S.kind c.reqtype
  handed : c.handed <+: S.requests
  /-- A client that is served waits for bytes. -/
  served : c.jump = false → c.gone = false → c.closeAfterReply = false → S.waits c future
  jumps : c.jump = true → c.gone = false ∧ c.closeAfterReply = false ∧
    S.between c.handed c.querybuf future
  closing : c.closeAfterReply = true → c.bulklen = none
  ended : c.closeAfterReply = true ∨ c.gone = true → Ended exec c

structure Served (c : Client) : Prop where
  errors : c.errors = []
  kind : S.kind c.reqtype
  handed : c.handed <+: S.requests
  jump : c.jump = false
  gone : c.gone = false

structure Top (c : Client) (future : Sds) : Prop extends S.Served c where
  here : c.closeAfterReply = false → S.here c future
  closing : c.closeAfterReply = true → c.bulklen = none
  ended : c.closeAfterReply = true → Ended exec c

end Stages

end

variable {exec : List (List Sds) → Outcome} {c : Client} {future : Sds}

theorem Ended.of_last (h : (exec c.handed).stays = false) : Ended exec c :=
  ⟨c.handed.length, le_rfl, by rwa [take_length]⟩

namespace Stages

variable {S : Stages}

theorem Served.inv (h : S.Served c) (hw : c.closeAfterReply = false → S.waits c future)
    (hcl : c.closeAfterReply = true → c.bulklen = none ∧ Ended exec c) : S.Inv exec c future where
  errors := h.errors
  kind := h.kind
  handed := h.handed
  served _ _ := hw
  jumps hj := absurd (h.jump.symm.trans hj) Bool.false_ne_true
  closing hc := (hcl hc).1
  ended := by
    rintro (hc | hg)
    · exact (hcl hc).2
    · exact absurd (h.gone.symm.trans hg) Bool.false_ne_true

theorem handOver_spec {next : Client → Option Client} (h : S.Served c)
    (hc : c.closeAfterReply = false) (hb : c.bulklen = none)
    (hbuf : S.between (c.handed ++ [c.argv]) c.querybuf future)
    (hnext : ∀ c', c'.querybuf = c.querybuf → S.Top exec c' future →
      ∃ c'', next c' = some c'' ∧ S.Inv exec c'' future) :
    ∃ c', handOver exec next c = some c' ∧ S.Inv exec c' future := by
  have hpre := S.between_handed hbuf
  have hj := h.jump
  rcases hx : exec (c.handed ++ [c.argv])
  case ok =>
    have hhere := S.between_reset (c := { c with handed := c.handed ++ [c.argv] }) hbuf
    simp only [handOver, hx, resetClient, hj, Bool.false_eq_true, if_false] at hhere ⊢
    exact hnext _ rfl ⟨⟨h.errors, S.kind_unknown, hpre, rfl, h.gone⟩, fun _ => hhere, fun _ => rfl,
      by simp [hc]⟩
  case close =>
    simp only [handOver, hx, resetClient, hj, Bool.false_eq_true, if_false]
    exact hnext _ rfl ⟨⟨h.errors, S.kind_unknown, hpre, rfl, h.gone⟩, by simp, fun _ => rfl,
      fun _ => .of_last (by simp only [hx]; rfl)⟩
  case quit =>
    simp only [handOver, hx]
    exact hnext _ rfl ⟨⟨h.errors, h.kind, hpre, hj, h.gone⟩, by simp, fun _ => hb,
      fun _ => .of_last (by simp only [hx]; rfl)⟩
  case jump b =>
    simp only [handOver, hx]
    exact ⟨_, rfl, h.errors, h.kind, hpre, by simp, fun _ => ⟨h.gone, hc, hbuf⟩, fun _ => hb,
      by simp [hc, h.gone]⟩
  case gone =>
    simp only [handOver, hx]
    exact ⟨_, rfl, h.errors, h.kind, hpre, by simp, by simp [hj], fun _ => hb,
      fun _ => .of_last (by simp only [hx]; rfl)⟩

/-- The loop hands over every request that is in the buffer as a whole, unless one of them ends
the connection or makes the client jump. -/
theorem inputLoop_spec (fuel : ℕ) : ∀ {c : Client}, c.querybuf.length < fuel →
    S.Top exec c future → ∃ c', inputLoop exec fuel c = some c' ∧ S.Inv exec c' future := by
  induction fuel with
  | zero =>
    intro c hf
    omega
  | succ fuel ih =>
    intro c hf h
    by_cases hq : c.querybuf = [] ∨ c.closeAfterReply = true
    · refine ⟨c, by simp only [inputLoop, if_pos hq],
        h.inv (fun hc => ?_) fun hc => ⟨h.closing hc, h.ended hc⟩⟩
      rcases hq with hq | hq
      · exact S.waits_nil (h.here hc) hq
      · exact absurd (hc.symm.trans hq) Bool.false_ne_true
    rw [not_or] at hq
    have hc : c.closeAfterReply = false := Bool.eq_false_iff.mpr hq.2
    obtain ⟨c', ok, hproc, hkept, hkind, hwait, hparsed⟩ := S.parse (h.here hc) hq.1
    rw [setReqtype_eq] at hkept
    obtain ⟨-, hclose, hjump, hgone, herrors, hhanded⟩ := hkept
    have hc' : c'.closeAfterReply = false := hclose.trans hc
    have hserved : S.Served c' := ⟨herrors.trans h.errors, hkind, hhanded ▸ h.handed,
      hjump.trans h.jump, hgone.trans h.gone⟩
    simp only [inputLoop, if_neg (not_or.mpr hq), hproc]
    cases ok with
    | false => exact ⟨c', rfl, hserved.inv (fun _ => hwait rfl) (by simp [hc'])⟩
    | true =>
      obtain ⟨hb, hless, hbuf⟩ := hparsed rfl
      simp only
      split_ifs at hbuf ⊢ with ha
      · -- a request without arguments
        rw [append_nil] at hbuf
        have hhere := S.between_reset hbuf
        simp only [resetClient, hserved.jump, Bool.false_eq_true, if_false] at hhere ⊢
        refine ih ?_ ?_
        · exact hless.trans_le (Nat.lt_succ_iff.mp hf)
        · exact ⟨⟨hserved.errors, S.kind_unknown, hserved.handed, rfl, hserved.gone⟩,
            fun _ => hhere, fun _ => rfl, by simp [hc']⟩
      · exact handOver_spec hserved hc' hb hbuf fun c'' hq' htop => ih (by rw [hq']; omega) htop

theorem Inv.read {bytes : Sds} (h : S.Inv exec c (bytes ++ future)) (hj : c.jump = false)
    (hg : c.gone = false) (hlen : (bytes.length : ℤ) ≤ readlen c) :
    ∃ c', readQueryFromClient exec c bytes = some c' ∧ S.Inv exec c' future := by
  have hserved : S.Served { c with querybuf := c.querybuf ++ bytes } :=
    ⟨h.errors, h.kind, h.handed, hj, hg⟩
  rcases hc : c.closeAfterReply with _ | _
  · obtain ⟨hhere, hmax⟩ := S.waits_read (h.served hj hg hc) hlen
    simp only [readQueryFromClient, if_neg (not_lt.mpr hmax), processInputBuffer]
    exact inputLoop_spec _ (Nat.lt_succ_self _)
      ⟨hserved, fun _ => hhere, by simp [hc], by simp [hc]⟩
  · have hend := h.ended (.inl hc)
    by_cases hmax : protoMaxQuerybufLen < (c.querybuf ++ bytes).length
    · exact ⟨{ c with querybuf := c.querybuf ++ bytes, gone := true },
        by simp only [readQueryFromClient,
          if_pos hmax], h.errors, h.kind, h.handed, by simp, by simp [hj],
        h.closing, fun _ => hend⟩
    · refine ⟨{ c with querybuf := c.querybuf ++ bytes }, ?_,
        hserved.inv (by simp [hc]) fun _ => ⟨h.closing hc, hend⟩⟩
      simp only [readQueryFromClient, if_neg hmax, processInputBuffer, inputLoop, hc,
        or_true, if_true]

theorem Inv.jumpDone {close : Bool} (h : S.Inv exec c future) (hj : c.jump = true)
    (he : exec c.handed = .jump close) :
    ∃ c', jumpDone exec c close = some c' ∧ S.Inv exec c' future := by
  obtain ⟨hg, hc, hbuf⟩ := h.jumps hj
  have hhere := S.between_reset
    (c := { c with jump := false, closeAfterReply := c.closeAfterReply || close }) hbuf
  refine inputLoop_spec _ (Nat.lt_succ_self _) ⟨⟨h.errors, S.kind_unknown, h.handed, rfl, hg⟩,
    fun _ => hhere, fun _ => rfl, fun hcl => ?_⟩
  refine Ended.of_last (c := c) ?_
  simp only [resetClient, hc, Bool.false_or, Bool.false_eq_true, if_false] at hcl
  rw [he, hcl]
  rfl

end Stages

theorem Reads.inv {S : Stages} {received : Sds} (h : Reads exec received c) :
    ∀ {future : Sds}, received ++ future = S.stream → S.Inv exec c future := by
  induction h with
  | start =>
    rintro future rfl
    exact ⟨rfl, S.kind_unknown, nil_prefix, fun _ _ _ => S.start, by simp [newClient],
      by simp [newClient], by simp [newClient]⟩
  | @read received bytes c c' _ hj hg _ hlen hc ih =>
    intro future hf
    obtain ⟨c'', hc', hinv⟩ :=
      (ih ((append_assoc received bytes future).symm.trans hf)).read hj hg hlen
    rwa [Option.some.inj (hc.symm.trans hc')]
  | @jumpDone received c c' _ hj close he hc ih =>
    intro future hf
    obtain ⟨c'', hc', hinv⟩ := (ih hf).jumpDone hj he
    rwa [Option.some.inj (hc.symm.trans hc')]

theorem Reads.delivers (S : Stages) {received : Sds} (h : Reads exec received c)
    (hp : received <+: S.stream) :
    c.errors = [] ∧ S.kind c.reqtype ∧ c.handed <+: S.requests ∧
      (c.jump = false → c.gone = false → 0 < readlen c ∧
        ∀ bytes, (bytes.length : ℤ) ≤ readlen c → received ++ bytes <+: S.stream →
          ∃ c', readQueryFromClient exec c bytes = some c') ∧
      (∀ close, c.jump = true → exec c.handed = .jump close →
        ∃ c', Proto.jumpDone exec c close = some c') ∧
      ((∀ k ≤ c.handed.length, (exec (c.handed.take k)).stays = true) →
        c.gone = false ∧ c.closeAfterReply = false ∧
          (c.jump = false → ∃ future, received ++ future = S.stream ∧ S.waits c future)) := by
  obtain ⟨future, hf⟩ := hp
  have hinv := h.inv hf
  refine ⟨hinv.errors, hinv.kind, hinv.handed, fun hj hg => ⟨?_, fun bytes hlen hb => ?_⟩,
    fun close hj he => ?_, fun hstay => ?_⟩
  · rcases hc : c.closeAfterReply with _ | _
    · exact S.waits_readlen (hinv.served hj hg hc)
    · simp only [readlen, hinv.closing hc]
      decide
  · obtain ⟨future', hf'⟩ := hb
    obtain ⟨c', hc', -⟩ :=
      (h.inv ((append_assoc received bytes future').symm.trans hf')).read hj hg hlen
    exact ⟨c', hc'⟩
  · obtain ⟨c', hc', -⟩ := hinv.jumpDone hj he
    exact ⟨c', hc'⟩
  · have hopen : ¬ (c.closeAfterReply = true ∨ c.gone = true) := by
      intro hend
      obtain ⟨k, hk, hstop⟩ := hinv.ended hend
      rw [hstay k hk] at hstop
      cases hstop
    have hg : c.gone = false := by simpa using fun h0 => hopen (.inr h0)
    have hc : c.closeAfterReply = false := by simpa using fun h0 => hopen (.inl h0)
    exact ⟨hg, hc, fun hj => ⟨future, hf, hinv.served hj hg hc⟩⟩

end Vire.Proto
