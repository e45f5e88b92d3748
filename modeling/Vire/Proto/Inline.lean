import Mathlib.Data.List.Forall2
import Vire.Proto.Stream

/-!
# Streams of inline requests

A client types lines, each ended by CR LF or by a bare LF.  `processInlineBuffer` takes the length
of the line and two bytes from the buffer: behind a bare LF it also drops the next byte, if that one
has arrived.  So the lines are read as they were typed, however the socket cuts the stream, just if
every line that may lose its first byte is read the same without it.  The lines left to read are
those that were typed, except that the first of them may have lost a byte already (`eat`).
-/

namespace Vire.Proto

open List Option

inductive Eol
  | crlf
  | lf
  deriving DecidableEq

def Eol.bytes : Eol → Sds
  | crlf => [13, 10]
  | lf => [10]

abbrev Line := Sds × Eol

def lineBytes (l : Line) : Sds := l.1 ++ l.2.bytes

def typed (ls : List Line) : Sds := ls.flatMap lineBytes

/-- The tokens of a line that are not empty; `none` for unbalanced quotes. -/
def lineArgs (line : Sds) :
    Option (List Sds) := (sdssplitargs line).map fun args => args.filter (· ≠ [])

/-- The argument vectors that some lines stand for; a line without tokens is no request. -/
def requests (ls : List Line) : List (List Sds) :=
  (ls.filterMap fun l => lineArgs l.1).filter (· ≠ [])

/-- A line of the inline protocol.  An LF behind a CR is not a bare one. -/
structure Inline (l : Line) : Prop where
  zero : 0 ∉ l.1
  lf : 10 ∉ l.1
  star : l.1.head? ≠ some 42
  short : l.1.length < protoInlineMaxSize
  balanced : (lineArgs l.1).isSome = true
  bare : l.2 = .lf → l.1.getLast? ≠ some 13

/-- A line that is read the same without its first byte. -/
def Immune (line : Sds) : Prop :=
  line = [] ∨ line.tail.head? ≠ some 42 ∧ lineArgs line.tail = lineArgs line

instance (line : Sds) : Decidable (Immune line) := by
  unfold Immune
  infer_instance

/-- No line that may lose its first byte is changed by that.  The first line is in danger if
`loose`, and so is every line behind a bare LF; the CR of an empty line may be lost as well, which
leaves a bare LF. -/
def Unharmed : Bool → List Line → Prop
  | _, [] => True
  | loose, l :: ls =>
    (loose = true → Immune l.1) ∧ Unharmed (l.2 = .lf || loose && l.1 = []) ls

instance : ∀ (loose : Bool) (ls : List Line), Decidable (Unharmed loose ls)
  | _, [] => .isTrue trivial
  | loose, l :: ls => by
    have := instDecidableUnharmed (l.2 = .lf || loose && l.1 = []) ls
    unfold Unharmed
    infer_instance

theorem Unharmed.mono : ∀ {ls : List Line}, Unharmed true ls → Unharmed false ls
  | [], _ => trivial
  | l :: ls, ⟨_, h⟩ => by
    refine ⟨nofun, ?_⟩
    rcases hl : l.2 with _ | _
    · rcases h0 : decide (l.1 = []) with _ | _
      · simpa [hl, h0] using h
      · simpa [hl] using Unharmed.mono (by simpa [hl, h0] using h)
    · simpa [hl] using h

/-- The lines that are left when the first byte is lost. -/
def eat : List Line → List Line
  | [] => []
  | ([], .lf) :: ls => ls
  | ([], .crlf) :: ls => ([], .lf) :: ls
  | (_ :: l, e) :: ls => (l, e) :: ls

theorem typed_eat : ∀ ls : List Line, typed (eat ls) = (typed ls).tail
  | [] => rfl
  | ([], .lf) :: _ => rfl
  | ([], .crlf) :: _ => rfl
  | (_ :: _, _) :: _ => rfl

theorem typed_cons (l : Line) (ls : List Line) : typed (l :: ls) = lineBytes l ++ typed ls := rfl

theorem requests_append (ls ls' : List Line) :
    requests (ls ++ ls') = requests ls ++ requests ls' := by
  simp [requests]

theorem requests_congr {a b : Line} (h : lineArgs a.1 = lineArgs b.1) :
    requests [a] = requests [b] := by
  simp only [requests, filterMap_cons, h]

variable {l : Line}

theorem requests_of_args {args : List Sds} (h : lineArgs l.1 = some args) :
    requests [l] = if args = [] then [] else [args] := by
  simp only [requests, filterMap_cons, h, filterMap_nil, filter_cons, filter_nil]
  split_ifs <;> simp_all

/-- Of the lines `ls` those of `rest` are left, the first of them perhaps without its first byte,
and the requests in all others have been handed over. -/
structure Left (ls : List Line) (handed : List (List Sds)) (rest : List Line) : Prop where
  inline : ∀ l ∈ rest, Inline l
  unharmed : Unharmed false rest
  tracks : ∃ done left, ls = done ++ left ∧ handed = requests done ∧
    Forall₂ (fun a b => lineArgs a.1 = lineArgs b.1) left rest

variable {ls : List Line}

theorem Left.start (hi : ∀ l ∈ ls, Inline l) (hu : Unharmed false ls) :
    Left ls [] ls :=
  ⟨hi, hu, [], ls, rfl, rfl, forall₂_refl ls⟩

variable {handed : List (List Sds)} {rest ls : List Line}

theorem Left.line (h : Left ls handed (l :: rest)) (hu : Unharmed false rest) :
    Left ls (handed ++ requests [l]) rest := by
  obtain ⟨done, left, rfl, rfl, hall⟩ := h.tracks
  obtain ⟨l0, left, hl, hall', rfl⟩ := forall₂_cons_right_iff.mp hall
  refine ⟨fun l hl => h.inline l (mem_cons_of_mem _ hl), hu, done ++ [l0], left, by simp, ?_, hall'⟩
  rw [requests_append, requests_congr hl]

theorem Inline.nil (e : Eol) : Inline ([], e) :=
  ⟨by simp, by simp, by simp, show 0 < protoInlineMaxSize by decide, rfl, by simp⟩

theorem Inline.tail {b : UInt8} {l : Sds} {e : Eol} (h : Inline (b :: l, e))
    (hi : Immune (b :: l)) :
    Inline (l, e) := by
  obtain ⟨hstar, hargs⟩ := hi.resolve_left nofun
  have hbal : (lineArgs l).isSome = true := by
    rw [show lineArgs l = lineArgs (b :: l) from hargs]
    exact h.balanced
  refine ⟨fun h0 => h.zero (mem_cons_of_mem _ h0), fun h0 => h.lf (mem_cons_of_mem _ h0),
    hstar, (Nat.lt_succ_self _).trans h.short, hbal, fun he hlast => h.bare he ?_⟩
  rw [getLast?_cons, hlast]
  rfl

theorem Inline.eat (hi : ∀ l ∈ rest, Inline l) (hu : Unharmed true rest) :
    ∀ l ∈ eat rest, Inline l := by
  rcases rest with _ | ⟨⟨_ | ⟨b, l⟩, e⟩, rest⟩
  · exact hi
  · cases e
    case crlf => exact forall_mem_cons.mpr ⟨.nil .lf, fun l hl => hi l (mem_cons_of_mem _ hl)⟩
    case lf => exact fun l hl => hi l (mem_cons_of_mem _ hl)
  · exact forall_mem_cons.mpr ⟨(hi _ mem_cons_self).tail (hu.1 rfl),
      fun l hl => hi l (mem_cons_of_mem _ hl)⟩

theorem Left.eat (h : Left ls handed rest)
    (hu : Unharmed true rest) : Left ls handed (eat rest) := by
  have hi := Inline.eat h.inline hu
  rcases rest with _ | ⟨⟨_ | ⟨b, l⟩, e⟩, rest⟩
  · exact h
  · cases e
    case crlf =>
      obtain ⟨done, left, rfl, rfl, hall⟩ := h.tracks
      obtain ⟨l0, left, hl, hall', rfl⟩ := forall₂_cons_right_iff.mp hall
      exact ⟨hi, ⟨nofun, hu.2⟩, done, l0 :: left, rfl, rfl, .cons hl hall'⟩
    case lf =>
      have hline := h.line (Unharmed.mono hu.2)
      have hnil : requests [([], .lf)] = [] := rfl
      rwa [hnil, append_nil] at hline
  · obtain ⟨hstar, hargs⟩ := (hu.1 rfl).resolve_left nofun
    obtain ⟨done, left, rfl, rfl, hall⟩ := h.tracks
    obtain ⟨l0, left, hl, hall', rfl⟩ := forall₂_cons_right_iff.mp hall
    exact ⟨hi, ⟨nofun, hu.2⟩, done, l0 :: left, rfl, rfl, .cons (hl.trans hargs.symm) hall'⟩

def rawLine (l : Line) : Sds := l.1 ++ if l.2 = .crlf then [13] else []

theorem lineBytes_eq (l : Line) : lineBytes l = rawLine l ++ [10] := by
  rcases l with ⟨l, _ | _⟩ <;> simp [lineBytes, rawLine, Eol.bytes]

theorem Inline.zero_not_mem (h : Inline l) : 0 ∉ rawLine l := by
  have := h.zero
  rcases l with ⟨l, _ | _⟩ <;> simpa [rawLine] using this

theorem Inline.lf_not_mem (h : Inline l) : 10 ∉ rawLine l := by
  have := h.lf
  rcases l with ⟨l, _ | _⟩ <;> simpa [rawLine] using this

theorem Inline.length_le (h : Inline l) : (rawLine l).length ≤ protoInlineMaxSize := by
  have := h.short
  rcases l with ⟨l, _ | _⟩ <;> simp [rawLine] at this ⊢ <;> omega

variable {c : Client} {t : Sds}

/-- `processInlineBuffer` on a whole line.  Behind a bare LF a byte is lost. -/
theorem processInlineBuffer_eq (h0 : 0 ∉ rawLine l)
    (h10 : 10 ∉ rawLine l) (hbare : l.2 = .lf → l.1.getLast? ≠ some 13)
    (hq : c.querybuf = lineBytes l ++ t) :
    processInlineBuffer c =
      match lineArgs l.1 with
      | none => (setProtocolError c .unbalancedQuotes 0, false)
      | some args =>
        ({ c with querybuf := if l.2 = .lf then t.tail else t, argv := args }, true) := by
  have hraw : c.querybuf = rawLine l ++ 10 :: t := by
    rw [hq, lineBytes_eq, append_assoc]
    rfl
  have hchr : strchr c.querybuf 10 = some (rawLine l).length := by
    rw [hraw]
    exact strchr_append h0 h10 (by decide)
  have hlen : (if (rawLine l).length ≠ 0 ∧ c.querybuf[(rawLine l).length - 1]? = some 13 then
      (rawLine l).length - 1 else (rawLine l).length) = l.1.length := by
    rw [hraw]
    rcases l with ⟨l, _ | _⟩
    · simp [rawLine]
    · have hr : rawLine (l, .lf) = l := append_nil l
      rw [hr]
      refine if_neg fun ⟨hne, h13⟩ => hbare rfl ?_
      rw [getElem?_append_left (by omega)] at h13
      rw [getLast?_eq_getElem?]
      exact h13
  have htake : c.querybuf.take l.1.length = l.1 := by
    rw [hq, lineBytes, append_assoc, take_left]
  have hdrop : c.querybuf.drop (l.1.length + 2) = if l.2 = .lf then t.tail else t := by
    rw [hq, lineBytes, append_assoc, drop_append, drop_eq_nil_of_le (by omega),
      Nat.add_sub_cancel_left]
    rcases l with ⟨l, _ | _⟩ <;> simp [Eol.bytes]
  simp only [processInlineBuffer, hchr, hlen, htake, hdrop, lineArgs]
  rcases sdssplitargs l.1 with _ | toks <;> rfl

theorem processInlineBuffer_line (hl : Inline l) (hq : c.querybuf = lineBytes l ++ t) :
    ∃ args, lineArgs l.1 = some args ∧ processInlineBuffer c =
      ({ c with querybuf := if l.2 = .lf then t.tail else t, argv := args }, true) := by
  obtain ⟨args, hargs⟩ := isSome_iff_exists.mp hl.balanced
  refine ⟨args, hargs, ?_⟩
  rw [processInlineBuffer_eq hl.zero_not_mem hl.lf_not_mem hl.bare hq, hargs]

theorem processInlineBuffer_wait (h10 : 10 ∉ c.querybuf)
    (hlen : c.querybuf.length ≤ protoInlineMaxSize) : processInlineBuffer c = (c, false) := by
  simp only [processInlineBuffer, strchr_eq_none h10, if_neg (not_lt.mpr hlen)]

variable {future : Sds}

theorem setReqtype_inline (hr : c.reqtype ≠ .multibulk) (hh : c.querybuf.head? ≠ some 42) :
    setReqtype c = { c with reqtype := .inline } := by
  unfold setReqtype
  rcases c with ⟨q, _ | _ | _⟩
  · simp only [if_true, if_neg hh]
  · rfl
  · exact absurd rfl hr

theorem Inline.head_ne (h : Inline l) (t : Sds) : (lineBytes l ++ t).head? ≠ some 42 := by
  have hs := h.star
  rcases l with ⟨_ | ⟨b, l⟩, eol⟩
  · cases eol <;> simp [lineBytes, Eol.bytes]
  · simpa [lineBytes] using hs

theorem Left.after {future : Sds} (h : Left ls handed (l :: rest)) (ht : t ++ future = typed rest) :
    ∃ rest', (if l.2 = .lf then t.tail else t) ++ future = typed rest' ∧
      Left ls (handed ++ requests [l]) rest' := by
  have hu := h.unharmed.2
  split_ifs with he
  · simp only [he, decide_true, Bool.true_or] at hu
    have hline := h.line hu.mono
    rcases t with _ | ⟨b, t⟩
    · exact ⟨rest, ht, hline⟩
    · exact ⟨Proto.eat rest, by rw [typed_eat, ← ht]; rfl, hline.eat hu⟩
  · simp only [he, decide_false, Bool.false_and, Bool.or_self] at hu
    exact ⟨rest, ht, h.line hu⟩

section

variable (ls : List Line) (c : Client) (future : Sds)

/-- Between two lines. -/
def LinesAt (handed : List (List Sds)) (buf : Sds) : Prop :=
  ∃ rest, Left ls handed rest ∧ buf ++ future = typed rest

/-- At the top of the loop. -/
structure Reading : Prop where
  inline : c.reqtype ≠ .multibulk
  bulk : c.bulklen = none
  left : LinesAt ls future c.handed c.querybuf

structure Resting : Prop extends Reading ls c future where
  lf : 10 ∉ c.querybuf
  short : c.querybuf.length ≤ protoInlineMaxSize

end

theorem Reading.parse (h : Reading ls c future) (hq : c.querybuf ≠ []) :
    ∃ c' ok, processBuffer (setReqtype c) = some (c', ok) ∧ Kept (setReqtype c) c' ∧
      c'.reqtype ≠ .multibulk ∧ (ok = false → Resting ls c' future) ∧
      (ok = true → c'.bulklen = none ∧ c'.querybuf.length < c.querybuf.length ∧
        LinesAt ls future (c'.handed ++ if c'.argv = [] then [] else [c'.argv]) c'.querybuf) := by
  obtain ⟨rest, hleft, hbuf⟩ := h.left
  rcases rest with _ | ⟨l, rest⟩
  · exact absurd (append_eq_nil_iff.mp hbuf).1 hq
  have hl := hleft.inline l mem_cons_self
  have hset : setReqtype c = { c with reqtype := .inline } := by
    refine setReqtype_inline h.inline fun hh => hl.head_ne (typed rest) ?_
    rw [← typed_cons, ← hbuf, head?_append, hh]
    rfl
  have hproc : processBuffer (setReqtype c) =
      some (processInlineBuffer { c with reqtype := .inline }) := by
    rw [hset, processBuffer, if_pos rfl]
  rw [hproc, hset]
  by_cases hlen : (lineBytes l).length ≤ c.querybuf.length
  · -- the line is in the buffer
    obtain ⟨t, hq', ht⟩ := buffer_split hbuf hlen
    obtain ⟨args, hargs, hline⟩ :=
      processInlineBuffer_line (c := { c with reqtype := .inline }) hl hq'
    obtain ⟨rest', hbuf', hleft'⟩ := hleft.after ht
    have hshort : (if l.2 = .lf then t.tail else t).length ≤ t.length := by
      split_ifs
      · rw [length_tail]
        omega
      · exact le_rfl
    have hmore := congrArg length hq'
    rw [lineBytes_eq, length_append, length_append, length_singleton] at hmore
    rw [requests_of_args hargs] at hleft'
    exact ⟨_, true, congrArg some hline, .refl { c with reqtype := .inline }, by simp, by simp,
      fun _ => ⟨h.bulk, by simp only; omega, rest', hleft', hbuf'⟩⟩
  · -- it is not
    have hpre : c.querybuf <+: rawLine l := by
      have h1 : c.querybuf <+: rawLine l ++ (10 :: typed rest) := by
        refine ⟨future, hbuf.trans ?_⟩
        rw [typed_cons, lineBytes_eq, append_assoc]
        rfl
      refine prefix_of_prefix_length_le h1 (prefix_append _ _) ?_
      rw [lineBytes_eq, length_append, length_singleton] at hlen
      omega
    have h10 : 10 ∉ c.querybuf := fun hm => hl.lf_not_mem (hpre.subset hm)
    have hle : c.querybuf.length ≤ protoInlineMaxSize := hpre.length_le.trans hl.length_le
    exact ⟨_, false, congrArg some (processInlineBuffer_wait h10 hle),
      .refl { c with reqtype := .inline }, by simp,
      fun _ => ⟨⟨by simp, h.bulk, l :: rest, hleft, hbuf⟩, h10, hle⟩, by simp⟩

theorem resting_start (hi : ∀ l ∈ ls, Inline l) (hu : Unharmed false ls) :
    Resting ls newClient (typed ls) :=
  ⟨⟨by decide, rfl, ls, .start hi hu, rfl⟩, by decide, by decide⟩

theorem Reading.resting_nil (h : Reading ls c future) (hq : c.querybuf = []) :
    Resting ls c future :=
  ⟨h, by simp [hq], by simp [hq]⟩

theorem Resting.readlen_eq (h : Resting ls c future) : readlen c = protoIobufLen := by
  rw [readlen, h.bulk]

theorem Resting.readlen_pos (h : Resting ls c future) : 0 < readlen c := by
  rw [h.readlen_eq]
  decide

theorem Resting.read {bytes : Sds} (h : Resting ls c (bytes ++ future))
    (hlen : (bytes.length : ℤ) ≤ readlen c) :
    Reading ls { c with querybuf := c.querybuf ++ bytes } future ∧
      (c.querybuf ++ bytes).length ≤ protoMaxQuerybufLen := by
  have hmax : protoMaxQuerybufLen = 1073741824 := rfl
  have hinl : protoInlineMaxSize = 65536 := rfl
  have hio : protoIobufLen = 16384 := rfl
  obtain ⟨rest, hleft, hbuf⟩ := h.left
  have hshort := h.short
  rw [h.readlen_eq] at hlen
  refine ⟨⟨h.inline, h.bulk, rest, hleft, ?_⟩, ?_⟩
  · rw [append_assoc]
    exact hbuf
  · rw [length_append]
    omega

theorem LinesAt.isPrefix {buf : Sds} (h : LinesAt ls future handed buf) :
    handed <+: requests ls := by
  obtain ⟨rest, hleft, -⟩ := h
  obtain ⟨done, left, hls, rfl, -⟩ := hleft.tracks
  rw [hls, requests_append]
  exact prefix_append ..

def lineStages (ls : List Line) (hi : ∀ l ∈ ls, Inline l) (hu : Unharmed false ls) : Stages where
  stream := typed ls
  requests := requests ls
  kind r := r ≠ .multibulk
  here c future := Reading ls c future
  waits c future := Resting ls c future
  between handed buf future := LinesAt ls future handed buf
  start := resting_start hi hu
  kind_unknown := ReqType.noConfusion
  waits_nil h hq := h.resting_nil hq
  waits_readlen h := h.readlen_pos
  waits_read h hlen := h.read hlen
  between_handed h := LinesAt.isPrefix h
  between_reset h := ⟨ReqType.noConfusion, rfl, h⟩
  parse h hq := h.parse hq

variable {exec : List (List Sds) → Outcome} {received : Sds}

/-- What a client should look like that has received the first bytes of `ls`: no request was refused
or taken for one of the other protocol, the requests handed over are those that were typed, bytes
that follow can be read, and, as long as no request ends the connection, the requests in all lines
that have arrived as a whole have been handed over (of a client that jumps, when it is back). -/
structure InOrder (exec : List (List Sds) → Outcome) (ls : List Line) (received : Sds)
    (c : Client) :
    Prop where
  errors : c.errors = []
  inline : c.reqtype ≠ .multibulk
  handed : c.handed <+: requests ls
  reads : c.jump = false → c.gone = false → 0 < readlen c ∧
    ∀ bytes, (bytes.length : ℤ) ≤ readlen c → received ++ bytes <+: typed ls →
      ∃ c', readQueryFromClient exec c bytes = some c'
  returns : ∀ close, c.jump = true → exec c.handed = .jump close →
    ∃ c', Proto.jumpDone exec c close = some c'
  complete : (∀ k ≤ c.handed.length, (exec (c.handed.take k)).stays = true) →
    c.gone = false ∧ c.closeAfterReply = false ∧
      (c.jump = false → c.handed = requests (ls.take (received.count 10)))

theorem count_typed : ∀ {ls : List Line}, (∀ l ∈ ls, Inline l) → (typed ls).count 10 = ls.length
  | [], _ => rfl
  | l :: ls, hi => by
    have h0 : (rawLine l).count 10 = 0 :=
      count_eq_zero.mpr (hi l mem_cons_self).lf_not_mem
    rw [typed_cons, lineBytes_eq, count_append, count_append, h0,
      count_typed fun l hl => hi l (mem_cons_of_mem _ hl), length_cons]
    simp [add_comm]

theorem Resting.inOrder (hi : ∀ l ∈ ls, Inline l) (hf : received ++ future = typed ls)
    (h : Resting ls c future) : c.handed = requests (ls.take (received.count 10)) := by
  obtain ⟨rest, hleft, hbuf⟩ := h.left
  obtain ⟨done, left, rfl, hh, hall⟩ := hleft.tracks
  have h1 := congrArg (count 10) hf
  have h2 := congrArg (count 10) hbuf
  rw [count_append, count_typed hi, length_append, hall.length_eq] at h1
  rw [count_append, count_typed hleft.inline, count_eq_zero.mpr h.lf] at h2
  rw [hh, show received.count 10 = done.length by omega, take_left]

theorem Reads.inOrder (hi : ∀ l ∈ ls, Inline l) (hu : Unharmed false ls) (h : Reads exec received c)
    (hp : received <+: typed ls) : InOrder exec ls received c := by
  obtain ⟨herr, hkind, hpre, hreads, hjumps, hstays⟩ := h.delivers (lineStages ls hi hu) hp
  refine ⟨herr, hkind, hpre, hreads, hjumps, fun hstay => ?_⟩
  obtain ⟨hg, hc, hwaits⟩ := hstays hstay
  refine ⟨hg, hc, fun hj => ?_⟩
  obtain ⟨future, hf, hrest⟩ := hwaits hj
  exact hrest.inOrder hi hf

/-! ## A line that loses its first byte

Lines read byte by byte lose nothing.  A bare LF read together with the byte behind it takes that
byte along. -/

section

def buffering (handed : List (List Sds)) (s : Sds) (r : ReqType) : Client :=
  { newClient with handed := handed, querybuf := s, reqtype := r }

abbrev inLine (handed : List (List Sds)) (s : Sds) : Client :=
  buffering handed s (if s = [] then .unknown else .inline)

abbrev allOk : List (List Sds) → Outcome := fun _ => .ok

theorem setReqtype_inLine {s : Sds} (hs : (s ++ t).head? ≠ some 42) :
    setReqtype (buffering handed (s ++ t) (if s = [] then .unknown else .inline)) =
      buffering handed (s ++ t) .inline := by
  refine setReqtype_inline ?_ hs
  simp only [buffering]
  split_ifs <;> nofun

theorem readQuery_inLine {s : Sds} (hs : (s ++ t).head? ≠ some 42)
    (ht : t ≠ []) (hlen : (s ++ t).length ≤ protoMaxQuerybufLen) :
    readQueryFromClient allOk (inLine handed s) t =
      match processInlineBuffer (buffering handed (s ++ t) .inline) with
      | (c, false) => some c
      | (c, true) =>
        if c.argv = [] then inputLoop allOk (s ++ t).length (resetClient c)
        else handOver allOk (inputLoop allOk (s ++ t).length) c := by
  have hne : ¬ ((buffering handed (s ++ t) (if s = [] then .unknown else .inline)).querybuf = [] ∨
      (buffering handed (s ++ t) (if s = [] then .unknown else .inline)).closeAfterReply =
        true) := by
    simp [buffering, newClient, ht]
  have hread : readQueryFromClient allOk (inLine handed s) t =
      inputLoop allOk ((s ++ t).length + 1)
        (buffering handed (s ++ t) (if s = [] then .unknown else .inline)) :=
    if_neg (not_lt.mpr hlen)
  have hproc : processBuffer (buffering handed (s ++ t) .inline) =
      some (processInlineBuffer (buffering handed (s ++ t) .inline)) := if_pos rfl
  rw [hread, inputLoop, if_neg hne, setReqtype_inLine hs, hproc]
  rcases processInlineBuffer (buffering handed (s ++ t) .inline) with ⟨c, _ | _⟩ <;> rfl

theorem Reads.bytes (h : Reads allOk received (inLine handed [])) :
    ∀ {s : Sds}, 10 ∉ s → s.head? ≠ some 42 → s.length ≤ protoInlineMaxSize →
      Reads allOk (received ++ s) (inLine handed s) := by
  intro s
  induction s using reverseRecOn with
  | nil =>
    intro _ _ _
    rwa [append_nil]
  | append_singleton s b ih =>
    intro h10 hhead hlen
    have hinl : protoInlineMaxSize = 65536 := rfl
    have hmax : protoMaxQuerybufLen = 1073741824 := rfl
    have hlen' : s.length < protoInlineMaxSize := by
      rw [length_append, length_singleton] at hlen
      omega
    have hs := ih (fun hm => h10 (mem_append_left _ hm))
      (fun hh => hhead (by rw [head?_append, hh]; rfl)) hlen'.le
    rw [← append_assoc]
    refine .read hs rfl rfl (cons_ne_nil _ _) (show (1 : ℤ) ≤ protoIobufLen by decide) ?_
    rw [readQuery_inLine hhead (cons_ne_nil _ _) (by omega),
      processInlineBuffer_wait (by exact h10) (by exact hlen), inLine, if_neg (by simp)]

theorem Reads.eol {received : Sds} (hl : Inline l)
    (h : Reads allOk received (inLine handed (rawLine l)))
    (ht : t = [] ∨ l.2 = .lf ∧ ∃ b, t = [b]) :
    Reads allOk (received ++ 10 :: t) (inLine (handed ++ requests [l]) []) := by
  have hinl : protoInlineMaxSize = 65536 := rfl
  have hmax : protoMaxQuerybufLen = 1073741824 := rfl
  have hraw := hl.length_le
  have htlen : t.length ≤ 1 := by
    rcases ht with rfl | ⟨-, b, rfl⟩ <;> simp
  have hlen : (rawLine l ++ 10 :: t).length ≤ protoMaxQuerybufLen := by
    rw [length_append, length_cons]
    omega
  have hbytes : rawLine l ++ 10 :: t = lineBytes l ++ t := by
    rw [lineBytes_eq, append_assoc]
    rfl
  have hhead : (rawLine l ++ 10 :: t).head? ≠ some 42 := by
    rw [hbytes]
    exact hl.head_ne t
  have htail : (if l.2 = .lf then t.tail else t) = [] := by
    rcases ht with rfl | ⟨he, b, rfl⟩
    · exact ite_self _
    · rw [if_pos he]
      rfl
  obtain ⟨args, hargs, hline⟩ :=
    processInlineBuffer_line (c := buffering handed (rawLine l ++ 10 :: t) .inline) hl hbytes
  rw [htail] at hline
  refine .read h rfl rfl (cons_ne_nil _ _) ?_ ?_
  · show ((10 :: t).length : ℤ) ≤ protoIobufLen
    have hio : protoIobufLen = 16384 := rfl
    rw [length_cons]
    omega
  · rw [readQuery_inLine hhead (cons_ne_nil _ _) hlen, hline, requests_of_args hargs]
    show (if args = [] then _ else _) = _
    obtain ⟨k, hk⟩ : ∃ k, (rawLine l ++ 10 :: t).length = k + 1 := by
      rw [length_append, length_cons]
      exact ⟨_, rfl⟩
    rw [hk]
    split_ifs with ha
    · simp [buffering, resetClient, inputLoop, newClient]
    · simp [buffering, resetClient, inputLoop, newClient, handOver]

/-- The lines `rest` are left, and nothing of them has arrived. -/
def Idle (all rest : List Line) : Prop :=
  ∃ (received : Sds) (done : List Line), all = done ++ rest ∧ received ++ typed rest = typed all ∧
    Reads allOk received (inLine (requests done) [])

/-- The lines `rest` are left, and so is the bare LF before them. -/
def Pending (all rest : List Line) : Prop :=
  ∃ (received : Sds) (done : List Line) (handed : List (List Sds)) (s : Sds), all = done ++ rest ∧
    received ++ 10 :: typed rest = typed all ∧ Inline (s, .lf) ∧
    requests done = handed ++ requests [(s, .lf)] ∧ Reads allOk received (inLine handed s)

theorem Reads.rawLine (hl : Inline l) (h : Reads allOk received (inLine handed [])) :
    Reads allOk (received ++ rawLine l) (inLine handed (rawLine l)) := by
  refine h.bytes hl.lf_not_mem (fun hh => hl.head_ne [] ?_) hl.length_le
  rw [append_nil, lineBytes_eq, head?_append, hh]
  rfl

variable {all rest : List Line}

theorem Pending.read (h : Pending all rest) :
    ∃ (received : Sds) (done : List Line), all = done ++ rest ∧
      received ++ 10 :: typed rest = typed all ∧
      ∀ t : Sds, (t = [] ∨ ∃ b, t = [b]) →
        Reads allOk (received ++ 10 :: t) (inLine (requests done) []) := by
  obtain ⟨received, done, handed, s, hall, hf, hs, hdone, h⟩ := h
  refine ⟨received, done, hall, hf, fun t ht => ?_⟩
  have hraw : Proto.rawLine (s, .lf) = s := append_nil s
  rw [hdone]
  refine Reads.eol hs (by rwa [hraw]) ?_
  rcases ht with rfl | hb
  · exact .inl rfl
  · exact .inr ⟨rfl, hb⟩

theorem Pending.idle (h : Pending all rest) : Idle all rest := by
  obtain ⟨received, done, hall, hf, h⟩ := h.read
  exact ⟨received ++ [10], done, hall, by rw [append_assoc]; exact hf, h [] (.inl rfl)⟩

theorem Pending.eat (h : Pending all (([], .crlf) :: rest)) :
    Pending all rest := by
  obtain ⟨received, done, rfl, hf, h⟩ := h.read
  have hreq : requests (done ++ [([], .crlf)]) = requests done := by
    rw [requests_append]
    exact append_nil _
  refine ⟨received ++ [10, 13], done ++ [([], .crlf)], requests done, [], by simp, ?_, .nil .lf, ?_,
    h [13] (.inr ⟨13, rfl⟩)⟩
  · rw [← hf, append_assoc]
    rfl
  · rw [hreq]
    exact (append_nil _).symm

theorem Idle.pending (h : Idle all (l :: rest)) (hl : Inline l)
    (he : l.2 = .lf) : Pending all rest := by
  obtain ⟨received, done, rfl, hf, h⟩ := h
  obtain ⟨s, e⟩ := l
  obtain rfl : e = .lf := he
  have hraw : Proto.rawLine (s, .lf) = s := append_nil s
  have hread := h.rawLine hl
  rw [hraw] at hread
  refine ⟨received ++ s, done ++ [(s, .lf)], requests done, s, by simp, ?_, hl, requests_append _ _,
    hread⟩
  rw [← hf, typed_cons, lineBytes_eq, hraw]
  simp

theorem Idle.line (h : Idle all (l :: rest)) (hl : Inline l) :
    Idle all rest := by
  obtain ⟨received, done, rfl, hf, h⟩ := h
  have hread := Reads.eol hl (h.rawLine hl) (.inl rfl)
  refine ⟨received ++ rawLine l ++ [10], done ++ [l], by simp, ?_, by rwa [requests_append]⟩
  rw [← hf, typed_cons, lineBytes_eq]
  simp

def Spoilt (all : List Line) : Prop :=
  ∃ (received : Sds) (c : Client), received <+: typed all ∧ Reads allOk received c ∧
    ¬ InOrder allOk all received c

theorem lineArgs_of_requests {a b : Line} (ha : (lineArgs a.1).isSome = true)
    (hb : (lineArgs b.1).isSome = true) (h : requests [a] = requests [b]) :
    lineArgs a.1 = lineArgs b.1 := by
  obtain ⟨as, has⟩ := isSome_iff_exists.mp ha
  obtain ⟨bs, hbs⟩ := isSome_iff_exists.mp hb
  rw [requests_of_args has, requests_of_args hbs] at h
  rw [has, hbs]
  split_ifs at h with h1 h2 h2
  · rw [h1, h2]
  · rw [(cons.inj h).1]

theorem Pending.spoilt (hall : ∀ l ∈ all, Inline l)
    (h : Pending all (l :: rest)) (hne : ¬ Immune l.1) : Spoilt all := by
  obtain ⟨received, done, rfl, hf, hread⟩ := h.read
  have hl : Inline l := hall l (by simp)
  obtain ⟨_ | ⟨x, s⟩, e⟩ := l
  · exact absurd (.inl rfl) hne
  -- the bare LF is read together with `x`
  have h1 := hread [x] (.inr ⟨x, rfl⟩)
  have hf1 : received ++ [10, x] ++ (lineBytes (s, e) ++ typed rest) =
      typed (done ++ (x :: s, e) :: rest) := by
    rw [← hf, append_assoc]
    rfl
  by_cases hstar : s.head? = some 42
  · -- the line looks like a multi bulk request
    obtain ⟨s, rfl⟩ : ∃ s', s = 42 :: s' := by
      rcases s with _ | ⟨b, s⟩
      · cases hstar
      · exact ⟨s, by rw [some.inj hstar]⟩
    refine ⟨received ++ [10, x] ++ [42], buffering (requests done) [42] .multibulk,
      ⟨s ++ e.bytes ++ typed rest, ?_⟩,
      .read h1 rfl rfl (cons_ne_nil _ _) (show (1 : ℤ) ≤ protoIobufLen by decide) rfl,
      fun hin => hin.inline rfl⟩
    rw [← hf1]
    simp [lineBytes]
  have h0 : 0 ∉ rawLine (s, e) := fun h0 => hl.zero_not_mem (mem_cons_of_mem x h0)
  have h10 : 10 ∉ rawLine (s, e) := fun h0 => hl.lf_not_mem (mem_cons_of_mem x h0)
  have hbare : e = .lf → s.getLast? ≠ some 13 := by
    intro he hlast
    refine hl.bare he ?_
    rw [getLast?_cons, hlast]
    rfl
  have hlen : (rawLine (s, e)).length ≤ protoInlineMaxSize :=
    (Nat.le_succ _).trans hl.length_le
  have hhead : (rawLine (s, e)).head? ≠ some 42 := by
    rcases s with _ | ⟨b, s⟩
    · cases e <;> simp [rawLine]
    · exact hstar
  have h2 := h1.bytes h10 hhead hlen
  have hf2 : received ++ [10, x] ++ rawLine (s, e) ++ [10] ++ typed rest =
      typed (done ++ (x :: s, e) :: rest) := by
    rw [← hf1, lineBytes_eq]
    simp
  refine ⟨received ++ [10, x] ++ rawLine (s, e) ++ [10], ?_⟩
  rcases hargs : lineArgs s with _ | args
  · -- its quotes are unbalanced
    have hproc := processInlineBuffer_eq
      (c := buffering (requests done) (rawLine (s, e) ++ [10]) .inline) (t := []) h0 h10 hbare
      (by rw [append_nil, lineBytes_eq]; rfl)
    have hmax : (rawLine (s, e) ++ [10]).length ≤ protoMaxQuerybufLen := by
      have hinl : protoInlineMaxSize = 65536 := rfl
      have hmax : protoMaxQuerybufLen = 1073741824 := rfl
      rw [length_append, length_singleton]
      omega
    have hhead' : (rawLine (s, e) ++ [10]).head? ≠ some 42 := by
      rw [head?_append]
      rcases hr : (rawLine (s, e)).head? with _ | b
      · nofun
      · rwa [hr] at hhead
    refine ⟨setProtocolError (buffering (requests done) (rawLine (s, e) ++ [10]) .inline)
      .unbalancedQuotes 0, ⟨typed rest, hf2⟩, .read h2 rfl rfl (cons_ne_nil _ _)
      (show (1 : ℤ) ≤ protoIobufLen by decide) ?_, fun hin => cons_ne_nil _ _ hin.errors⟩
    rw [readQuery_inLine hhead' (cons_ne_nil _ _) hmax, hproc]
    simp only [hargs]
  · have hs : Inline (s, e) :=
      ⟨fun h0 => hl.zero (mem_cons_of_mem _ h0), fun h0 => hl.lf (mem_cons_of_mem _ h0),
        hstar, (Nat.lt_succ_self _).trans hl.short, by rw [hargs]; rfl, hbare⟩
    refine ⟨_, ⟨typed rest, hf2⟩, Reads.eol hs h2 (.inl rfl), fun hin => hne (.inr ⟨hstar, ?_⟩)⟩
    obtain ⟨-, -, hcomp⟩ := hin.complete fun _ _ => rfl
    have hcount : (received ++ [10, x] ++ rawLine (s, e) ++ [10]).count 10 = done.length + 1 := by
      have hc := congrArg (count 10) hf2
      rw [count_append, count_typed hall, count_typed fun l hl => hall l (by simp [hl])] at hc
      simp only [length_append, length_cons] at hc
      omega
    have hreq : requests done ++ requests [(s, e)] = requests done ++ requests [(x :: s, e)] := by
      refine (hcomp rfl).trans ?_
      rw [hcount, ← requests_append]
      rw [take_length_add_append]
      rfl
    exact lineArgs_of_requests hs.balanced hl.balanced (append_cancel_left hreq)

theorem spoilt_of_harmed {all : List Line} (hall : ∀ l ∈ all, Inline l) :
    ∀ (rest : List Line) (loose : Bool), (∀ l ∈ rest, Inline l) → ¬ Unharmed loose rest →
      (if loose = true then Pending all rest else Idle all rest) → Spoilt all
  | [], _, _, h, _ => absurd trivial h
  | l :: rest, true, hi, h, hp => by
    have hl := hi l mem_cons_self
    have hrest : ∀ l ∈ rest, Inline l := fun l h => hi l (mem_cons_of_mem _ h)
    simp only [if_true] at hp
    by_cases him : Immune l.1
    · have hu : ¬ Unharmed (l.2 = .lf || true && l.1 = []) rest := fun hu => h ⟨fun _ => him, hu⟩
      refine spoilt_of_harmed hall rest _ hrest hu ?_
      obtain ⟨s, _ | _⟩ := l
      · by_cases hs : s = []
        · subst hs
          simpa using hp.eat
        · simpa [hs] using hp.idle.line hl
      · simpa using hp.idle.pending hl rfl
    · exact hp.spoilt hall him
  | l :: rest, false, hi, h, hp => by
    have hl := hi l mem_cons_self
    have hrest : ∀ l ∈ rest, Inline l := fun l h => hi l (mem_cons_of_mem _ h)
    simp only [Bool.false_eq_true, if_false] at hp
    have hu : ¬ Unharmed (l.2 = .lf || false && l.1 = []) rest := fun hu => h ⟨nofun, hu⟩
    refine spoilt_of_harmed hall rest _ hrest hu ?_
    obtain ⟨s, _ | _⟩ := l
    · simpa using hp.line hl
    · simpa using hp.pending hl rfl

end

/-- Lines of the inline protocol are read as they were typed, however the stream is cut into reads,
just if no line that may lose its first byte is changed by that. -/
theorem inline_requests_iff (ls : List Line) (hi : ∀ l ∈ ls, Inline l) :
    (∀ (exec : List (List Sds) → Outcome) (received : Sds) (c : Client), received <+: typed ls →
      Reads exec received c → InOrder exec ls received c) ↔ Unharmed false ls := by
  constructor
  · intro h
    by_contra hu
    obtain ⟨received, c, hp, hc, hbad⟩ :=
      spoilt_of_harmed hi ls false hi hu ⟨[], [], rfl, rfl, .start⟩
    exact hbad (h allOk received c hp hc)
  · intro hu exec received c hp hc
    exact hc.inOrder hi hu hp

theorem inline_requests_blank :
    let ls : List Line := [([65], .lf), ([32, 80, 73, 78, 71], .crlf)]
    (∀ l ∈ ls, Inline l) ∧ ∀ (exec : List (List Sds) → Outcome) (received : Sds) (c : Client),
      received <+: typed ls → Reads exec received c → InOrder exec ls received c := by
  have hi : ∀ l ∈ [(([65], .lf) : Line), ([32, 80, 73, 78, 71], .crlf)], Inline l := by
    simp only [forall_mem_cons]
    refine ⟨⟨by decide, by decide, by decide, by decide, by decide, by decide⟩,
      ⟨by decide, by decide, by decide, by decide, by decide, by decide⟩, nofun⟩
  exact ⟨hi, (inline_requests_iff _ hi).mpr (by decide)⟩

/-- `A`, a bare LF, and `PING`, in one read: the second command is `ING`. -/
theorem inline_first_byte_lost :
    let ls : List Line := [([65], .lf), ([80, 73, 78, 71], .crlf)]
    (∀ l ∈ ls, Inline l) ∧ requests ls = [[[65]], [[80, 73, 78, 71]]] ∧
      ∃ c, Reads (fun _ => .ok) (typed ls) c ∧ c.handed = [[[65]], [[73, 78, 71]]] := by
  refine ⟨?_, by decide, _, @Reads.read _ [] _ _ _ .start rfl rfl (by decide) (by decide) rfl,
    by decide⟩
  simp only [forall_mem_cons]
  exact ⟨⟨by decide, by decide, by decide, by decide, by decide, by decide⟩,
    ⟨by decide, by decide, by decide, by decide, by decide, by decide⟩, nofun⟩

end Vire.Proto
