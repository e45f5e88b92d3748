import Vire.Decimal
import Vire.Proto.Serving

/-!
# Streams of requests

However the socket cuts the stream into reads, `processCommand` gets the commands as they were sent.
`Rest` says which bytes of the stream the client still has to read, given what it has learned.  The
guard against long headers never strikes because the buffer stays short outside of large arguments,
which are read to their last byte and no further.
-/

namespace Vire.Proto

open List

def crlf : Sds := [13, 10]

/-- `$<length>\r\n<bytes>\r\n` -/
def encodeArg (a : Sds) : Sds := 36 :: (decimal a.length ++ crlf ++ a ++ crlf)

def encodeArgs (as : List Sds) : Sds := as.flatMap encodeArg

/-- `*<number of arguments>\r\n` and the arguments. -/
def encode (cmd : List Sds) : Sds := 42 :: (decimal cmd.length ++ crlf ++ encodeArgs cmd)

def encodeAll (cmds : List (List Sds)) : Sds := cmds.flatMap encode

/-- A command with 1 to 1048576 arguments of at most 512 MB. -/
structure Sendable (cmd : List Sds) : Prop where
  pos : cmd ≠ []
  count : cmd.length ≤ 1024 * 1024
  size : ∀ a ∈ cmd, a.length ≤ 512 * 1024 * 1024

variable {b : UInt8}

theorem strchr_eq_none {s : Sds} (h : b ∉ s) : strchr s b = none := by
  unfold strchr
  rw [findIdx?_eq_none_iff]
  intro x hx
  simp only [beq_eq_false_iff_ne]
  rintro rfl
  exact h ((takeWhile_sublist _).mem hx)

theorem strchr_append {s t : Sds} (h0 : 0 ∉ s) (hb : b ∉ s) (hb0 : b ≠ 0) :
    strchr (s ++ b :: t) b = some s.length := by
  have hs : ∀ x ∈ s, decide (x ≠ 0) = true := by
    rintro x hx
    exact decide_eq_true (ne_of_mem_of_not_mem hx h0)
  unfold strchr cstr
  rw [takeWhile_append_of_pos hs, takeWhile_cons_of_pos (by simpa using hb0),
    findIdx?_append, findIdx?_eq_none_iff.mpr]
  · simp [findIdx?_cons]
  · intro x hx
    simp only [beq_eq_false_iff_ne]
    rintro rfl
    exact hb hx

variable {future : Sds}

theorem strchr_line {buf line rest : Sds} (h : buf ++ future = line ++ 13 :: rest)
    (h0 : 0 ∉ line) (h13 : 13 ∉ line) :
    strchr buf 13 = if line.length < buf.length then some line.length else none := by
  split_ifs with hlen
  · obtain ⟨t, ht⟩ : ∃ t, buf = line ++ 13 :: t := by
      have hbuf : buf = (line ++ 13 :: rest).take buf.length := by rw [← h]; simp
      refine ⟨rest.take (buf.length - line.length - 1), ?_⟩
      rw [hbuf, take_append, take_of_length_le hlen.le]
      obtain ⟨k, hk⟩ : ∃ k, buf.length - line.length = k + 1 :=
        ⟨buf.length - line.length - 1, by omega⟩
      simp [hk]
    rw [ht, strchr_append h0 h13 (by decide)]
  · refine strchr_eq_none fun hmem => h13 ?_
    have hbuf : buf = line.take buf.length := by
      have := congrArg (take buf.length) h
      rw [take_left, take_append_of_le_length (by omega)] at this
      exact this
    rw [hbuf] at hmem
    exact mem_of_mem_take hmem

theorem decimal_not_mem (hb : isdigit b = false) (n : ℕ) : b ∉ decimal n :=
  fun h => by simp [isdigit_decimal n b h] at hb

theorem buffer_split {buf l r : Sds} (h : buf ++ future = l ++ r) (hl : l.length ≤ buf.length) :
    ∃ t, buf = l ++ t ∧ t ++ future = r := by
  rcases append_eq_append_iff.mp h with ⟨a, rfl, rfl⟩ | ⟨a, rfl, rfl⟩
  · have : a = [] := by simpa using hl
    subst this
    exact ⟨[], by simp, rfl⟩
  · exact ⟨a, rfl, rfl⟩

/-- The line `b<n>\r\n` of a header: its end is found once it has arrived. -/
theorem strchr_header (h0 : b ≠ 0) (h13 : b ≠ 13) {n : ℕ} {buf rest : Sds}
    (h : buf ++ future = b :: (decimal n ++ crlf ++ rest)) :
    buf.length < (decimal n).length + 3 ∧
        (strchr buf 13 = none ∨ strchr buf 13 = some ((decimal n).length + 1)) ∨
      ∃ t, buf = b :: (decimal n ++ crlf ++ t) ∧ t ++ future = rest ∧
        strchr buf 13 = some ((decimal n).length + 1) := by
  have hline : buf ++ future = (b :: decimal n) ++ 13 :: 10 :: rest := by
    rw [h]
    simp [crlf]
  have hstr := strchr_line hline (by simpa [Ne.symm h0] using decimal_not_mem (by decide) n)
    (by simpa [Ne.symm h13] using decimal_not_mem (by decide) n)
  rw [length_cons] at hstr
  by_cases hlen : buf.length < (decimal n).length + 3
  · refine .inl ⟨hlen, ?_⟩
    split_ifs at hstr
    · exact .inr hstr
    · exact .inl hstr
  · obtain ⟨t, ht, htf⟩ := buffer_split (l := b :: (decimal n ++ crlf)) (r := rest)
      (by rw [h]; simp) (by simp [crlf]; omega)
    rw [if_pos (by omega)] at hstr
    exact .inr ⟨t, by simpa using ht, htf, hstr⟩

/-- The bytes still to read for the arguments `as`, the length of the first of which may be known
already. -/
def argBytes : Option ℕ → List Sds → Sds
  | none, as => encodeArgs as
  | some _, [] => []
  | some _, a :: as => a ++ crlf ++ encodeArgs as

/-- The client is inside a command, of which the arguments `as` are missing; `tail` follows it in
the stream, and `future` is what has not arrived yet. -/
structure Rest (c : Client) (pos : ℕ) (as : List Sds) (tail future : Sds) : Prop where
  left : c.multibulklen = as.length
  len : ∀ n, c.bulklen = some n → ∃ a as', as = a :: as' ∧ a.length = n
  bytes : c.querybuf.drop pos ++ future = argBytes c.bulklen as ++ tail
  le : pos ≤ c.querybuf.length
  size : ∀ a ∈ as, a.length ≤ 512 * 1024 * 1024
  big : ∀ n, c.bulklen = some n → protoMbulkBigArg ≤ n → pos = 0
  bound : c.querybuf.length ≤ protoInlineMaxSize ∨
    ∃ n, c.bulklen = some n ∧ protoMbulkBigArg ≤ n ∧ c.querybuf.length ≤ n + 2

structure Short (c : Client) (pos : ℕ) (as : List Sds) : Prop where
  header : c.bulklen = none → c.querybuf.length ≤ pos + 32
  lack : ∀ n, c.bulklen = some n → c.querybuf.length < pos + (n + 2)
  missing : c.querybuf.length < pos + (argBytes c.bulklen as).length

theorem length_decimal_arg {a : Sds} (h : a.length ≤ 512 * 1024 * 1024) :
    (decimal a.length).length ≤ 9 :=
  length_decimal_le (k := 8) (by omega)

variable {c : Client} {as : List Sds} {pos : ℕ} {tail : Sds}

/-- Reading the length of an argument that is in the stream: it becomes known or its line is not
complete.  Nothing is refused. -/
theorem readBulklen_spec {a : Sds} (h : Rest c pos (a :: as) tail future) :
    (readBulklen c pos = .wait ∧ Short c pos (a :: as)) ∨
      ∃ c' pos', readBulklen c pos = .known c' pos' ∧ c'.bulklen = some a.length ∧
        c'.argv = c.argv ∧ Kept c c' ∧ Rest c' pos' (a :: as) tail future := by
  have hsize := h.size a mem_cons_self
  rcases hb : c.bulklen with _ | n
  case some =>
    obtain ⟨a', as', heq, hlen⟩ := h.len n hb
    obtain ⟨rfl, rfl⟩ := cons.inj heq
    exact .inr ⟨c, pos, by simp [readBulklen, hb], by rw [hb, hlen], rfl,
      .refl c, h⟩
  have hheader : c.querybuf.drop pos ++ future =
      36 :: (decimal a.length ++ crlf ++ (a ++ crlf ++ encodeArgs as ++ tail)) := by
    rw [h.bytes, hb]
    simp [argBytes, encodeArgs, encodeArg]
  have hdec := length_decimal_arg hsize
  have hle := h.le
  have hbound : c.querybuf.length ≤ protoInlineMaxSize := by
    rcases h.bound with hl | ⟨n, hn, -⟩
    · exact hl
    · rw [hb] at hn
      cases hn
  obtain ⟨hlt, hstr⟩ | ⟨t, ht, htf, hstr⟩ := strchr_header (by decide) (by decide) hheader
  · rw [length_drop] at hlt
    refine .inl ⟨?_, fun _ => by omega, fun n hn => ?_, ?_⟩
    · have hcr : c.querybuf.length < pos + ((decimal a.length).length + 1) + 2 := by omega
      rcases hstr with hstr | hstr
      · simp [readBulklen, hb, hstr, not_lt.mpr hbound]
      · simp [readBulklen, hb, hstr, hcr]
    · rw [hb] at hn
      cases hn
    · simp only [hb, argBytes, encodeArgs, flatMap_cons, encodeArg, crlf, length_append,
        length_cons, length_nil]
      omega
  -- the whole line is there
  have hcr : ¬ c.querybuf.length < pos + ((decimal a.length).length + 1) + 2 := by
    have hlen := congrArg length ht
    simp only [crlf, length_drop, length_cons, length_append, length_nil] at hlen
    omega
  have hget : c.querybuf[pos]? = some 36 := by
    have := congrArg head? ht
    simpa using this
  have htake : (c.querybuf.drop (pos + 1)).take (decimal a.length).length = decimal a.length := by
    rw [← drop_drop, ht]
    simp
  have hdrop : c.querybuf.drop (pos + ((decimal a.length).length + 1) + 2) = t := by
    rw [Nat.add_assoc, ← drop_drop, ht]
    simp [crlf]
  have hll : string2ll (decimal a.length) = some (a.length : ℤ) :=
    string2ll_decimal (by unfold llongMax; omega)
  have hrange : ¬ (536870912 : ℤ) < a.length := by omega
  refine .inr ?_
  by_cases hbig : protoMbulkBigArg ≤ a.length
  · refine ⟨{ c with querybuf := t, bulklen := some a.length }, 0, ?_, rfl, rfl,
      .refl c, ?_⟩
    · simp [readBulklen, hb, hstr, hcr, hget, htake, hll, hrange, hbig, hdrop]
    · refine ⟨h.left, fun n hn => ⟨a, as, rfl, by simpa using hn⟩, ?_, by simp, h.size,
        fun _ _ _ => rfl, .inl ?_⟩
      · simp only [drop_zero, htf, argBytes]
      · simp only [← hdrop, length_drop]
        omega
  · refine ⟨{ c with bulklen := some a.length }, pos + ((decimal a.length).length + 1) + 2, ?_, rfl,
      rfl, .refl c, ?_⟩
    · simp [readBulklen, hb, hstr, hcr, hget, htake, hll, hrange, hbig]
    · refine ⟨h.left, fun n hn => ⟨a, as, rfl, by simpa using hn⟩, ?_, ?_, h.size,
        fun n hn hge => ?_, .inl hbound⟩
      · simp only [hdrop, htf, argBytes]
      · simp only
        omega
      · obtain rfl : a.length = n := by simpa using hn
        exact absurd hge hbig

/-- One round of the loop takes an argument, or the argument is not complete. -/
theorem bulkLoop_step {a : Sds} (h : Rest c pos (a :: as) tail future) :
    (∃ c' pos', bulkLoop (as.length + 1) c pos = (c', pos', false) ∧ c'.argv = c.argv ∧ Kept c c' ∧
        Rest c' pos' (a :: as) tail future ∧ Short c' pos' (a :: as)) ∨
      ∃ c' pos', bulkLoop (as.length + 1) c pos = bulkLoop as.length c' pos' ∧
        c'.argv = c.argv ++ [a] ∧ Kept c c' ∧ Rest c' pos' as tail future := by
  obtain ⟨hw, hs⟩ | ⟨c1, pos1, hk, hlen, hargv, hkept, h1⟩ := readBulklen_spec h
  · exact .inl ⟨c, pos, by simp [bulkLoop, hw], rfl, .refl c, h, hs⟩
  have hbytes := h1.bytes
  rw [hlen, argBytes] at hbytes
  by_cases hlack : c1.querybuf.length < pos1 + (a.length + 2)
  · refine .inl ⟨c1, pos1, by simp [bulkLoop, hk, hlen, hlack], hargv, hkept, h1, by simp [hlen],
      fun n hn => ?_, ?_⟩
    · cases hlen.symm.trans hn
      exact hlack
    · rw [hlen, argBytes]
      simp only [crlf, length_append, length_cons, length_nil]
      omega
  -- the argument is in the buffer
  obtain ⟨t, ht, htf⟩ := buffer_split (l := a ++ crlf) (r := encodeArgs as ++ tail)
    (by rw [hbytes]; simp) (by simp [crlf]; omega)
  have hsize : ∀ b ∈ as, b.length ≤ 512 * 1024 * 1024 := fun b hb =>
    h1.size b (mem_cons_of_mem _ hb)
  refine .inr ?_
  rw [bulkLoop, hk]
  by_cases hzero : pos1 = 0 ∧ protoMbulkBigArg ≤ a.length ∧ c1.querybuf.length = a.length + 2
  · obtain ⟨rfl, hbig, heq⟩ := hzero
    obtain rfl : t = [] := by
      have := congrArg length ht
      simpa [crlf, heq] using this
    simp only [drop_zero, append_nil] at ht
    have hlt : ¬ a.length + 2 < 0 + (a.length + 2) := by omega
    simp only [hlen, Option.getD_some, heq, if_neg hlt, hbig, and_self, if_true]
    exact ⟨_, _, rfl, by simp [hargv, ht], hkept, rfl, by simp, by simpa [argBytes] using htf,
      by simp, hsize, by simp, by simp⟩
  · have hbound : c1.querybuf.length ≤ protoInlineMaxSize := by
      rcases h1.bound with hl | ⟨n, hn, hge, hl⟩
      · exact hl
      · cases hlen.symm.trans hn
        exact absurd ⟨h1.big _ hlen hge, hge, by omega⟩ hzero
    have hdrop : c1.querybuf.drop (pos1 + a.length + 2) = t := by
      rw [Nat.add_assoc, ← drop_drop, ht]
      simp [crlf]
    simp only [hlen, Option.getD_some, if_neg hlack, if_neg hzero]
    exact ⟨_, _, rfl,
      by simp [hargv, ht], hkept, rfl, by simp, by simpa [argBytes, hdrop] using htf,
      by simp only; omega, hsize, by simp, .inl hbound⟩

theorem bulkLoop_spec :
    ∀ {c : Client} {pos : ℕ}, Rest c pos as tail future →
      ∃ done as' c' pos', as = done ++ as' ∧ bulkLoop as.length c pos = (c', pos', false) ∧
        c'.argv = c.argv ++ done ∧ Kept c c' ∧ Rest c' pos' as' tail future ∧
        (as' ≠ [] → Short c' pos' as') := by
  induction as with
  | nil =>
    intro c pos h
    exact ⟨[], [], c, pos, rfl, rfl, by simp, .refl c, h, by simp⟩
  | cons a as ih =>
    intro c pos h
    obtain ⟨c1, pos1, hloop, hargv, hkept, h1, hs⟩ | ⟨c1, pos1, hloop, hargv, hkept, h1⟩ :=
      bulkLoop_step h
    · exact ⟨[], a :: as, c1, pos1, rfl, hloop, by simp [hargv], hkept, h1, fun _ => hs⟩
    · obtain ⟨done, as', c', pos', rfl, hloop', hargv', hkept', h', hshort⟩ := ih h1
      exact ⟨a :: done, as', c', pos', rfl, hloop.trans hloop', by simp [hargv', hargv],
        hkept.trans hkept', h', hshort⟩

theorem readArgs_spec (h : Rest c pos as tail future) :
    ∃ done as' c', as = done ++ as' ∧ readArgs c pos = (c', decide (as' = [])) ∧
      c'.argv = c.argv ++ done ∧
      Kept c c' ∧ Rest c' 0 as' tail future ∧ (as' ≠ [] → Short c' 0 as') := by
  obtain ⟨done, as', c', pos', rfl, hloop, hargv, hkept, h', hshort⟩ := bulkLoop_spec h
  have hle := h'.le
  refine ⟨done, as', { c' with querybuf := c'.querybuf.drop pos' }, rfl, ?_, hargv, hkept,
    ⟨h'.left, h'.len, by simpa using h'.bytes, by simp, h'.size, fun _ _ _ => rfl, ?_⟩,
    fun hne => ?_⟩
  · rw [← h.left] at hloop
    simp [readArgs, hloop, h'.left]
  · rcases h'.bound with hb | ⟨n, hn, hge, hb⟩
    · refine .inl ?_
      simp only [length_drop]
      omega
    · refine .inr ⟨n, hn, hge, ?_⟩
      simp only [length_drop]
      omega
  · obtain ⟨h1, h2, h3⟩ := hshort hne
    refine ⟨fun hb => ?_, fun n hn => ?_, ?_⟩ <;> simp only [length_drop]
    · have := h1 hb
      omega
    · have := h2 n hn
      omega
    · omega

/-- Where the client is in the stream, at the top of the loop of `processInputBuffer`: between two
commands or inside one. -/
inductive At (c : Client) (rest : List (List Sds)) (future : Sds) : Prop
  | idle (hm : c.multibulklen = 0) (hb : c.bulklen = none) (ha : c.argv = [])
      (ht : c.reqtype ≠ .inline) (h : c.querybuf ++ future = encodeAll rest)
      (hl : c.querybuf.length ≤ protoInlineMaxSize)
  | inside (as : List Sds) (rest' : List (List Sds)) (hr : rest = (c.argv ++ as) :: rest')
      (hne : as ≠ []) (ht : c.reqtype = .multibulk) (h : Rest c 0 as (encodeAll rest') future)

/-- The current command has not arrived as a whole, and little of it is in the buffer. -/
inductive Waits (c : Client) (rest : List (List Sds)) (future : Sds) : Prop
  | idle (hm : c.multibulklen = 0) (hb : c.bulklen = none) (ha : c.argv = [])
      (ht : c.reqtype ≠ .inline) (h : c.querybuf ++ future = encodeAll rest)
      (hl : c.querybuf.length ≤ 32) (hless : ∀ cmd ∈ rest.head?, c.querybuf.length <
        (encode cmd).length)
  | inside (as : List Sds) (rest' : List (List Sds)) (hr : rest = (c.argv ++ as) :: rest')
      (hne : as ≠ []) (ht : c.reqtype = .multibulk) (h : Rest c 0 as (encodeAll rest') future)
      (hs : Short c 0 as)

structure Parsed (c : Client) (rest : List (List Sds)) (future : Sds) : Prop where
  cmd : ∃ rest', rest = c.argv :: rest' ∧ c.querybuf ++ future = encodeAll rest'
  idle : c.multibulklen = 0
  bulk : c.bulklen = none
  bound : c.querybuf.length ≤ protoInlineMaxSize

variable {future : Sds}

theorem readArgs_at {rest' : List (List Sds)}
    (ht : c.reqtype = .multibulk) (h : Rest c pos as (encodeAll rest') future) :
    ∃ c' ok, readArgs c pos = (c', ok) ∧ Kept c c' ∧
      (ok = false → Waits c' ((c.argv ++ as) :: rest') future) ∧
      (ok = true → Parsed c' ((c.argv ++ as) :: rest') future) := by
  obtain ⟨done, as', c', rfl, hargs, hargv, hkept, h', hshort⟩ := readArgs_spec h
  refine ⟨c', _, hargs, hkept, fun hok => ?_, fun hok => ?_⟩
  · have hne : as' ≠ [] := by simpa using hok
    exact .inside as' rest' (by simp [hargv]) hne (hkept.1.trans ht) h' (hshort hne)
  · obtain rfl : as' = [] := by simpa using hok
    have hb : c'.bulklen = none := by
      rcases hb : c'.bulklen with _ | n
      · rfl
      · obtain ⟨a, as', heq, -⟩ := h'.len n hb
        cases heq
    refine ⟨⟨rest', by simp [hargv], by simpa [hb, argBytes, encodeArgs] using h'.bytes⟩,
      h'.left, hb, ?_⟩
    rcases h'.bound with hl | ⟨n, hn, -⟩
    · exact hl
    · rw [hb] at hn
      cases hn

theorem encodeAll_cons (cmd : List Sds) (rest : List (List Sds)) :
    encodeAll (cmd :: rest) = encode cmd ++ encodeAll rest := rfl

theorem processMultibulkBuffer_idle {cmd : List Sds} {rest' : List (List Sds)}
    (hm : c.multibulklen = 0) (hb : c.bulklen = none) (ha : c.argv = [])
    (ht : c.reqtype = .multibulk) (h : c.querybuf ++ future = encodeAll (cmd :: rest'))
    (hl : c.querybuf.length ≤ protoInlineMaxSize) (hs : Sendable cmd) :
    ∃ c' ok, processMultibulkBuffer c = some (c', ok) ∧ Kept c c' ∧
      (ok = false → Waits c' (cmd :: rest') future) ∧
      (ok = true → Parsed c' (cmd :: rest') future) := by
  have hheader : c.querybuf ++ future =
      42 :: (decimal cmd.length ++ crlf ++ (encodeArgs cmd ++ encodeAll rest')) := by
    rw [h, encodeAll_cons]
    simp [encode]
  have hcount := hs.count
  have hdec : (decimal cmd.length).length ≤ 7 := length_decimal_le (k := 6) (by omega)
  obtain ⟨hlt, hstr⟩ | ⟨t, hbuf, htf, hstr⟩ := strchr_header (by decide) (by decide) hheader
  · refine ⟨c, false, ?_, .refl c,
      fun _ => .idle hm hb ha (by simp [ht]) h (by omega) fun cmd' hcmd' => ?_, by simp⟩
    · rcases hstr with hstr | hstr
      · simp [processMultibulkBuffer, hm, ha, hstr, not_lt.mpr hl]
      · simp [processMultibulkBuffer, hm, ha, hstr, hlt]
    · obtain rfl : cmd = cmd' := by simpa using hcmd'
      simp only [encode, crlf, length_append, length_cons, length_nil]
      omega
  -- the whole line is there
  have hcr : ¬ c.querybuf.length < (decimal cmd.length).length + 1 + 2 := by
    simp only [hbuf, crlf, length_cons, length_append, length_nil]
    omega
  have hdrop : c.querybuf.drop ((decimal cmd.length).length + 1 + 2) = t := by
    rw [hbuf]
    simp [crlf]
  have hll : string2ll (decimal cmd.length) = some (cmd.length : ℤ) :=
    string2ll_decimal (by unfold llongMax; omega)
  have hrange : ¬ (1048576 : ℤ) < cmd.length := by omega
  have hrest : Rest { c with multibulklen := cmd.length } ((decimal cmd.length).length + 1 + 2)
      cmd (encodeAll rest') future :=
    ⟨rfl, by simp [hb], by simpa [hb, hdrop, argBytes] using htf, by simp only; omega, hs.size,
      by simp [hb], .inl hl⟩
  obtain ⟨c', ok, hargs, hkept, hf, htr⟩ := readArgs_at
    (c := { c with multibulklen := cmd.length }) ht hrest
  rw [ha] at hf htr
  simp only [ha] at hargs
  refine ⟨c', ok, ?_, hkept, hf, htr⟩
  have hhead : c.querybuf.head? = some 42 := by
    rw [hbuf]
    rfl
  have htake : c.querybuf.tail.take (decimal cmd.length).length = decimal cmd.length := by
    rw [hbuf]
    simp
  simp [processMultibulkBuffer, hm, ha, hstr, hcr, hhead, htake, hll, hrange, hs.pos, hargs]

variable {rest : List (List Sds)}

/-- The parser sees the stream for what it is: it needs more bytes, or it has a command. -/
theorem processBuffer_spec
    (h : At c rest future) (hs : ∀ cmd ∈ rest, Sendable cmd) (hq : c.querybuf ≠ []) :
    ∃ c' ok, processBuffer (setReqtype c) = some (c', ok) ∧ Kept (setReqtype c) c' ∧
      (ok = false → Waits c' rest future) ∧ (ok = true → Parsed c' rest future) := by
  rcases h with ⟨hm, hb, ha, ht, h, hl⟩ | ⟨as, rest', rfl, hne, ht, h⟩
  · rcases rest with _ | ⟨cmd, rest'⟩
    · simp [encodeAll, hq] at h
    -- the first byte of a command is a star
    have hhead : c.querybuf.head? = some 42 := by
      obtain ⟨b, buf, hbuf⟩ := exists_cons_of_ne_nil hq
      rw [hbuf, encodeAll_cons, encode] at h
      rw [hbuf, head?_cons, (cons.inj h).1]
    have hset : setReqtype c = { c with reqtype := .multibulk } := by
      rcases hr : c.reqtype
      · simp [setReqtype, hr, hhead]
      · exact absurd hr ht
      · simp only [setReqtype, hr]
        rw [if_neg (by decide), ← hr]
    rw [hset]
    exact processMultibulkBuffer_idle hm hb ha rfl h hl (hs cmd mem_cons_self)
  · have hset : setReqtype c = c := by simp [setReqtype, ht]
    have hm : c.multibulklen ≠ 0 := by
      rw [h.left]
      exact fun h0 => hne (length_eq_zero_iff.mp h0)
    obtain ⟨c', ok, hargs, hspec⟩ := readArgs_at ht h
    refine ⟨c', ok, ?_, by rwa [hset]⟩
    simp [hset, processBuffer, ht, processMultibulkBuffer, hm, hargs]

theorem At.waits_of_nil (h : At c rest future) (hq : c.querybuf = []) : Waits c rest future := by
  rcases h with ⟨hm, hb, ha, ht, h, hl⟩ | ⟨as, rest', rfl, hne, ht, h⟩
  · exact .idle hm hb ha ht h (by simp [hq]) fun cmd _ => by simp [hq, encode]
  · refine .inside as rest' rfl hne ht h ⟨fun _ => by simp [hq], fun n _ => by simp [hq], ?_⟩
    obtain ⟨a, as, rfl⟩ := exists_cons_of_ne_nil hne
    rcases hb : c.bulklen with _ | n <;> simp [hq, argBytes, encodeArgs, encodeArg, crlf]

theorem At.lt {cmd : List Sds} (h : At c (cmd :: rest) future) :
    (encodeAll rest).length < c.querybuf.length + future.length := by
  rcases h with ⟨-, -, -, -, h, -⟩ | ⟨as, rest', hr, hne, -, h⟩
  · have := congrArg length h
    simp only [encodeAll_cons, encode, length_append, length_cons] at this
    omega
  · obtain ⟨-, rfl⟩ := cons.inj hr
    have := congrArg length h.bytes
    obtain ⟨a, as, rfl⟩ := exists_cons_of_ne_nil hne
    rcases hb : c.bulklen with _ | n <;>
      simp [hb, argBytes, encodeArgs, encodeArg, crlf] at this <;> omega

theorem Waits.readlen_pos (h : Waits c rest future) : 0 < readlen c := by
  have hio : (0 : ℤ) < protoIobufLen := by decide
  unfold readlen
  rcases hb : c.bulklen with _ | n
  · exact hio
  rcases h with ⟨-, hb', -⟩ | ⟨as, rest', -, -, -, -, hs⟩
  · rw [hb] at hb'
    cases hb'
  · have := hs.lack n hb
    simp only
    split_ifs
    · omega
    · exact hio

theorem Waits.read {bytes : Sds}
    (h : Waits c rest (bytes ++ future)) (hlen : (bytes.length : ℤ) ≤ readlen c) :
    At { c with querybuf := c.querybuf ++ bytes } rest future ∧
      (c.querybuf ++ bytes).length ≤ protoMaxQuerybufLen := by
  unfold readlen at hlen
  have hio : protoIobufLen = 16384 := rfl
  have hinl : protoInlineMaxSize = 65536 := rfl
  have hmbig : protoMbulkBigArg = 32768 := rfl
  have hmax : protoMaxQuerybufLen = 1073741824 := rfl
  rcases h with ⟨hm, hb, ha, ht, h, hl, -⟩ | ⟨as, rest', rfl, hne, ht, h, hs⟩
  · simp only [hb] at hlen
    have hlen' : (c.querybuf ++ bytes).length ≤ 65536 := by
      rw [length_append]
      omega
    exact ⟨.idle hm hb ha ht (by simpa using h) hlen', by omega⟩
  · have hm : c.multibulklen ≠ 0 := by
      rw [h.left]
      exact fun h0 => hne (length_eq_zero_iff.mp h0)
    have hrest : (c.querybuf ++ bytes).length ≤ protoInlineMaxSize ∨
        (∃ n, c.bulklen = some n ∧ protoMbulkBigArg ≤ n ∧
          (c.querybuf ++ bytes).length ≤ n + 2) := by
      rw [length_append]
      rcases hb : c.bulklen with _ | n
      · have := hs.header hb
        simp only [hb] at hlen
        exact .inl (by omega)
      · have := hs.lack n hb
        simp only [hb, ht, hm, ne_eq, not_false_eq_true, true_and] at hlen
        by_cases hbig : protoMbulkBigArg ≤ n
        · exact .inr ⟨n, rfl, hbig, by omega⟩
        · exact .inl (by omega)
    refine ⟨.inside as rest' rfl hne ht ⟨h.left, h.len, by simpa using h.bytes, by simp, h.size,
      fun _ _ _ => rfl, hrest⟩, ?_⟩
    rcases hrest with hl | ⟨n, hn, -, hl⟩
    · omega
    · obtain ⟨a, as', rfl, rfl⟩ := h.len n hn
      have := h.size a mem_cons_self
      omega

def bulkStages (cmds : List (List Sds)) (hs : ∀ cmd ∈ cmds, Sendable cmd) : Stages where
  stream := encodeAll cmds
  requests := cmds
  kind _ := True
  here c future := ∃ rest, cmds = c.handed ++ rest ∧ At c rest future
  waits c future := ∃ rest, cmds = c.handed ++ rest ∧ Waits c rest future
  between handed buf future :=
    ∃ rest, cmds = handed ++ rest ∧ buf ++ future = encodeAll rest ∧ buf.length ≤ protoInlineMaxSize
  start := ⟨cmds, rfl, .idle rfl rfl rfl (by simp [newClient]) rfl (by simp [newClient])
    fun cmd _ => by simp [newClient, encode]⟩
  kind_unknown := trivial
  waits_nil := fun ⟨rest, hr, h⟩ hq => ⟨rest, hr, h.waits_of_nil hq⟩
  waits_readlen := fun ⟨_, _, h⟩ => h.readlen_pos
  waits_read := fun ⟨rest, hr, h⟩ hlen => ⟨⟨rest, hr, (h.read hlen).1⟩, (h.read hlen).2⟩
  between_handed := fun ⟨rest, hr, _⟩ => ⟨rest, hr.symm⟩
  between_reset :=
    fun ⟨rest, hr, hbuf, hl⟩ => ⟨rest, hr, .idle rfl rfl rfl (by simp [resetClient]) hbuf hl⟩
  parse := by
    rintro c future ⟨rest, hr, h⟩ hq
    have hrest : ∀ cmd ∈ rest, Sendable cmd := fun cmd hcmd => hs cmd (by simp [hr, hcmd])
    obtain ⟨c', ok, hproc, hkept, hwait, hparsed⟩ := processBuffer_spec h hrest hq
    have hhanded : c'.handed = c.handed := by rw [hkept.2.2.2.2.2, setReqtype_eq]
    refine ⟨c', ok, hproc, hkept, trivial, fun hok => ⟨rest, by rw [hhanded, hr], hwait hok⟩,
      fun hok => ?_⟩
    have hp := hparsed hok
    obtain ⟨rest', rfl, hbuf⟩ := hp.cmd
    have hargv : c'.argv ≠ [] := (hrest c'.argv mem_cons_self).pos
    refine ⟨hp.bulk, ?_, rest', by simp [hhanded, hr, hargv], hbuf, hp.bound⟩
    have h1 := h.lt
    have h2 := congrArg length hbuf
    rw [length_append] at h2
    omega

theorem encodeAll_append (cmds cmds' : List (List Sds)) :
    encodeAll (cmds ++ cmds') = encodeAll cmds ++ encodeAll cmds' := by
  simp [encodeAll]

/-- A client that waits has not received the next command, and nothing of the one after it. -/
theorem Waits.future_le (h : Waits c rest future) :
    future.length ≤ (encodeAll rest).length ∧
      ∀ cmd rest', rest = cmd :: rest' → (encodeAll rest').length < future.length := by
  rcases h with ⟨-, -, -, -, h, -, hless⟩ | ⟨as, rest', rfl, hne, -, h, hs⟩
  · have hlen := congrArg length h
    rw [length_append] at hlen
    refine ⟨by omega, ?_⟩
    rintro cmd rest' rfl
    have := hless cmd rfl
    rw [encodeAll_cons, length_append] at hlen
    omega
  · have hlen := congrArg length h.bytes
    have hmiss := hs.missing
    rw [drop_zero, length_append, length_append] at hlen
    have hcmd : (argBytes c.bulklen as).length ≤ (encode (c.argv ++ as)).length := by
      rcases hb : c.bulklen with _ | n
      · simp only [argBytes, encode, encodeArgs, flatMap_append, length_append,
          length_cons]
        omega
      · obtain ⟨a, as', rfl, -⟩ := h.len n hb
        simp only [argBytes, encode, encodeArgs, encodeArg, flatMap_append, flatMap_cons,
          length_append, length_cons]
        omega
    refine ⟨by rw [encodeAll_cons, length_append]; omega, ?_⟩
    rintro cmd rest'' heq
    obtain ⟨-, rfl⟩ := cons.inj heq
    omega

/-- The commands handed over are those that have arrived as a whole. -/
theorem handed_iff {received : Sds} {handed rest : List (List Sds)}
    (h : received ++ future = encodeAll (handed ++ rest))
    (hle : future.length ≤ (encodeAll rest).length)
    (hlt : ∀ cmd rest', rest = cmd :: rest' → (encodeAll rest').length < future.length) {k : ℕ}
    (hk : k ≤ (handed ++ rest).length) :
    encodeAll ((handed ++ rest).take k) <+: received ↔ k ≤ handed.length := by
  have hlen := congrArg length h
  rw [encodeAll_append, length_append, length_append] at hlen
  constructor
  · intro hpre
    by_contra hgt
    rcases rest with _ | ⟨cmd, rest'⟩
    · rw [append_nil] at hk
      omega
    have h1 := hpre.length_le
    have h2 := hlt cmd rest' rfl
    obtain ⟨m, rfl⟩ : ∃ m, k = handed.length + (m + 1) := ⟨k - handed.length - 1, by omega⟩
    rw [take_length_add_append, take_succ_cons, encodeAll_append, encodeAll_cons,
      length_append, length_append] at h1
    rw [encodeAll_cons, length_append] at hlen
    omega
  · intro hle'
    have hpre : encodeAll ((handed ++ rest).take k) <+: received ++ future := by
      refine ⟨encodeAll ((handed ++ rest).drop k), ?_⟩
      rw [← encodeAll_append, take_append_drop, h]
    refine prefix_of_prefix_length_le hpre (prefix_append _ _) ?_
    · have hsplit := congrArg length (congrArg encodeAll (take_append_drop k handed))
      rw [encodeAll_append, length_append] at hsplit
      rw [take_append_of_le_length hle']
      omega

/-- However the stream is cut into reads of at most the length asked for: every read asks for at
least one byte, no request is refused and no assertion fails, the argument vectors handed to
`processCommand` are the commands as they were sent, and, as long as no command ends the
connection, all commands that have arrived as a whole have been handed over (of a client that
jumps, when it is back). -/
theorem commands_delivered (exec : List (List Sds) → Outcome) (cmds : List (List Sds))
    (hs : ∀ cmd ∈ cmds, Sendable cmd) {received : Sds} {c : Client} (h : Reads exec received c)
    (hp : received <+: encodeAll cmds) :
    c.errors = [] ∧ c.handed <+: cmds ∧
      (c.jump = false → c.gone = false → 0 < readlen c ∧
        ∀ bytes, (bytes.length : ℤ) ≤ readlen c → received ++ bytes <+: encodeAll cmds →
          ∃ c', readQueryFromClient exec c bytes = some c') ∧
      (∀ close, c.jump = true → exec c.handed = .jump close →
        ∃ c', jumpDone exec c close = some c') ∧
      ((∀ k ≤ c.handed.length, (exec (c.handed.take k)).stays = true) →
        c.gone = false ∧ c.closeAfterReply = false ∧ (c.jump = false → ∀ k ≤ cmds.length,
          (encodeAll (cmds.take k) <+: received ↔ k ≤ c.handed.length))) := by
  obtain ⟨herr, -, hpre, hreads, hjumps, hstays⟩ := h.delivers (bulkStages cmds hs) hp
  refine ⟨herr, hpre, hreads, hjumps, fun hstay => ?_⟩
  obtain ⟨hg, hc, hwaits⟩ := hstays hstay
  refine ⟨hg, hc, fun hj k hk => ?_⟩
  obtain ⟨future, hf, rest, rfl, hw⟩ := hwaits hj
  obtain ⟨hle, hlt⟩ := hw.future_le
  exact handed_iff hf hle hlt hk

/-- Two commands in four reads, the first with an argument of a line end and a zero byte. -/
theorem commands_delivered_pipelined :
    let cmds : List (List Sds) := [[[83, 69, 84], [107], [13, 10, 0]], [[71, 69, 84], [107]]]
    ∃ c, Reads (fun _ => .ok) (encodeAll cmds) c ∧ c.handed = cmds := by
  intro cmds
  have h₁ :=
    @Reads.read (fun _ => .ok) [] [42, 51, 13, 10, 36, 51, 13, 10, 83, 69] _ _ .start rfl rfl
    (by decide) (by decide) rfl
  have h₂ :=
    @Reads.read _ _ [84, 13, 10, 36, 49, 13, 10, 107, 13, 10, 36, 51, 13, 10, 13, 10] _ _ h₁ rfl rfl
    (by decide) (by decide) rfl
  have h₃ :=
    @Reads.read _ _ [0, 13, 10, 42, 50, 13, 10, 36, 51, 13, 10, 71, 69, 84, 13, 10, 36, 49] _ _ h₂
    rfl rfl (by decide) (by decide) rfl
  have h₄ := @Reads.read _ _ [13, 10, 107, 13, 10] _ _ h₃ rfl rfl (by decide) (by decide) rfl
  have hs : ∀ cmd ∈ cmds, Sendable cmd := by
    intro cmd hcmd
    rcases mem_pair.mp hcmd with rfl | rfl <;> exact ⟨by decide, by decide, by decide⟩
  obtain ⟨-, hpre, -, -, hall⟩ := commands_delivered (fun _ => .ok) cmds hs h₄ (prefix_refl _)
  obtain ⟨-, -, hiff⟩ := hall fun _ _ => rfl
  exact ⟨_, h₄, hpre.eq_of_length_le (((hiff rfl) 2 le_rfl).mp (prefix_refl _))⟩

end Vire.Proto
