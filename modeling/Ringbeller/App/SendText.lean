import Ringbeller.App.Calls

/-!
# Handing over the text of a short message

The three handlers of `run_send_sms`, one behind the other: the write of the AT+CMGS line, the
read of the prompt and the write of the text.
-/

namespace Ringbeller
set_option autoImplicit false

open Asio Script Session

namespace SendSms

variable {smsText : List UInt8}

def setup : List Request := [makeAtCmgfWrite (ascii "1"), makeAtCscsWrite (ascii "\"GSM\"")]

def cmgs (da : List UInt8) : Request := makeAtCmgsWrite (ascii "\"" ++ da ++ ascii "\"")

theorem program_looping (da smsText : List UInt8) : program da smsText =
    looping (handle smsText) setup (·.asyncWrite (cmgs da) .cmgsWriteHandler) := rfl

/-! ## The three calls -/

/-- The call behind the write of the AT+CMGS line, which is started in the state `s`. -/
def lineCall (da : List UInt8) (s : Session Handler) : Call Handler :=
  ⟨.writing (Ringbeller.asyncWrite (cmgs da) s.puts).1, .cmgsWriteHandler,
    { s.asyncWrite (cmgs da) .cmgsWriteHandler with pending := none }⟩

/-- The call behind the read that the state `s` waits for. -/
def promptCall (s : Session Handler) : Call Handler :=
  ⟨.reading s.buf.data (Ringbeller.asyncRead s.buf), .promptReadHandler, { s with pending := none }⟩

/-- The call behind the write of the text, which the call `d` has started. -/
def textCall (smsText : List UInt8) (d : Call Handler) : Call Handler :=
  ⟨.writing (Ringbeller.asyncWriteText smsText d.before.puts).1, .textWriteHandler,
    { d.after (handle smsText) with pending := none }⟩

/-- The call starts the write of the text. -/
def StartsText (smsText : List UInt8) (c : Call Handler) : Prop :=
  ∃ op, (c.after (handle smsText)).pending = some (op, .textWriteHandler)

/-- The read has completed with what the handler takes for the prompt. -/
def Passes (r : ReadRecord) : Prop :=
  r.ec = false ∧ r.after.rc = .none ∧ frontMarked "> " r.after = true

/-- The write of the text has been started in the state `s`, and `t` is the state behind it. -/
structure Started (smsText : List UInt8) (s t : Session Handler) : Prop where
  pending : t.pending =
    some (.writing (Ringbeller.asyncWriteText smsText s.puts).1, .textWriteHandler)
  puts : t.puts = (Ringbeller.asyncWriteText smsText s.puts).2.2
  written : t.written = s.written ++ (Ringbeller.asyncWriteText smsText s.puts).2.1
  thrown : t.thrown = s.thrown

theorem handle_passes (smsText : List UInt8) (n : Nat) {s : Session Handler}
    (hrc : s.response.rc = .none) (hmarked : frontMarked "> " s.response = true) :
    handle smsText .promptReadHandler false n s =
      ((s.consume n).print "Prompt received, sending SMS body\n").asyncWriteText smsText
        .textWriteHandler := by
  simp [handle, hrc, hmarked]

theorem handle_refuses (ec : Bool) (n : Nat) {s : Session Handler}
    (h : ¬ (ec = false ∧ s.response.rc = .none ∧ frontMarked "> " s.response = true)) :
    handle smsText .promptReadHandler ec n s = if ec then s else s.consume n := by
  cases ec with
  | true => rfl
  | false =>
    have htest : ¬ (s.response.rc = .none ∧ frontMarked "> " s.response = true) := fun hs =>
      h ⟨rfl, hs⟩
    simp [handle, htest]

section Prompt
variable {c : Call Handler} {r : ReadRecord}

theorem prompt_passes (smsText : List UInt8) (hc : c.handler = .promptReadHandler)
    (hr : c.record = some r) (h : Passes r) :
    Started smsText c.before (c.after (handle smsText)) := by
  obtain ⟨hec, hrc, hmarked⟩ := h
  obtain ⟨t, ht, hafter⟩ := Call.after_read (handle smsText) hr
  rw [← ht.response] at hrc hmarked
  rw [hafter, hc, hec, handle_passes smsText r.count hrc hmarked]
  constructor
  · rw [← ht.puts]
    rfl
  · rw [← ht.puts]
    rfl
  · rw [written_consume, Session.asyncWriteText, written_startWriting, written_print,
      written_consume, ht.written, ← ht.puts]
    rfl
  · exact ht.thrown

theorem prompt_refused (smsText : List UInt8) (hc : c.handler = .promptReadHandler)
    (hr : c.record = some r) (hpending : c.before.pending = none) (h : ¬ Passes r) :
    (c.after (handle smsText)).pending = none ∧
      (c.after (handle smsText)).thrown = c.before.thrown := by
  obtain ⟨t, ht, hafter⟩ := Call.after_read (handle smsText) hr
  rw [Passes, ← ht.response] at h
  rw [hafter, hc, handle_refuses _ _ h, ← hpending, ← ht.pending, ← ht.thrown]
  split
  · exact ⟨rfl, rfl⟩
  · exact ⟨rfl, rfl⟩

theorem startsText_prompt (hc : c.handler = .promptReadHandler) (hr : c.record = some r)
    (hpending : c.before.pending = none) : StartsText smsText c ↔ Passes r := by
  constructor
  · rintro ⟨op, hop⟩
    by_contra hno
    rw [(prompt_refused smsText hc hr hpending hno).1] at hop
    cases hop
  · exact fun h => ⟨_, (prompt_passes smsText hc hr h).pending⟩

end Prompt

/-- The other handlers leave the text alone. -/
theorem not_startsText {c : Call Handler} {op : Writing} (hop : c.op = .writing op)
    (hpending : c.before.pending = none) (hc : c.handler ≠ .promptReadHandler) :
    ¬ StartsText smsText c := by
  obtain ⟨t, ht, hafter⟩ := Call.after_write (handle smsText) hop
  have hnone : t.pending = none := ht.pending.trans hpending
  intro h
  obtain ⟨op, hstarts⟩ := h
  rw [hafter] at hstarts
  cases hhandler : c.handler with
  | promptReadHandler => exact hc hhandler
  | textWriteHandler =>
    rw [hhandler] at hstarts
    exact absurd (hnone.symm.trans hstarts) (by simp)
  | cmgsWriteHandler =>
    cases hec : c.ec with
    | true =>
      rw [hhandler, hec] at hstarts
      exact absurd (hnone.symm.trans hstarts) (by simp)
    | false =>
      rw [hhandler, hec] at hstarts
      exact absurd (Prod.mk.inj (Option.some.inj hstarts)).2 (by simp)

/-! ## The loop -/

/-- The calls of the loop whose first one is `c`, whether the loop has ended, and the state behind
it. -/
inductive Loop (smsText : List UInt8) (c : Call Handler) :
    List (Call Handler) → Bool × Session Handler → Prop where
  | interrupted (s : Session Handler) : Loop smsText c [] (false, s)
  | unwritten (hc : c.ec = true) : Loop smsText c [c] (true, c.after (handle smsText))
  | waiting (hc : c.ec = false) : Loop smsText c [c] (false, c.after (handle smsText))
  | refused (d : Call Handler) (hc : c.ec = false) (hd : d = promptCall (c.after (handle smsText)))
      (hstarts : ¬ StartsText smsText d) :
      Loop smsText c [c, d] (true, d.after (handle smsText))
  | handing (d : Call Handler) (hc : c.ec = false) (hd : d = promptCall (c.after (handle smsText)))
      (hstarts : StartsText smsText d) : Loop smsText c [c, d] (false, d.after (handle smsText))
  | handed (d e : Call Handler) (hc : c.ec = false)
      (hd : d = promptCall (c.after (handle smsText))) (hstarts : StartsText smsText d)
      (he : e = textCall smsText d) : Loop smsText c [c, d, e] (true, e.after (handle smsText))

theorem prompt_record (s : Session Handler) :
    (promptCall s).record = some (firstAsyncRead ⟨s.turns, s.buf, s.response⟩).1 := rfl

theorem line_after (smsText : List UInt8) {c : Call Handler} {op : Writing}
    (hop : c.op = .writing op) (hc : c.handler = .cmgsWriteHandler) : ∃ t, WriteDone op c.before t ∧
      c.after (handle smsText) = if c.ec then t else t.asyncRead .promptReadHandler := by
  obtain ⟨t, ht, hafter⟩ := Call.after_write (handle smsText) hop
  exact ⟨t, ht, by rw [hafter, hc]; rfl⟩

theorem text_after {c : Call Handler} {op : Writing} (hop : c.op = .writing op)
    (hc : c.handler = .textWriteHandler) : WriteDone op c.before (c.after (handle smsText)) := by
  obtain ⟨t, ht, hafter⟩ := Call.after_write (handle smsText) hop
  rw [hc] at hafter
  exact hafter ▸ ht

theorem loop_text {c d : Call Handler} (n : Nat) (hc : c.ec = false)
    (hd : d = promptCall (c.after (handle smsText))) (hstarts : StartsText smsText d)
    (hstarted : Started smsText d.before (d.after (handle smsText)))
    (hthrown : d.before.thrown = false) :
    Loop smsText c (c :: d :: calls (handle smsText) n (d.after (handle smsText)))
      (dispatch (handle smsText) n (d.after (handle smsText))) := by
  cases n with
  | zero =>
    obtain ⟨hcalls, hend⟩ := loop_interrupted (handle smsText) hstarted.pending
    rw [hcalls, hend]
    exact .handing d hc hd hstarts
  | succ n =>
    obtain ⟨e, he⟩ : ∃ e, e = textCall smsText d := ⟨_, rfl⟩
    have hdone : WriteDone _ e.before (e.after (handle smsText)) := text_after (by rw [he]; rfl)
      (by rw [he]; rfl)
    have hpending : (e.after (handle smsText)).pending = none := by
      rw [hdone.pending, he]
      rfl
    have hethrown : (e.after (handle smsText)).thrown = false := by
      rw [hdone.thrown, he]
      exact hstarted.thrown.trans hthrown
    obtain ⟨hcalls, hdispatch⟩ := loop_call (handle smsText) (c := e)
      (by rw [hstarted.pending, he]; rfl) (by rw [he]; rfl) n
    obtain ⟨hnone, hend⟩ := loop_idle (handle smsText) hpending n
    rw [hcalls, hdispatch, hnone, hend, hethrown]
    exact .handed d e hc hd hstarts he

theorem loop_prompt {c : Call Handler} (n : Nat) (hc : c.ec = false)
    (hpending : (c.after (handle smsText)).pending =
      some ((promptCall (c.after (handle smsText))).op, .promptReadHandler))
    (hthrown : (c.after (handle smsText)).thrown = false) :
    Loop smsText c (c :: calls (handle smsText) n (c.after (handle smsText)))
      (dispatch (handle smsText) n (c.after (handle smsText))) := by
  cases n with
  | zero =>
    obtain ⟨hcalls, hend⟩ := loop_interrupted (handle smsText) hpending
    rw [hcalls, hend]
    exact .waiting hc
  | succ n =>
    obtain ⟨d, hd⟩ : ∃ d, d = promptCall (c.after (handle smsText)) := ⟨_, rfl⟩
    have hhandler : d.handler = .promptReadHandler := by rw [hd]; rfl
    have hrecord := prompt_record (c.after (handle smsText))
    have hdpending : d.before.pending = none := by rw [hd]; rfl
    have hdthrown : d.before.thrown = false := by
      rw [hd]
      exact hthrown
    rw [← hd] at hrecord hpending
    obtain ⟨hcalls, hdispatch⟩ := loop_call (handle smsText) (c := d)
      (by rw [hpending, hhandler]) (by rw [hd]; rfl) n
    rw [hcalls, hdispatch]
    by_cases hpasses : Passes (firstAsyncRead ⟨(c.after (handle smsText)).turns,
        (c.after (handle smsText)).buf, (c.after (handle smsText)).response⟩).1
    · exact loop_text n hc hd ((startsText_prompt hhandler hrecord hdpending).mpr hpasses)
        (prompt_passes smsText hhandler hrecord hpasses) hdthrown
    · obtain ⟨hnone, hthrown'⟩ :=
        prompt_refused smsText hhandler hrecord hdpending hpasses
      obtain ⟨hcalls, hend⟩ := loop_idle (handle smsText) hnone n
      rw [hcalls, hend, hthrown', hdthrown]
      exact .refused d hc hd fun h =>
        hpasses ((startsText_prompt hhandler hrecord hdpending).mp h)

theorem loop_line (smsText da : List UInt8) (n : Nat) {s : Session Handler}
    (hthrown : s.thrown = false) :
    Loop smsText (lineCall da s)
      (calls (handle smsText) n (s.asyncWrite (cmgs da) .cmgsWriteHandler))
      (dispatch (handle smsText) n (s.asyncWrite (cmgs da) .cmgsWriteHandler)) := by
  obtain ⟨c, hc⟩ : ∃ c, lineCall da s = c := ⟨_, rfl⟩
  have hline : (s.asyncWrite (cmgs da) .cmgsWriteHandler).pending = some (c.op, c.handler) := by
    rw [← hc]
    rfl
  have hbefore : { s.asyncWrite (cmgs da) .cmgsWriteHandler with pending := none } = c.before := by
    rw [← hc]
    rfl
  obtain ⟨t, ht, hafter⟩ := line_after smsText (c := c) (by rw [← hc]; rfl)
    (by rw [← hc]; rfl)
  have hpending : t.pending = none := by rw [ht.pending, ← hbefore]
  have hcthrown : t.thrown = false := by
    rw [ht.thrown, ← hbefore]
    exact hthrown
  rw [hc]
  cases n with
  | zero =>
    obtain ⟨hcalls, hend⟩ := loop_interrupted (handle smsText) hline
    rw [hcalls, hend]
    exact .interrupted _
  | succ n =>
    obtain ⟨hcalls, hdispatch⟩ := loop_call (handle smsText) hline hbefore n
    rw [hcalls, hdispatch]
    cases hec : c.ec with
    | true =>
      rw [hec, if_pos rfl] at hafter
      obtain ⟨hnone, hend⟩ := loop_idle (handle smsText) hpending n
      have hunwritten : Loop smsText c [c] (true, c.after (handle smsText)) := .unwritten hec
      rw [hafter] at hunwritten ⊢
      rw [hnone, hend, hcthrown]
      exact hunwritten
    | false =>
      rw [hec, if_neg Bool.false_ne_true] at hafter
      exact loop_prompt n hec (by rw [hafter]; rfl) (by rw [hafter]; exact hcthrown)

/-! ## The prompt -/

/-- The first message of the read is the prompt. -/
def Prompted (r : ReadRecord) : Prop := (ascii "\r\n> ").IsPrefix r.received

/-- Behind the messages `past`, the message is taken for the prompt: the first line of them all
has the marker, and no result code has been begun in the message. -/
structure TakenForPrompt (past : List ReadRecord) (r : ReadRecord) : Prop where
  marked : ∃ line, (firstLine past).or r.alone.body.head? = some line ∧ Marked (ascii "> ") line
  codeless : Codeless r.parsed

theorem Prompted.accepted {r : ReadRecord} (h : Prompted r) :
    (matchCondition r.received).2 = true := by
  obtain ⟨w, hw⟩ := h
  rw [← hw]
  refine accepts_iff.mpr ⟨ascii "> " ++ w, ?_, Or.inr ⟨w, ?_⟩⟩
  · exact X3.skipOver_cons_of_neg blank_cr _
  · exact X3.skipOver_cons_of_neg (by decide) _

theorem prompted_ec {s : ReadState} (hbuf : s.buffer = .new) (h : Prompted (firstAsyncRead s).1) :
    (firstAsyncRead s).1.ec = false := by
  have haccepted := h.accepted
  rw [firstAsyncRead_ec, hbuf, Streambuf.new, List.nil_append, haccepted]
  rfl

/-- What the handler's test says of a read that has started on an unused buffer. -/
theorem passes_iff {s : ReadState} {past : List ReadRecord} (hbuf : s.buffer = .new)
    (hchain : Chain past s.msg) : Passes (firstAsyncRead s).1 ↔
      (firstAsyncRead s).1.ec = false ∧ TakenForPrompt past (firstAsyncRead s).1 := by
  obtain ⟨r, hr⟩ : ∃ r, (firstAsyncRead s).1 = r := ⟨_, rfl⟩
  have hec := firstAsyncRead_ec s
  obtain ⟨extra, hparsed⟩ := firstAsyncRead_parsed s
  have hafter : r.ec = false → r.after = populateResponseFromBuffer ⟨r.parsed, []⟩ s.msg := by
    rw [← hr]
    intro h
    exact if_neg (ne_true_of_eq_false h)
  rw [hr, hbuf] at hec hparsed
  rw [hr]
  apply and_congr_right
  intro hok
  have haccepted : (matchCondition r.parsed).2 = true := by
    rw [hok] at hec
    rw [← hparsed]
    exact accepts_append (by simpa using hec) extra
  rw [hafter hok, populate_alone, frontMarked_iff (by decide)]
  have hcode : r.alone.rc = .none ↔ Codeless r.parsed := parseResponse_codeless haccepted
  have hbody : (s.msg.body ++ r.alone.body).head? = (firstLine past).or r.alone.body.head? := by
    rw [hchain.body, List.head?_append]
    rfl
  rw [hcode, hbody]
  exact ⟨fun h => ⟨h.2, h.1⟩, fun h => ⟨h.codeless, h.marked⟩⟩

/-- What the run has written in front of the text. -/
def lines (da : List UInt8) : List UInt8 := setup.flatMap toString ++ toString (cmgs da)

/-- The read of the prompt, which follows the write of the AT+CMGS line. -/
structure PromptRead (da : List UInt8) (c d : Call Handler) (r : ReadRecord) : Prop where
  handler : d.handler = .promptReadHandler
  pending : d.before.pending = none
  record : d.record = some r
  passes : Passes r ↔ r.ec = false ∧ TakenForPrompt d.before.records r
  prompted : Prompted r → r.ec = false
  written : d.before.written = lines da ↔ c.Intact (toString (cmgs da))

theorem lineCall_writes (da : List UInt8) (s : Session Handler) :
    Writes (toString (cmgs da)) s (lineCall da s) :=
  ⟨rfl, rfl, written_startWriting (Ringbeller.asyncWrite (cmgs da) s.puts) .cmgsWriteHandler s⟩

theorem prompt_read {da : List UInt8} {s : Session Handler} (hs : Ready setup s)
    {c d : Call Handler} (hline : c = lineCall da s) (hc : c.ec = false)
    (hd : d = promptCall (c.after (handle smsText))) : ∃ r, PromptRead da c d r := by
  have hwrites := lineCall_writes da s
  rw [← hline] at hwrites
  obtain ⟨t, ht, hafter⟩ := line_after smsText hwrites.op (by rw [hline]; rfl)
  rw [hc, if_neg Bool.false_ne_true] at hafter
  have hbuf : t.buf = .new := by
    rw [ht.buf, hline]
    exact hs.buf
  have hchained : t.Chained := by
    apply ht.chained
    rw [hline]
    exact hs.chained.of_eq
      (reads_startWriting (Ringbeller.asyncWrite (cmgs da) s.puts) .cmgsWriteHandler s) rfl
  rw [hafter] at hd
  subst hd
  refine ⟨(firstAsyncRead ⟨t.turns, t.buf, t.response⟩).1, rfl, rfl, rfl,
    passes_iff hbuf hchained, prompted_ec hbuf, ?_⟩
  rw [← hwrites.written_iff hc ht, hs.written]
  rfl

/-! ## Every run -/

/-- The text is handed over where the first message behind the AT+CMGS line is the prompt and
nowhere else, at most once, and when the whole line has been written. -/
structure GivesText (da smsText : List UInt8) (calls : List (Call Handler)) : Prop where
  prompted : ∀ d ∈ calls, StartsText smsText d ↔ ∃ r, d.record = some r ∧ Prompted r
  once : ∀ past d behind, calls = past ++ d :: behind → StartsText smsText d →
    ∀ c ∈ past ++ behind, ¬ StartsText smsText c
  line : ∀ d ∈ calls, StartsText smsText d → d.before.written = lines da

/-- The prompt is not missed, nothing else is taken for it, and the line is intact where the text
is handed over behind it. -/
structure Recognised (da : List UInt8) (calls : List (Call Handler)) : Prop where
  noticed : ∀ d ∈ calls, ∀ r, d.record = some r → Prompted r → TakenForPrompt d.before.records r
  refused : ∀ d ∈ calls, ∀ r, d.record = some r → r.ec = false → ¬ Prompted r →
    ¬ TakenForPrompt d.before.records r
  intact : ∀ d ∈ calls, ∀ r, d.record = some r → Prompted r → ∀ c ∈ calls,
    c.handler = .cmgsWriteHandler → c.Intact (toString (cmgs da))

/-- A call behind a write of the loop. -/
structure Idle (smsText : List UInt8) (c : Call Handler) : Prop where
  record : c.record = none
  idle : ¬ StartsText smsText c

theorem idle_of_writing {c : Call Handler} {op : Writing} (hop : c.op = .writing op)
    (hpending : c.before.pending = none) (hc : c.handler ≠ .promptReadHandler) :
    Idle smsText c := ⟨by rw [Call.record, hop], not_startsText hop hpending hc⟩

theorem givesText_idle {da : List UInt8} {calls : List (Call Handler)}
    (h : ∀ c ∈ calls, Idle smsText c) : GivesText da smsText calls ↔ Recognised da calls := by
  have hno : ∀ d ∈ calls, ∀ r, d.record ≠ some r := by
    intro d hd r hr
    rw [(h d hd).record] at hr
    cases hr
  have hrecognised : Recognised da calls := by
    constructor
    · exact fun d hd r hr => absurd hr (hno d hd r)
    · exact fun d hd r hr => absurd hr (hno d hd r)
    · exact fun d hd r hr => absurd hr (hno d hd r)
  refine ⟨fun _ => hrecognised, fun _ => ⟨fun d hd => ⟨fun hs => absurd hs (h d hd).idle, ?_⟩,
    fun past d behind heq hs => absurd hs (h d (by rw [heq]; simp)).idle,
    fun d hd hs => absurd hs (h d hd).idle⟩⟩
  rintro ⟨r, hr, _⟩
  exact absurd hr (hno d hd r)

theorem lineCall_idle (smsText da : List UInt8) (s : Session Handler) :
    Idle smsText (lineCall da s) :=
  idle_of_writing rfl rfl (by simp [lineCall])

theorem textCall_idle (smsText : List UInt8) (d : Call Handler) :
    Idle smsText (textCall smsText d) :=
  idle_of_writing rfl rfl (by simp [textCall])

/-- The calls of a loop that has completed its read `d`. -/
structure ReadOnce (smsText : List UInt8) (c d : Call Handler) (behind : List (Call Handler)) :
    Prop where
  line : Idle smsText c ∧ c.handler = .cmgsWriteHandler
  behind : ∀ e ∈ behind, Idle smsText e ∧ e.handler = .textWriteHandler

/-- A loop has completed its one read, or none. -/
theorem Loop.shape {da : List UInt8} {s : Session Handler} {calls : List (Call Handler)}
    {r : Bool × Session Handler} (h : Loop smsText (lineCall da s) calls r) :
    (∀ c ∈ calls, Idle smsText c) ∨ ∃ d behind, calls = lineCall da s :: d :: behind ∧
      (lineCall da s).ec = false ∧ d = promptCall ((lineCall da s).after (handle smsText)) ∧
      ReadOnce smsText (lineCall da s) d behind := by
  have hline := lineCall_idle smsText da s
  cases h with
  | interrupted s => exact Or.inl fun c hc => (List.not_mem_nil hc).elim
  | unwritten hc => exact Or.inl fun c hmem => List.mem_singleton.mp hmem ▸ hline
  | waiting hc => exact Or.inl fun c hmem => List.mem_singleton.mp hmem ▸ hline
  | refused d hc hd =>
    exact Or.inr ⟨d, [], rfl, hc, hd, ⟨hline, rfl⟩, fun e he => (List.not_mem_nil he).elim⟩
  | handing d hc hd =>
    exact Or.inr ⟨d, [], rfl, hc, hd, ⟨hline, rfl⟩, fun e he => (List.not_mem_nil he).elim⟩
  | handed d e hc hd hstarts he =>
    refine Or.inr ⟨d, [e], rfl, hc, hd, ⟨hline, rfl⟩, fun e' he' => ?_⟩
    rw [List.mem_singleton.mp he', he]
    exact ⟨textCall_idle smsText d, rfl⟩

section ReadOnce
variable {da : List UInt8} {c d x : Call Handler} {behind : List (Call Handler)} {r r' : ReadRecord}

theorem ReadOnce.other (h : ReadOnce smsText c d behind) (hx : x ∈ c :: d :: behind) (hne : x ≠ d) :
    Idle smsText x ∧ (x = c ∨ x.handler = .textWriteHandler) := by
  rcases List.mem_cons.mp hx with rfl | hx
  · exact ⟨h.line.1, Or.inl rfl⟩
  · obtain ⟨hidle, htext⟩ := h.behind x ((List.mem_cons.mp hx).resolve_left hne)
    exact ⟨hidle, Or.inr htext⟩

theorem ReadOnce.reads (h : ReadOnce smsText c d behind) (hd : d.record = some r)
    (hx : x ∈ c :: d :: behind) (hr : x.record = some r') : x = d ∧ r = r' := by
  have hxd : x = d := by
    by_contra hne
    rw [(h.other hx hne).1.record] at hr
    cases hr
  rw [hxd, hd] at hr
  exact ⟨hxd, Option.some.inj hr⟩

theorem ReadOnce.starts (h : ReadOnce smsText c d behind) (hx : x ∈ c :: d :: behind)
    (hs : StartsText smsText x) : x = d := by
  by_contra hne
  exact (h.other hx hne).1.idle hs

theorem ReadOnce.line_call (h : ReadOnce smsText c d behind) (hd : d.handler = .promptReadHandler)
    (hx : x ∈ c :: d :: behind) (hhandler : x.handler = .cmgsWriteHandler) : x = c := by
  have hne : x ≠ d := by
    intro hxd
    rw [hxd, hd] at hhandler
    cases hhandler
  apply (h.other hx hne).2.resolve_right
  intro htext
  rw [htext] at hhandler
  cases hhandler

theorem ReadOnce.once (h : ReadOnce smsText c d behind) {past after : List (Call Handler)}
    (heq : c :: d :: behind = past ++ x :: after) (hs : StartsText smsText x) :
    ∀ y ∈ past ++ after, ¬ StartsText smsText y := by
  match past, heq with
  | [], heq =>
    obtain ⟨rfl, _⟩ := List.cons.inj heq
    exact absurd hs h.line.1.idle
  | [z], heq =>
    obtain ⟨rfl, hrest⟩ := List.cons.inj heq
    obtain ⟨_, rfl⟩ := List.cons.inj hrest
    intro y hy
    rcases List.mem_cons.mp hy with rfl | hy
    · exact h.line.1.idle
    · exact (h.behind y hy).1.idle
  | _ :: _ :: past, heq =>
    have hmem : x ∈ behind := by
      rw [(List.cons.inj (List.cons.inj heq).2).2]
      exact List.mem_append_right past List.mem_cons_self
    exact absurd hs (h.behind x hmem).1.idle

theorem givesText_read (hone : ReadOnce smsText c d behind) (hd : PromptRead da c d r) :
    GivesText da smsText (c :: d :: behind) ↔ Recognised da (c :: d :: behind) := by
  have hstarts : StartsText smsText d ↔ Passes r :=
    startsText_prompt hd.handler hd.record hd.pending
  have hmem : d ∈ c :: d :: behind := List.mem_cons_of_mem _ List.mem_cons_self
  constructor
  · intro h
    have hprompted : Passes r ↔ Prompted r := by
      rw [← hstarts, h.prompted d hmem]
      constructor
      · rintro ⟨r', hr', hp⟩
        rwa [(hone.reads hd.record hmem hr').2]
      · exact fun hp => ⟨r, hd.record, hp⟩
    constructor
    · intro x hx r' hr' hp
      obtain ⟨rfl, rfl⟩ := hone.reads hd.record hx hr'
      exact (hd.passes.mp (hprompted.mpr hp)).2
    · intro x hx r' hr' hec hno htaken
      obtain ⟨rfl, rfl⟩ := hone.reads hd.record hx hr'
      exact hno (hprompted.mp (hd.passes.mpr ⟨hec, htaken⟩))
    · intro x hx r' hr' hp y hy hhandler
      obtain ⟨rfl, rfl⟩ := hone.reads hd.record hx hr'
      have hyc := hone.line_call hd.handler hy hhandler
      rw [hyc, ← hd.written]
      exact h.line x hmem (hstarts.mpr (hprompted.mpr hp))
  · intro h
    have hprompted : Passes r ↔ Prompted r := by
      rw [hd.passes]
      constructor
      · rintro ⟨hec, htaken⟩
        by_contra hno
        exact h.refused d hmem r hd.record hec hno htaken
      · exact fun hp => ⟨hd.prompted hp, h.noticed d hmem r hd.record hp⟩
    constructor
    · intro x hx
      constructor
      · intro hs
        obtain rfl := hone.starts hx hs
        exact ⟨r, hd.record, hprompted.mp (hstarts.mp hs)⟩
      · rintro ⟨r', hr', hp⟩
        obtain ⟨rfl, rfl⟩ := hone.reads hd.record hx hr'
        exact hstarts.mpr (hprompted.mpr hp)
    · exact fun past x after heq hs => hone.once heq hs
    · intro x hx hs
      obtain rfl := hone.starts hx hs
      have hp := hprompted.mp (hstarts.mp hs)
      exact hd.written.mpr (h.intact x hmem r hd.record hp c List.mem_cons_self hone.line.2)

end ReadOnce

/-- In every run of `run_send_sms`: the text is handed over exactly on the prompt and behind the
whole line, exactly when the prompt is recognised and the line stays intact. -/
theorem givesText_iff (port : Port) (da smsText : List UInt8) (n : Nat) :
    GivesText da smsText ((program da smsText).calls port n) ↔
      Recognised da ((program da smsText).calls port n) := by
  rw [program_looping]
  cases looping_looped (handle smsText) setup
    (·.asyncWrite (cmgs da) .cmgsWriteHandler) (fun _ => rfl) port n with
  | ended _ hcalls =>
    rw [hcalls]
    exact givesText_idle fun c hc => (List.not_mem_nil hc).elim
  | looped s hs _ hcalls _ =>
    rw [hcalls]
    rcases (loop_line smsText da n hs.thrown).shape with hidle | ⟨d, behind, h⟩
    · exact givesText_idle hidle
    · obtain ⟨heq, hec, hd, hone⟩ := h
      obtain ⟨r, hr⟩ := prompt_read hs rfl hec hd
      rw [looping, heq]
      exact givesText_read hone hr

/-- The reply to AT+CMGF has had a line, and the prompt is missed. -/
theorem givesText_missed :
    let line : Arrival UInt8 := ⟨ascii "\r\n+CMGF: 1\r\n\r\nOK\r\n", [], by decide⟩
    let ok : Arrival UInt8 := ⟨ascii "\r\nOK\r\n", [], by decide⟩
    let prompt : Arrival UInt8 := ⟨ascii "\r\n> ", [], by decide⟩
    let port : Port := ⟨true, [.received line, .received ok, .received prompt],
      List.replicate 4 (.accepted 100 [])⟩
    ¬ GivesText (ascii "112") (ascii "Hi") ((program (ascii "112") (ascii "Hi")).calls port 3) := by
  intro line ok prompt port h
  have hmissed : ∃ d ∈ (program (ascii "112") (ascii "Hi")).calls port 3,
      (∃ r ∈ d.record, Prompted r) ∧ (d.after (handle (ascii "Hi"))).pending = none := by
    simp only [Prompted]
    decide +kernel
  obtain ⟨d, hd, ⟨r, hr, hp⟩, hnone⟩ := hmissed
  obtain ⟨op, hop⟩ := (h.prompted d hd).mpr ⟨r, hr, hp⟩
  rw [hnone] at hop
  cases hop

end SendSms

end Ringbeller
