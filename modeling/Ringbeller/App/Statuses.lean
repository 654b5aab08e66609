import Ringbeller.App.SendText

/-!
# The statuses of the asynchronous scenarios

The handlers only report an error, and the status that is returned behind the event loop does
not depend on what they have seen.
-/

namespace Ringbeller
set_option autoImplicit false

open Asio Script Session

section Reports
variable {η : Type} {handle : η → Bool → Nat → Session η → Session η}

/-- The function has returned a non-zero status. -/
def Fails (status : Option Int) : Prop := ∃ v, status = some v ∧ v ≠ 0

/-- Every failed write and read of the run shows in the status. -/
structure Reports (p : Program η) (port : Port) (n : Nat) (status : Option Int) : Prop where
  exchanges : ∀ x ∈ p.exchanges port n, x.failed = true → Fails status
  calls : ∀ c ∈ p.calls port n, c.ec = true → Fails status

theorem run_fresh {s : Session η} (n : Nat) (hs : s.stopped = false) :
    run handle n s = if (dispatch handle n s).1 = true then
      (some 0, { (dispatch handle n s).2 with stopped := true })
    else (none, (dispatch handle n s).2) := by
  simp [run, hs]

theorem not_fails_loop (ended : Bool) (s t : Session η) :
    ¬ Fails (if ended = true then (some 0, s) else (none, t) : Option Int × Session η).1 := by
  intro h
  obtain ⟨v, hv, hne⟩ := h
  split at hv
  · exact hne (Option.some.inj hv).symm
  · cases hv

/-- A run reports its failed operations exactly when none has failed in the loop. -/
theorem reports_iff (handle : η → Bool → Nat → Session η → Session η) (commands : List Request)
    (start : Session η → Session η) (hstart : ∀ s, (start s).stopped = s.stopped)
    (port : Port) (n : Nat) : Reports (looping handle commands start) port n
        ((looping handle commands start).run port n).1 ↔
      ∀ c ∈ (looping handle commands start).calls port n, c.ec = false := by
  cases looping_looped handle commands start hstart port n with
  | ended status calls =>
    have hfails : Fails ((looping handle commands start).run port n).1 := by
      rw [status]
      exact ⟨-1, rfl, by decide⟩
    rw [calls]
    refine ⟨fun _ c hc => (List.not_mem_nil hc).elim, fun _ => ⟨fun x _ _ => hfails, ?_⟩⟩
    rw [calls]
    exact fun c hc => (List.not_mem_nil hc).elim
  | looped s ready hrun calls passed =>
    have hstopped : (start s).stopped = false := (hstart s).trans ready.stopped
    constructor
    · intro hreports c hc
      apply Bool.eq_false_iff.mpr
      intro hec
      have hfails := hreports.calls c hc hec
      rw [hrun, run_fresh n hstopped] at hfails
      exact not_fails_loop _ _ _ hfails
    · intro hok
      refine ⟨fun x hx hfailed => ?_, fun c hc hec => ?_⟩
      · rw [passed x hx] at hfailed
        cases hfailed
      · rw [hok c hc] at hec
        cases hec

end Reports

namespace SendSms

/-- The status of `run_send_sms` shows every failed operation and every message that is not the
prompt, and status 0 says that the whole text has been written. -/
structure Sends (port : Port) (da smsText : List UInt8) (n : Nat) : Prop where
  reports : Reports (program da smsText) port n (runSendSms port da smsText n).1
  prompted : ∀ d ∈ (program da smsText).calls port n, ∀ r, d.record = some r → r.ec = false →
    ¬ Prompted r → Fails (runSendSms port da smsText n).1
  written : (runSendSms port da smsText n).1 = some 0 →
    ∃ d ∈ (program da smsText).calls port n, StartsText smsText d ∧
      (runSendSms port da smsText n).2.written = d.before.written ++ (smsText ++ [26])

/-- No operation of the loop has failed, the first message behind the line is the prompt and is
taken for it, and the text stays intact. -/
structure Delivers (smsText : List UInt8) (calls : List (Call Handler)) : Prop where
  ok : ∀ c ∈ calls, c.ec = false
  prompt : ∀ d ∈ calls, ∀ r, d.record = some r → Prompted r ∧ TakenForPrompt d.before.records r
  intact : ∀ e ∈ calls, e.handler = .textWriteHandler → e.Intact (smsText ++ [26])

theorem textCall_writes {smsText : List UInt8} {d : Call Handler}
    (hstarted : Started smsText d.before (d.after (handle smsText))) :
    Writes (smsText ++ [26]) d.before (textCall smsText d) :=
  ⟨rfl, hstarted.puts, hstarted.written⟩

/-- What a loop contributes to `Sends`. -/
structure LoopSends (smsText : List UInt8) (calls : List (Call Handler))
    (r : Bool × Session Handler) : Prop where
  ok : ∀ c ∈ calls, c.ec = false
  prompted : ∀ d ∈ calls, ∀ r, d.record = some r → Prompted r
  written : r.1 = true → ∃ d ∈ calls, StartsText smsText d ∧
    r.2.written = d.before.written ++ (smsText ++ [26])

section Loops
variable {da smsText : List UInt8} {c d : Call Handler} {behind : List (Call Handler)}
  {r : ReadRecord} {last : Bool × Session Handler}

theorem loopSends_idle {calls : List (Call Handler)} (h : ∀ c ∈ calls, c.record = none)
    (hhandler : ∀ c ∈ calls, c.handler ≠ .textWriteHandler)
    (hlast : (∀ c ∈ calls, c.ec = false) → last.1 = false) :
    LoopSends smsText calls last ↔ Delivers smsText calls := by
  have hno : ∀ c ∈ calls, ∀ r, c.record ≠ some r := by
    intro c hc r hr
    rw [h c hc] at hr
    cases hr
  constructor
  · exact fun hs => ⟨hs.ok, fun c hc r hr => absurd hr (hno c hc r),
      fun c hc htext => absurd htext (hhandler c hc)⟩
  · refine fun hs => ⟨hs.ok, fun c hc r hr => absurd hr (hno c hc r), fun hend => ?_⟩
    rw [hlast hs.ok] at hend
    cases hend

theorem loopSends_read (hone : ReadOnce smsText c d behind) (hd : PromptRead da c d r)
    (hlast : last.1 = true ↔ ¬ StartsText smsText d ∨ behind ≠ [])
    (hbehind : behind ≠ [] → StartsText smsText d)
    (hwritten : ∀ e ∈ behind, e.ec = false →
      (last.2.written = d.before.written ++ (smsText ++ [26]) ↔ e.Intact (smsText ++ [26]))) :
    LoopSends smsText (c :: d :: behind) last ↔ Delivers smsText (c :: d :: behind) := by
  have hstarts : StartsText smsText d ↔ Passes r :=
    startsText_prompt hd.handler hd.record hd.pending
  have hmem : d ∈ c :: d :: behind := List.mem_cons_of_mem _ List.mem_cons_self
  have hec : d.ec = r.ec := Call.ec_read hd.record
  constructor
  · intro h
    have hlasts : last.1 = true → StartsText smsText d ∧
        last.2.written = d.before.written ++ (smsText ++ [26]) := by
      intro hend
      obtain ⟨x, hx, hs, hw⟩ := h.written hend
      obtain rfl := hone.starts hx hs
      exact ⟨hs, hw⟩
    refine ⟨h.ok, fun x hx r' hr' => ?_, fun e he htext => ?_⟩
    · obtain ⟨rfl, rfl⟩ := hone.reads hd.record hx hr'
      refine ⟨h.prompted x hx r hr', ?_⟩
      by_contra hno
      have hrefused : ¬ StartsText smsText x := fun hs =>
        hno (hd.passes.mp (hstarts.mp hs)).2
      exact hrefused (hlasts (hlast.mpr (Or.inl hrefused))).1
    · have hmem : e ∈ behind := by
        rcases List.mem_cons.mp he with rfl | he
        · exact absurd (hone.line.2.symm.trans htext) (by simp)
        · rcases List.mem_cons.mp he with rfl | he
          · exact absurd (hd.handler.symm.trans htext) (by simp)
          · exact he
      have hend := hlasts (hlast.mpr (Or.inr (List.ne_nil_of_mem hmem)))
      exact (hwritten e hmem (h.ok e he)).mp hend.2
  · intro h
    obtain ⟨hprompted, htaken⟩ := h.prompt d hmem r hd.record
    have hs : StartsText smsText d :=
      hstarts.mpr (hd.passes.mpr ⟨hec.symm.trans (h.ok d hmem), htaken⟩)
    refine ⟨h.ok, fun x hx r' hr' => ?_, fun hend => ⟨d, hmem, hs, ?_⟩⟩
    · obtain ⟨rfl, rfl⟩ := hone.reads hd.record hx hr'
      exact hprompted
    · obtain ⟨e, he⟩ := List.exists_mem_of_ne_nil _ ((hlast.mp hend).resolve_left (not_not.mpr hs))
      have hin : e ∈ c :: d :: behind := List.mem_cons_of_mem _ (List.mem_cons_of_mem _ he)
      exact (hwritten e he (h.ok e hin)).mpr (h.intact e hin (hone.behind e he).2)

theorem loopSends_iff {s : Session Handler} (hs : Ready setup s) {calls : List (Call Handler)}
    (h : Loop smsText (lineCall da s) calls last) :
    LoopSends smsText calls last ↔ Delivers smsText calls := by
  obtain ⟨c, hc⟩ : ∃ c, lineCall da s = c := ⟨_, rfl⟩
  have hline : Idle smsText c ∧ c.handler = .cmgsWriteHandler := by
    rw [← hc]
    exact ⟨lineCall_idle smsText da s, rfl⟩
  have hrecord : ∀ x ∈ [c], x.record = none := List.forall_mem_singleton.mpr hline.1.record
  have hhandler : ∀ x ∈ [c], x.handler ≠ .textWriteHandler := by
    rw [List.forall_mem_singleton, hline.2]
    simp
  rw [hc] at h
  cases h with
  | interrupted t =>
    exact loopSends_idle (fun x hx => (List.not_mem_nil hx).elim)
      (fun x hx => (List.not_mem_nil hx).elim) fun _ => rfl
  | unwritten hec =>
    apply loopSends_idle hrecord hhandler
    intro hok
    rw [hok c List.mem_cons_self] at hec
    cases hec
  | waiting hec => exact loopSends_idle hrecord hhandler fun _ => rfl
  | refused d hec hd hstarts =>
    obtain ⟨r, hr⟩ := prompt_read hs hc.symm hec hd
    have hone : ReadOnce smsText c d [] := ⟨hline, fun e he => (List.not_mem_nil he).elim⟩
    exact loopSends_read hone hr ⟨fun _ => Or.inl hstarts, fun _ => rfl⟩ (absurd rfl ·)
      fun e he => (List.not_mem_nil he).elim
  | handing d hec hd hstarts =>
    obtain ⟨r, hr⟩ := prompt_read hs hc.symm hec hd
    have hone : ReadOnce smsText c d [] := ⟨hline, fun e he => (List.not_mem_nil he).elim⟩
    refine loopSends_read hone hr ⟨fun h => (Bool.false_ne_true h).elim, ?_⟩ (absurd rfl ·)
      fun e he => (List.not_mem_nil he).elim
    rintro (hno | hne)
    · exact absurd hstarts hno
    · exact absurd rfl hne
  | handed d e hec hd hstarts he =>
    obtain ⟨r, hr⟩ := prompt_read hs hc.symm hec hd
    have hone : ReadOnce smsText c d [e] := ⟨hline, List.forall_mem_singleton.mpr (by
      rw [he]
      exact ⟨textCall_idle smsText d, rfl⟩)⟩
    have hpasses := (startsText_prompt hr.handler hr.record hr.pending).mp hstarts
    have hwrites := textCall_writes (prompt_passes smsText hr.handler hr.record hpasses)
    rw [← he] at hwrites
    refine loopSends_read hone hr ⟨fun _ => Or.inr (List.cons_ne_nil e []), fun _ => rfl⟩
      (fun _ => hstarts) (List.forall_mem_singleton.mpr fun hok => ?_)
    exact hwrites.written_iff hok (text_after hwrites.op (by rw [he]; rfl))

/-- A loop that is the end of the run decides what is sent. -/
theorem sends_of_run {port : Port} {n : Nat} {last : Bool × Session Handler}
    (hreports : Reports (program da smsText) port n (runSendSms port da smsText n).1 ↔
      ∀ c ∈ (program da smsText).calls port n, c.ec = false)
    (hrun : (program da smsText).run port n =
      if last.1 = true then (some 0, { last.2 with stopped := true }) else (none, last.2)) :
    Sends port da smsText n ↔ LoopSends smsText ((program da smsText).calls port n) last := by
  have hnot : ¬ Fails ((program da smsText).run port n).1 := by
    rw [hrun]
    exact not_fails_loop _ _ _
  have hzero : ((program da smsText).run port n).1 = some 0 ↔ last.1 = true := by
    rw [hrun]
    split <;> simp [*]
  have hwritten : ((program da smsText).run port n).2.written = last.2.written := by
    rw [hrun]
    split <;> rfl
  constructor
  · intro h
    have hok := hreports.mp h.reports
    refine ⟨hok, fun d hd r hr => ?_, fun hend => ?_⟩
    · by_contra hno
      exact hnot (h.prompted d hd r hr ((Call.ec_read hr).symm.trans (hok d hd)) hno)
    · rw [← hwritten]
      exact h.written (hzero.mpr hend)
  · intro h
    refine ⟨hreports.mpr h.ok, fun d hd r hr _ hno => absurd (h.prompted d hd r hr) hno,
      fun hstatus => ?_⟩
    rw [runSendSms_eq, hwritten]
    exact h.written (hzero.mp hstatus)

theorem sends_iff (port : Port) (da smsText : List UInt8) (n : Nat) :
    Sends port da smsText n ↔ Delivers smsText ((program da smsText).calls port n) := by
  have hreports := reports_iff (handle smsText) setup
    (·.asyncWrite (cmgs da) .cmgsWriteHandler) (fun _ => rfl) port n
  have hlooped := looping_looped (handle smsText) setup
    (·.asyncWrite (cmgs da) .cmgsWriteHandler) (fun _ => rfl) port n
  rw [← program_looping] at hreports hlooped
  cases hlooped with
  | ended status calls =>
    have hno : ∀ d ∈ (program da smsText).calls port n, False := by
      rw [calls]
      exact fun d hd => List.not_mem_nil hd
    refine ⟨fun _ => ⟨fun c hc => (hno c hc).elim, fun d hd => (hno d hd).elim,
      fun e he => (hno e he).elim⟩, fun h => ⟨hreports.mpr h.ok, fun d hd => (hno d hd).elim,
        fun hzero => ?_⟩⟩
    rw [runSendSms_eq, status] at hzero
    cases hzero
  | looped s ready hrun calls passed =>
    have hstopped : (s.asyncWrite (cmgs da) .cmgsWriteHandler).stopped = false := ready.stopped
    rw [run_fresh n hstopped] at hrun
    rw [sends_of_run hreports hrun, calls]
    exact loopSends_iff ready (loop_line smsText da n ready.thrown)

end Loops

end SendSms

/-- In every run of the asynchronous scenarios: every failed operation, and in `run_send_sms` a
missing prompt, shows in the status, exactly when no operation of the loop fails and, in
`run_send_sms`, the prompt comes, is taken for it and the text stays intact. -/
theorem statuses_iff (port : Port) (n : Nat) :
    (∀ da smsText, SendSms.Sends port da smsText n ↔
      SendSms.Delivers smsText ((SendSms.program da smsText).calls port n)) ∧
    (Reports ReceiveSms.program port n (runReceiveSms port n).1 ↔
      ∀ c ∈ ReceiveSms.program.calls port n, c.ec = false) ∧
    (Reports AtCops.program port n (runAtCops port n).1 ↔
      ∀ c ∈ AtCops.program.calls port n, c.ec = false) := by
  refine ⟨fun da smsText => SendSms.sends_iff port da smsText n, ?_, ?_⟩
  · rw [runReceiveSms_eq]
    exact reports_iff ReceiveSms.handle ReceiveSms.setup (·.asyncRead .readHandler)
      (fun _ => rfl) port n
  · rw [runAtCops_eq]
    exact reports_iff AtCops.handle [] (·.asyncWrite makeAtCopsRead .writeHandler)
      (fun _ => rfl) port n

/-- The read of the prompt fails, and the status is 0. -/
theorem statuses_silent :
    let ok : Arrival UInt8 := ⟨ascii "\r\nOK\r\n", [], by decide⟩
    let port : Port := ⟨true, [.received ok, .received ok, .failed],
      List.replicate 4 (.accepted 100 [])⟩
    (runSendSms port (ascii "112") (ascii "Hi") 2).1 = some 0 ∧
      ¬ SendSms.Sends port (ascii "112") (ascii "Hi") 2 := by
  intro ok port
  have hzero : (runSendSms port (ascii "112") (ascii "Hi") 2).1 = some 0 := by decide
  refine ⟨hzero, fun h => ?_⟩
  have hfailed : ∃ c ∈ (SendSms.program (ascii "112") (ascii "Hi")).calls port 2, c.ec = true := by
    decide +kernel
  obtain ⟨c, hc, hec⟩ := hfailed
  obtain ⟨v, hv, hne⟩ := h.reports.calls c hc hec
  rw [hzero] at hv
  exact hne (Option.some.inj hv).symm

end Ringbeller
