import Ringbeller.App.Endings
import Ringbeller.App.UsbCfg

/-!
# Exceptions

Which runs a handler leaves with an exception: only those of the call scenarios, where the line that
the USB configuration is taken from is too short.
-/

namespace Ringbeller
set_option autoImplicit false

open Asio Script Session

/-- A +QCFG: line has come first that is too short for what the handler takes of it. -/
structure Unparsable (r : ReadRecord) : Prop where
  ec : r.ec = false
  marked : frontMarked "+QCFG:" r.after = true
  short : (r.after.body.headD []).length ≤ 7

section Called
variable {η : Type} {p : Program η} {port : Port}

/-- The state that the handler of a read is called in. -/
theorem reading_called (handle : η → Bool → Nat → Session η → Session η) (held : List UInt8)
    (op : Search) (handler : η) (s : Session η) :
    ∃ r t, complete handle (.reading held op) handler { s with pending := none } =
        (handle handler r.ec r.count t).consume r.count ∧ t.pending = none ∧
      t.waits = s.waits ++ [r] ∧ t.response = r.after ∧ t.thrown = s.thrown := by
  obtain ⟨done, hdone⟩ : ∃ done, asyncReadCompletes held op ⟨s.turns, s.buf, s.response⟩ = done :=
    ⟨_, rfl⟩
  have hafter : done.2.msg = done.1.after := by
    rw [← hdone]
    rfl
  refine ⟨done.1, { ({ s with pending := none } : Session η).didRead .asyncRead done.1 done.2 with
    buf := done.2.buffer }, ?_, rfl, ?_, hafter, rfl⟩
  · rw [← hdone]
    rfl
  · exact waits_of_wait
      (reads_didRead .asyncRead done.1 done.2 ({ s with pending := none } : Session η))

/-- Nothing is thrown where no handler throws. -/
theorem keeps_unthrown (hhandle : ∀ handler ec n s, (p.handle handler ec n s).thrown = s.thrown)
    (hstarts : ∀ f, .start f ∈ p.statements → ∀ s, (f s).thrown = s.thrown) :
    Keeps p port fun s => s.thrown = false := by
  constructor
  · rfl
  · exact fun command s hs => (execute_frame command s).2.2.1.trans hs
  · exact fun f hf s hs => (hstarts f hf s).trans hs
  · intro op handler s hs _
    cases op with
    | reading held op =>
      obtain ⟨r, t, hcomplete, _, _, _, hthrown⟩ := reading_called p.handle held op handler s
      rw [hcomplete]
      exact (hhandle handler r.ec r.count t).trans (hthrown.trans hs)
    | writing op => exact (hhandle handler _ _ _).trans hs
  · exact fun s hs => hs

end Called

namespace VoiceCall

theorem takeUsbCfg_thrown (line : List UInt8) (s : Session Handler) :
    (takeUsbCfg line s).thrown = true ↔ s.thrown = true ∨ line.length ≤ 7 := by
  have hshort : (line.length < 7 ∨ line.drop 7 = []) ↔ line.length ≤ 7 := by
    rw [List.drop_eq_nil_iff]
    omega
  rw [takeUsbCfg]
  by_cases h : line.length < 7 ∨ line.drop 7 = []
  · rw [if_pos h]
    exact ⟨fun _ => Or.inr (hshort.mp h), fun _ => rfl⟩
  · rw [if_neg h]
    exact ⟨Or.inl, fun ht => ht.resolve_right fun hle => h (hshort.mpr hle)⟩

/-- While +QCFG is waited for, an exception has been thrown as soon as such a line has come. -/
structure Blamed (s : Session Handler) : Prop where
  pending : ∀ op handler, s.pending = some (op, handler) →
    handler = .qcfgReadHandler ∧ ∃ held search, op = .reading held search
  thrown : s.thrown = true ↔ ∃ r ∈ s.waits, Unparsable r

theorem exists_append {P : ReadRecord → Prop} {rs : List ReadRecord} {r : ReadRecord} :
    (∃ x ∈ rs ++ [r], P x) ↔ (∃ x ∈ rs, P x) ∨ P r := by
  simp [or_and_right, exists_or]

theorem blamed_complete {s : Session Handler} (hs : Blamed s) (held : List UInt8) (op : Search) :
    Blamed (complete handle (.reading held op) .qcfgReadHandler { s with pending := none }) := by
  obtain ⟨r, t, hcomplete, hpending, hwaits, hresponse, hthrown⟩ :=
    reading_called handle held op .qcfgReadHandler s
  have hsame (ec : Bool) :
      ((handle .qcfgReadHandler ec r.count t).consume r.count).waits = t.waits :=
    waits_of_reads (voiceCall_quiet _ _ _ t).1
  rw [hcomplete]
  cases hec : r.ec with
  | true =>
    have hparsable : ¬ Unparsable r := fun h => by
      rw [h.ec] at hec
      cases hec
    constructor
    · intro op handler h
      cases hpending.symm.trans h
    · rw [hsame, hwaits, exists_append, ← hs.thrown, ← hthrown]
      exact ⟨Or.inl, fun h => h.resolve_right hparsable⟩
  | false =>
    cases hm : frontMarked "+QCFG:" t.response with
    | true =>
      have hhandle : handle .qcfgReadHandler false r.count t = takeUsbCfg
          (t.response.body.headD []) ((t.consume r.count).print "+QCFG received.\n") := by
        simp only [handle, response_consume, hm, Bool.false_eq_true, if_false, if_true]
      have hshort : Unparsable r ↔ (t.response.body.headD []).length ≤ 7 := by
        rw [hresponse] at hm ⊢
        exact ⟨Unparsable.short, fun h => ⟨hec, hm, h⟩⟩
      constructor
      · intro op handler h
        have hnone := (takeUsbCfg_pending (t.response.body.headD [])
          ((t.consume r.count).print "+QCFG received.\n")).trans hpending
        rw [hhandle] at h
        cases hnone.symm.trans h
      · rw [hsame, hwaits, exists_append, ← hs.thrown, ← hthrown, hhandle, hshort]
        exact takeUsbCfg_thrown _ _
    | false =>
      have hhandle : handle .qcfgReadHandler false r.count t = ((t.consume r.count).print
          ("Received message is not an unsolicited +QCFG notification." ++
            " Waiting for another URC\n")).asyncRead .qcfgReadHandler := by
        simp only [handle, response_consume, hm, Bool.false_eq_true, if_false]
      have hparsable : ¬ Unparsable r := fun h => by
        have hmarked := h.marked
        rw [← hresponse, hm] at hmarked
        cases hmarked
      constructor
      · intro op handler h
        rw [hhandle] at h
        obtain ⟨rfl, rfl⟩ := Prod.mk.inj (Option.some.inj h)
        exact ⟨rfl, _, _, rfl⟩
      · rw [hsame, hwaits, exists_append, ← hs.thrown, ← hthrown, hhandle]
        exact ⟨Or.inl, fun h => h.resolve_right hparsable⟩

/-- The scenarios up to the end of the wait. -/
def waitProgram : Program Handler := ⟨handle, query⟩

theorem keeps_blamed (port : Port) : Keeps waitProgram port Blamed := by
  constructor
  · constructor
    · intro op handler h
      cases h
    · constructor
      · intro h
        cases h
      · rintro ⟨r, hr, _⟩
        cases hr
  · intro command s hs
    obtain ⟨_, _, hthrown, hpending⟩ := execute_frame command s
    constructor
    · intro op handler h
      exact hs.pending op handler (hpending.symm.trans h)
    · rw [hthrown, waits_execute]
      exact hs.thrown
  · intro f hf s hs
    have hread : f = Session.asyncRead .qcfgReadHandler := by
      simpa [waitProgram, query, command] using hf
    rw [hread]
    constructor
    · intro op handler h
      obtain ⟨rfl, rfl⟩ := Prod.mk.inj (Option.some.inj h)
      exact ⟨rfl, _, _, rfl⟩
    · exact hs.thrown
  · intro op handler s hs hpending
    obtain ⟨rfl, held, search, rfl⟩ := hs.pending op handler hpending
    exact blamed_complete hs held search
  · exact fun s hs => ⟨hs.pending, hs.thrown⟩

/-- Behind the wait the loop is stopped, and no handler is called any more. -/
theorem settled_thrown {p : Program Handler} {port : Port} {n : Nat}
    {statements : List (Statement Handler)}
    (h : ∀ i ∈ statements,
      i = .run ∨ (∃ f, i = .execute f) ∨ ∃ handler, i = .start (·.asyncRead handler))
    {s : Session Handler} (hs : s.stopped = true) :
    (sequence (statements.map (p.step port n)) s).2.thrown = s.thrown := by
  have hall : Triple (fun t : Session Handler => t.stopped = true ∧ t.thrown = s.thrown)
      (sequence (statements.map (p.step port n)))
      (fun t => t.stopped = true ∧ t.thrown = s.thrown)
      fun t => t.stopped = true ∧ t.thrown = s.thrown := by
    apply triple_all
    intro step hstep
    obtain ⟨i, hi, rfl⟩ := List.mem_map.mp hstep
    apply triple_of_keeps
    intro t ⟨hstopped, hthrown⟩
    rcases h i hi with rfl | ⟨f, rfl⟩ | ⟨handler, rfl⟩
    · have hrun : p.step port n .run t = (some 0, t) := if_pos hstopped
      rw [hrun]
      exact ⟨hstopped, hthrown⟩
    · obtain ⟨hsame, _, hsame', _⟩ := execute_frame (f t) t
      exact ⟨hsame.trans hstopped, hsame'.trans hthrown⟩
    · exact ⟨hstopped, hthrown⟩
  exact (hall.holds ⟨hs, rfl⟩).2

theorem call_thrown {behind : List (Statement Handler)}
    (hbehind : ∀ i ∈ behind,
      i = .run ∨ (∃ f, i = .execute f) ∨ ∃ handler, i = .start (·.asyncRead handler))
    (port : Port) (n : Nat) :
    let r := (⟨handle, query ++ behind⟩ : Program Handler).run port n
    r.2.thrown = true ↔ ∃ x ∈ r.2.waits, Unparsable x := by
  intro r
  obtain ⟨p, hp⟩ : ∃ p, p = (⟨handle, query ++ behind⟩ : Program Handler) := ⟨_, rfl⟩
  have hstatements : p.statements = query ++ behind := by rw [hp]
  have hwait : Blamed (sequence (query.map (p.step port n)) (.start port)).2 := by
    have hsame : p.step port n = waitProgram.step port n := by
      rw [hp]
      funext i
      cases i <;> rfl
    rw [hsame]
    exact (keeps_blamed port).run n
  have hr : r = p.run port n := by rw [hp]
  rw [hr]
  by_cases hgo : (sequence (query.map (p.step port n)) (.start port)).1 = some 0
  · have hreaches : p.Reaches port n query (sequence (query.map (p.step port n)) (.start port)).2 :=
      Prod.ext hgo rfl
    have hlast : p.Reaches port n (query.dropLast ++ [.run])
      (sequence (query.map (p.step port n)) (.start port)).2 := hreaches
    rw [hreaches.run hstatements, settled_thrown hbehind hlast.stopped,
      settled_waits hbehind hlast.stopped]
    exact hwait.thrown
  · have hstop := fun s (hs : p.Reaches port n query s) => hgo (congrArg Prod.fst hs)
    rw [(Program.run_of_not_reaches hstop hstatements).1]
    exact hwait.thrown

end VoiceCall

/-! ## The scenarios -/

theorem receiveSms_unthrown (handler : ReceiveSms.Handler) (ec : Bool) (n : Nat)
    (s : Session ReceiveSms.Handler) :
    (ReceiveSms.handle handler ec n s).thrown = s.thrown := by
  cases handler with
  | readHandler =>
    simp only [ReceiveSms.handle]
    split
    · rfl
    · split <;> rfl

theorem sendSms_unthrown (smsText : List UInt8) (handler : SendSms.Handler) (ec : Bool) (n : Nat)
    (s : Session SendSms.Handler) :
    (SendSms.handle smsText handler ec n s).thrown = s.thrown := by
  cases handler with
  | textWriteHandler => rfl
  | promptReadHandler =>
    simp only [SendSms.handle]
    split
    · rfl
    · split <;> rfl
  | cmgsWriteHandler =>
    simp only [SendSms.handle]
    split <;> rfl

theorem atCops_unthrown (handler : AtCops.Handler) (ec : Bool) (n : Nat)
    (s : Session AtCops.Handler) : (AtCops.handle handler ec n s).thrown = s.thrown := by
  cases handler with
  | readHandler => rfl
  | writeHandler =>
    simp only [AtCops.handle]
    split <;> rfl


def Verb.isCall : Verb → Bool
  | .makeCall _ => true
  | .rcvCall => true
  | _ => false

/-- What a run throws on: the call scenarios on such a line, and nothing else. -/
theorem verb_thrown (v : Verb) (port : Port) (n : Nat) :
    (v.run port n).2.thrown = true ↔
      v.isCall = true ∧ ∃ r ∈ (v.run port n).2.waits, Unparsable r := by
  have hno (hquiet : v.isCall = false) (hkept : Keeps v.program port fun s => s.thrown = false) :
      (v.run port n).2.thrown = true ↔
        v.isCall = true ∧ ∃ r ∈ (v.run port n).2.waits, Unparsable r := by
    have hunthrown : (v.run port n).2.thrown = false := hkept.run n
    rw [hunthrown, hquiet]
    simp
  have hcall (hcalls : v.isCall = true)
      (h : (v.run port n).2.thrown = true ↔ ∃ r ∈ (v.run port n).2.waits, Unparsable r) :
      (v.run port n).2.thrown = true ↔
        v.isCall = true ∧ ∃ r ∈ (v.run port n).2.waits, Unparsable r := by
    rw [h, hcalls]
    simp
  cases v with
  | atOk => exact hno rfl (keeps_unthrown (fun h => h.elim) (exchange_starting makeAt))
  | ati => exact hno rfl (keeps_unthrown (fun h => h.elim) (exchange_starting makeAti))
  | atCops => exact hno rfl (keeps_unthrown atCops_unthrown atCops_starting)
  | rcvSms =>
    refine hno rfl (keeps_unthrown receiveSms_unthrown fun f hf s => ?_)
    obtain ⟨handler, rfl⟩ := receiveSms_awaits f hf
    rfl
  | sendSms da smsText =>
    exact hno rfl (keeps_unthrown (sendSms_unthrown smsText) (sendSms_starting da smsText))
  | makeCall da =>
    refine hcall rfl (VoiceCall.call_thrown ?_ port n)
    simp [VoiceCall.dial, command]
  | rcvCall =>
    refine hcall rfl (VoiceCall.call_thrown ?_ port n)
    simp only [VoiceCall.answer, command, List.forall_mem_cons]
    exact ⟨Or.inr (Or.inl ⟨_, rfl⟩), Or.inr (Or.inl ⟨_, rfl⟩), Or.inr (Or.inl ⟨_, rfl⟩),
      Or.inr (Or.inr ⟨_, rfl⟩), Or.inl trivial, Or.inr (Or.inl ⟨_, rfl⟩),
      fun _ h => (List.not_mem_nil h).elim⟩

end Ringbeller
