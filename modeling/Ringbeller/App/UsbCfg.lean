import Ringbeller.App.CallScripts
import Ringbeller.App.Responses

/-!
# The USB configuration

The call scenarios take the configuration that they write from the +QCFG notification. The
wait for it ends with the notification, with an exception, or with a failed read, and the code
behind `ios.run()` does not see which.
-/

namespace Ringbeller
set_option autoImplicit false

open Asio Script Session X3

theorem frontMarked_cons {marker : String} {response : Response}
    (hm : ascii marker ≠ []) (h : frontMarked marker response = true) :
    ∃ line lines, response.body = line :: lines ∧ (ascii marker).IsPrefix line := by
  obtain ⟨line, hline, hmarked⟩ := (frontMarked_iff hm response).mp h
  obtain ⟨lines, hbody⟩ := List.head?_eq_some_iff.mp hline
  exact ⟨line, lines, hbody, hmarked.1⟩

namespace VoiceCall

/-! ## The value of a line -/

def switchLast (value : List UInt8) : List UInt8 := value.dropLast ++ ascii "1"

/-- What the handler takes from the line. -/
def taken (line : List UInt8) : List UInt8 := switchLast (line.drop 7)

/-- What the line says behind the marker and any blanks. -/
def valuePart (line : List UInt8) : List UInt8 := skipBlanks (line.drop 6)

/-- One blank stands behind the marker, and a value behind the blank. -/
def OneBlank (line : List UInt8) : Prop :=
  ∃ b c v, line = ascii "+QCFG:" ++ b :: c :: v ∧ blank b = true ∧ blank c = false

/-- Leaving out one byte behind the marker gives the value just when the byte is the only blank. -/
theorem taken_iff {line : List UInt8} (h : (ascii "+QCFG:").IsPrefix line) :
    (line.drop 7 ≠ [] ∧ valuePart line ≠ [] ∧ taken line = switchLast (valuePart line)) ↔
      OneBlank line := by
  obtain ⟨x, rfl⟩ := h
  have hdrop : (ascii "+QCFG:" ++ x).drop 7 = x.drop 1 := rfl
  have hvalue : valuePart (ascii "+QCFG:" ++ x) = skipBlanks x := rfl
  rw [taken, hdrop, hvalue]
  constructor
  · rintro ⟨hlong, hne, hswitch⟩
    obtain ⟨s, hs, hsplit⟩ := skipBlanks_split x
    have hlen := congrArg List.length hswitch
    have hx := congrArg List.length hsplit
    have hpos := List.length_pos_of_ne_nil hlong
    have hvpos := List.length_pos_of_ne_nil hne
    simp only [switchLast, List.length_append, List.length_dropLast, List.length_drop]
      at hlen hx hpos
    obtain ⟨b, rfl⟩ : ∃ b, s = [b] := List.length_eq_one_iff.mp (by omega)
    obtain ⟨c, v, hv⟩ := List.exists_cons_of_ne_nil hne
    rw [hv] at hsplit
    refine ⟨b, c, v, ?_, hs b List.mem_cons_self, skipOver_head hv⟩
    exact congrArg (ascii "+QCFG:" ++ ·) hsplit
  · rintro ⟨b, c, v, hline, hb, hc⟩
    obtain rfl := List.append_cancel_left hline
    have hskip : skipBlanks (b :: c :: v) = c :: v := by
      rw [skipBlanks, skipOver_cons_of_pos hb, skipOver_cons_of_neg hc]
    rw [hskip]
    exact ⟨List.cons_ne_nil c v, List.cons_ne_nil c v, rfl⟩

/-! ## The wait -/

/-- The wait for +QCFG: it goes on, or its read has failed, or it has ended on the
notification. -/
inductive Wait (s : Session Handler) : Prop where
  | waiting (held : List UInt8) (op : Search)
      (pending : s.pending = some (.reading held op, .qcfgReadHandler))
      (ok : ∀ r ∈ s.waits, r.ec = false) (usbCfg : s.usbCfg = []) (thrown : s.thrown = false)
  | failed (pending : s.pending = none) (r : ReadRecord) (mem : r ∈ s.waits) (ec : r.ec = true)
      (usbCfg : s.usbCfg = []) (thrown : s.thrown = false)
  | received (pending : s.pending = none) (line : List UInt8) (lines : List (List UInt8))
      (ok : ∀ r ∈ s.waits, r.ec = false) (body : s.response.body = line :: lines)
      (marked : (ascii "+QCFG:").IsPrefix line)
      (usbCfg : s.thrown = false → line.drop 7 ≠ [] ∧ s.usbCfg = taken line)

theorem takeUsbCfg_usbCfg (line : List UInt8) {s : Session Handler}
    (h : (takeUsbCfg line s).thrown = false) :
    line.drop 7 ≠ [] ∧ (takeUsbCfg line s).usbCfg = taken line := by
  unfold takeUsbCfg at h ⊢
  split at h
  · cases h
  · next hline =>
    rw [if_neg hline]
    exact ⟨fun hd => hline (Or.inr hd), rfl⟩

theorem takeUsbCfg_pending (line : List UInt8) (s : Session Handler) :
    (takeUsbCfg line s).pending = s.pending := by
  unfold takeUsbCfg
  split <;> rfl

theorem wait_handled {s : Session Handler} {rs : List ReadRecord} {r : ReadRecord}
    (pending : s.pending = none) (usbCfg : s.usbCfg = []) (thrown : s.thrown = false)
    (waits : s.waits = rs ++ [r]) (ok : ∀ r ∈ rs, r.ec = false) (n m : Nat) :
    Wait ((handle .qcfgReadHandler r.ec n s).consume m) := by
  have hwaits : ((handle .qcfgReadHandler r.ec n s).consume m).waits = rs ++ [r] := by
    rw [← waits]
    exact waits_of_reads (voiceCall_quiet _ _ _ s).1
  have hresponse : ((handle .qcfgReadHandler r.ec n s).consume m).response = s.response :=
    (voiceCall_quiet _ _ _ s).2
  cases hec : r.ec with
  | true =>
    rw [hec] at hwaits
    exact .failed pending r (by rw [hwaits]; simp) hec usbCfg thrown
  | false =>
    have hok : ∀ x ∈ rs ++ [r], x.ec = false :=
      List.forall_mem_append.mpr ⟨ok, List.forall_mem_singleton.mpr hec⟩
    rw [hec] at hwaits hresponse
    rw [← hwaits] at hok
    cases hm : frontMarked "+QCFG:" s.response with
    | true =>
      obtain ⟨line, lines, hbody, hmarked⟩ := frontMarked_cons (by decide) hm
      have htaken : handle .qcfgReadHandler false n s =
          takeUsbCfg line ((s.consume n).print "+QCFG received.\n") := by
        simp [handle, hm, hbody]
      refine .received ?_ line lines hok (by rw [hresponse, hbody]) hmarked ?_
      · rw [htaken]
        exact (takeUsbCfg_pending line _).trans pending
      · rw [htaken]
        exact takeUsbCfg_usbCfg line
    | false =>
      have hagain : handle .qcfgReadHandler false n s =
          ((s.consume n).print ("Received message is not an unsolicited +QCFG notification." ++
            " Waiting for another URC\n")).asyncRead .qcfgReadHandler := by
        simp [handle, hm]
      rw [hagain] at hok ⊢
      exact .waiting _ _ rfl hok usbCfg thrown

theorem wait_complete {s : Session Handler} {held : List UInt8} {op : Search}
    (ok : ∀ r ∈ s.waits, r.ec = false) (usbCfg : s.usbCfg = []) (thrown : s.thrown = false) :
    Wait (complete handle (.reading held op) .qcfgReadHandler { s with pending := none }) := by
  rw [complete]
  generalize asyncReadCompletes held op ⟨s.turns, s.buf, s.response⟩ = done
  let called : Session Handler :=
    { ({ s with pending := none } : Session Handler).didRead .asyncRead done.1 done.2 with
      buf := done.2.buffer }
  have hwaits : called.waits = s.waits ++ [done.1] :=
    waits_of_wait (reads_didRead .asyncRead done.1 done.2 { s with pending := none })
  exact wait_handled (s := called) rfl usbCfg thrown hwaits ok _ _

theorem wait_dispatch (n : Nat) {s : Session Handler} (h : Wait s) :
    Wait (dispatch handle n s).2 := by
  induction n generalizing s with
  | zero => exact h
  | succ n ih =>
    cases hp : s.pending with
    | none =>
      rw [dispatch, hp]
      exact h
    | some op =>
      cases h with
      | waiting held op pending ok usbCfg thrown =>
        rw [dispatch, pending]
        exact ih (wait_complete ok usbCfg thrown)
      | failed pending => simp [pending] at hp
      | received pending => simp [pending] at hp

theorem Wait.stop {s : Session Handler} (h : Wait s) : Wait { s with stopped := true } := by
  cases h with
  | waiting held op pending ok usbCfg thrown => exact .waiting held op pending ok usbCfg thrown
  | failed pending r mem ec usbCfg thrown => exact .failed pending r mem ec usbCfg thrown
  | received pending line lines ok body marked usbCfg =>
    exact .received pending line lines ok body marked usbCfg

/-- Before the wait. -/
structure Unread (s : Session Handler) : Prop where
  waits : s.waits = []
  usbCfg : s.usbCfg = []
  thrown : s.thrown = false
  stopped : s.stopped = false

theorem unread_execute (command : Request) :
    Triple Unread (execute command) Unread fun s => ∀ r ∈ s.waits, r.ec = false := by
  refine (triple_of_keeps fun s hs => ?_).imp (fun _ h => h) (fun _ h => h)
    fun s h r hr => by simp [h.waits] at hr
  obtain ⟨hstopped, husbCfg, hthrown, _⟩ := execute_frame command s
  exact ⟨by rw [waits_execute, hs.waits], by rw [husbCfg, hs.usbCfg], by rw [hthrown, hs.thrown],
    by rw [hstopped, hs.stopped]⟩

/-- The wait is over, and its end was not an exception. -/
structure Over (s : Session Handler) : Prop where
  wait : Wait s
  pending : s.pending = none
  thrown : s.thrown = false

/-- The query goes on only when the wait is over; a failed wait does not end it. -/
theorem query_over {p : Program Handler} (hp : p.handle = handle) (port : Port) (n : Nat) :
    Triple (· = .start port) (sequence (query.map (p.step port n))) Over
      fun s => ∀ r ∈ s.waits, r.ec = false := by
  have hstart : ∀ s : Session Handler, s = .start port → Unread s := by
    rintro s rfl
    exact ⟨rfl, rfl, rfl, rfl⟩
  have hopen : Triple (· = .start port) (p.step port n .openPort) Unread
      fun s => ∀ r ∈ s.waits, r.ec = false :=
    (triple_of_keeps fun s (hs : Unread s) => hs).imp hstart (fun _ h => h)
      fun s h r hr => by simp [h.waits] at hr
  have hread : Triple Unread (p.step port n (.start (·.asyncRead .qcfgReadHandler)))
      (fun s => Wait s ∧ s.stopped = false) fun s => ∀ r ∈ s.waits, r.ec = false :=
    triple_does fun s hs => ⟨.waiting _ _ rfl (fun r hr => by
      rw [waits_of_reads (reads_asyncRead _ s), hs.waits] at hr
      cases hr) hs.usbCfg hs.thrown, hs.stopped⟩
  have hrun : Triple (fun s => Wait s ∧ s.stopped = false) (p.step port n .run) Over
      fun s => ∀ r ∈ s.waits, r.ec = false := by
    rintro s ⟨hs, hstopped⟩
    rw [Program.step, hp]
    have hflag := @dispatch_flag _ handle n s
    have hwait := wait_dispatch n hs
    cases hd : (dispatch handle n s).1 with
    | true =>
      rw [hd] at hflag
      obtain ⟨hnone, hthrown⟩ := Bool.and_eq_true_iff.mp hflag.symm
      have hrun : run handle n s = (some 0, { (dispatch handle n s).2 with stopped := true }) := by
        simp [run, hstopped, hd]
      rw [hrun]
      exact ⟨fun _ => ⟨hwait.stop, Option.isNone_iff_eq_none.mp hnone, by simpa using hthrown⟩,
        fun h => absurd rfl h⟩
    | false =>
      have hrun : run handle n s = (none, (dispatch handle n s).2) := by
        simp [run, hstopped, hd]
      rw [hrun]
      refine ⟨fun h => absurd h (by simp), fun _ => ?_⟩
      cases hwait with
      | waiting _ _ _ ok => exact ok
      | failed pending _ _ _ _ thrown => simp [hd, pending, thrown] at hflag
      | received _ _ _ ok => exact ok
  rw [query]
  exact triple_cons hopen (triple_cons (unread_execute _) (triple_cons hread
    (triple_cons hrun triple_nil)))

theorem query_chained {p : Program Handler} (hp : p.handle = handle) (port : Port) (n : Nat) :
    (sequence (query.map (p.step port n)) (.start port)).2.Chained := by
  refine chained_sequence ?_ port
  simp only [query, List.map_cons, List.map_nil, List.forall_mem_cons]
  refine ⟨chained_openPort port, chained_execute _, chained_does (fun _ => rfl) (fun _ => rfl), ?_,
    fun _ h => (List.not_mem_nil h).elim⟩
  rw [Program.step, hp]
  exact chained_run voiceCall_quiet n _ fun _ h => h

theorem query_waited {p : Program Handler} (hp : p.handle = handle) {port : Port} {n : Nat}
    {s : Session Handler} (h : p.Reaches port n query s) : Over s ∧ s.Chained := by
  have hquery : sequence (query.map (p.step port n)) (.start port) = (some 0, s) := h
  have hover := query_over hp port n (.start port) rfl
  have hchain := query_chained hp port n
  rw [hquery] at hover hchain
  exact ⟨hover.1 rfl, hchain⟩

/-- What follows the wait completes no more reads of the event loop: that has been stopped. -/
theorem settled_waits {p : Program Handler} {port : Port} {n : Nat}
    {statements : List (Statement Handler)}
    (h : ∀ i ∈ statements,
      i = .run ∨ (∃ f, i = .execute f) ∨ ∃ handler, i = .start (·.asyncRead handler))
    {s : Session Handler} (hs : s.stopped = true) :
    (sequence (statements.map (p.step port n)) s).2.waits = s.waits := by
  have hall : Triple (fun t : Session Handler => t.stopped = true ∧ t.waits = s.waits)
      (sequence (statements.map (p.step port n)))
      (fun t => t.stopped = true ∧ t.waits = s.waits)
      fun t => t.stopped = true ∧ t.waits = s.waits := triple_all fun step hstep => by
    obtain ⟨i, hi, rfl⟩ := List.mem_map.mp hstep
    apply triple_of_keeps
    intro t ⟨hstopped, hwaits⟩
    rcases h i hi with rfl | ⟨f, rfl⟩ | ⟨handler, rfl⟩
    · have hrun : p.step port n .run t = (some 0, t) := if_pos hstopped
      rw [hrun]
      exact ⟨hstopped, hwaits⟩
    · exact ⟨(execute_frame (f t) t).1.trans hstopped, (waits_execute (f t) t).trans hwaits⟩
    · exact ⟨hstopped, (waits_of_reads (reads_asyncRead handler t)).trans hwaits⟩
  exact (hall.holds ⟨hs, rfl⟩).2

/-- The modem's own report is what is written, and a failed wait ends the run. -/
structure Reported (exchanges : List (Exchange Handler))
    (result : Option Int × Session Handler) : Prop where
  read : ∀ x ∈ exchanges.tail, x.command.command = ascii "QCFG" →
    ∃ r ∈ successful x.before.records, ∃ line, r.alone.body.head? = some line ∧
      (ascii "+QCFG:").IsPrefix line ∧ x.command = makeAtQcfgWrite (taken line)
  ended : ∀ r ∈ result.2.waits, r.ec = true →
    (∃ status, result.1 = some status ∧ status ≠ 0) ∧ ∀ x ∈ exchanges, r ∉ x.before.waits

theorem switchOn_tail : ∀ c ∈ [makeAtQpcmvWrite (ascii "1,2"), makeAtCscsWrite (ascii "\"GSM\"")],
    c.command ≠ ascii "QCFG" := by decide

theorem reported_of {p : Program Handler} {port : Port} {n : Nat} {rest : List Request}
    {behind : List (Statement Handler)} (hp : p.handle = handle)
    (hstatements : p.statements = query ++ behind)
    (hbehind : ∀ i ∈ behind,
      i = .run ∨ (∃ f, i = .execute f) ∨ ∃ handler, i = .start (·.asyncRead handler))
    (hscripted : Scripted p port n rest) (hrest : ∀ c ∈ rest, c.command ≠ ascii "QCFG") :
    Reported (p.exchanges port n) (p.run port n) ↔ ∀ r ∈ (p.run port n).2.waits, r.ec = false := by
  cases hscripted with
  | waiting hwait h =>
    have hover := query_over hp port n (.start port) rfl
    have hrun := (Program.run_of_not_reaches hwait hstatements).1
    have hok : ∀ r ∈ (p.run port n).2.waits, r.ec = false := by
      rw [hrun]
      exact hover.2 fun h0 => hwait _ (Prod.ext h0 rfl)
    refine ⟨fun _ => hok, fun _ => ⟨fun x hx _ => ?_, fun r hr hec => ?_⟩⟩
    · rw [h] at hx
      split at hx <;> cases hx
    · rw [hok r hr] at hec
      cases hec
  | waited s xs _ hwait h hxs =>
    have hlast : p.Reaches port n (query.dropLast ++ [.run]) s := hwait
    obtain ⟨⟨hended, hpending, hthrown⟩, hchain⟩ := query_waited hp hwait
    have hwaits : (p.run port n).2.waits = s.waits := by
      rw [hwait.run hstatements]
      exact settled_waits hbehind hlast.stopped
    rw [hwaits]
    cases hended with
    | waiting held op pending => simp [pending] at hpending
    | failed _ r mem ec =>
      constructor
      · intro hreported
        have hnot := (hreported.ended r (by rwa [hwaits]) ec).2 ⟨makeAtQcfgWrite s.usbCfg, s⟩
          (by rw [h]; simp)
        exact absurd mem hnot
      · intro hok
        rw [hok r mem] at ec
        cases ec
    | received _ line lines ok body marked usbCfg =>
      refine ⟨fun _ => ok, fun _ => ⟨fun x hx hcommand => ?_, fun r hr hec => ?_⟩⟩
      · rw [h, List.tail_cons] at hx
        have hhead : s.response.body.head? = some line := by rw [body, List.head?_cons]
        obtain ⟨r, hr, hline⟩ := hchain.firstLine hhead
        rcases List.mem_cons.mp hx with rfl | hx
        · exact ⟨r, hr, line, hline, marked, by rw [(usbCfg hthrown).2]⟩
        · have hmem : x.command ∈ (switchOn s.usbCfg ++ rest).tail := by
            have hprefix := hxs.in_order
            rw [List.map_cons] at hprefix
            exact (List.cons_prefix_cons.mp hprefix).2.subset (List.mem_map_of_mem hx)
          rcases List.mem_append.mp hmem with hmem | hmem
          · exact absurd hcommand (switchOn_tail _ hmem)
          · exact absurd hcommand (hrest _ hmem)
      · rw [hwaits] at hr
        rw [ok r hr] at hec
        cases hec

/-- In every run of the call scenarios: the configuration that is written is the one that the
modem has reported in a message of the run, and a failed waiting read ends the run with an
error, exactly when no waiting read fails. -/
theorem reported_iff (port : Port) (n : Nat) :
    (∀ da, Reported ((makeProgram da).exchanges port n) (runMakeVcall port da n) ↔
      ∀ r ∈ (runMakeVcall port da n).2.waits, r.ec = false) ∧
    (Reported (receiveProgram.exchanges port n) (runReceiveVcall port n) ↔
      ∀ r ∈ (runReceiveVcall port n).2.waits, r.ec = false) := by
  constructor
  · intro da
    have hp : (makeProgram da).statements = query ++ dial := rfl
    refine reported_of rfl hp ?_ (makeProgram_scripted da port n) (by decide)
    simp [dial, command]
  · have hp : receiveProgram.statements = query ++ answer := rfl
    refine reported_of rfl hp ?_ (receiveProgram_scripted port n) (by decide)
    simp only [answer, command, List.forall_mem_cons]
    exact ⟨Or.inr (Or.inl ⟨_, rfl⟩), Or.inr (Or.inl ⟨_, rfl⟩), Or.inr (Or.inl ⟨_, rfl⟩),
      Or.inr (Or.inr ⟨_, rfl⟩), Or.inl trivial, Or.inr (Or.inl ⟨_, rfl⟩),
      fun _ h => (List.not_mem_nil h).elim⟩

/-- The wait for +QCFG fails, and the empty configuration is written. -/
theorem reported_not :
    let ok : Arrival UInt8 := ⟨ascii "\r\nOK\r\n", [], by decide⟩
    let port : Port := ⟨true, [.received ok, .failed, .received ok, .received ok, .received ok,
      .received ok, .received ok, .received ok], List.replicate 9 (.accepted 100 [])⟩
    (runMakeVcall port (ascii "112") 1).1 = some 0 ∧
      ¬ Reported ((makeProgram (ascii "112")).exchanges port 1)
        (runMakeVcall port (ascii "112") 1) := by
  intro ok port
  refine ⟨by decide, fun h => ?_⟩
  have hfailed : ∃ r ∈ (runMakeVcall port (ascii "112") 1).2.waits, r.ec = true := by decide
  obtain ⟨r, hr, hec⟩ := hfailed
  obtain ⟨⟨status, hstatus, hne⟩, _⟩ := h.ended r hr hec
  have hzero : (runMakeVcall port (ascii "112") 1).1 = some 0 := by decide
  rw [hzero] at hstatus
  exact hne (Option.some.inj hstatus).symm

end VoiceCall

end Ringbeller
