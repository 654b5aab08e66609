import Ringbeller.App.Sms
import Ringbeller.App.VoiceCall

/-!
# One response for several messages

Every scenario reads all its messages into one response object. What a read leaves in it is
its own message behind the texts and lines of all earlier ones.
-/

namespace Ringbeller
set_option autoImplicit false

open Asio Script

/-- What reading the same message into a new response would have given. -/
def ReadRecord.alone (r : ReadRecord) : Response :=
  populateResponseFromBuffer ⟨r.parsed, []⟩ Response.new

def Response.Bare (x : Response) : Prop := x.rcText = [] ∧ x.body = []

def successful (rs : List ReadRecord) : List ReadRecord := rs.filter fun r => !r.ec

/-- The first line of all the messages. -/
def firstLine (rs : List ReadRecord) : Option (List UInt8) :=
  ((successful rs).flatMap fun r => r.alone.body).head?

/-- Reads into one response: each starts from what the one before has left. -/
inductive Chain : List ReadRecord → Response → Prop where
  | nil : Chain [] Response.new
  | failed {rs : List ReadRecord} {msg : Response} {r : ReadRecord} (h : Chain rs msg)
      (hec : r.ec = true) : Chain (rs ++ [r]) msg
  | read {rs : List ReadRecord} {msg : Response} {r : ReadRecord} (h : Chain rs msg)
      (hec : r.ec = false) (hafter : r.after = populateResponseFromBuffer ⟨r.parsed, []⟩ msg) :
      Chain (rs ++ [r]) r.after

theorem populate_alone (r : ReadRecord) (msg : Response) :
    populateResponseFromBuffer ⟨r.parsed, []⟩ msg =
      ⟨r.alone.rc, msg.rcText ++ r.alone.rcText, msg.body ++ r.alone.body⟩ := rfl

theorem successful_append (rs : List ReadRecord) (r : ReadRecord) :
    successful (rs ++ [r]) = successful rs ++ if r.ec then [] else [r] := by
  cases h : r.ec <;> simp [successful, h]

theorem Chain.bare_iff {rs : List ReadRecord} {msg : Response} (h : Chain rs msg) :
    msg.Bare ↔ ∀ r ∈ successful rs, r.alone.Bare := by
  induction h with
  | nil => exact ⟨fun _ r hr => (List.not_mem_nil hr).elim, fun _ => ⟨rfl, rfl⟩⟩
  | failed _ hec ih => rw [successful_append, hec, if_pos rfl, List.append_nil, ih]
  | @read rs msg r _ hec hafter ih =>
    rw [successful_append, hec, hafter, populate_alone]
    simp only [Bool.false_eq_true, if_false, List.forall_mem_append, List.forall_mem_singleton]
    rw [← ih]
    simp only [Response.Bare, List.append_eq_nil_iff]
    exact and_and_and_comm

/-- A read of a chain leaves its own message alone exactly when it starts on a bare response. -/
theorem Chain.alone_iff {rs : List ReadRecord} {msg : Response} (h : Chain rs msg) :
    (∀ r ∈ successful rs, r.after = r.alone) ↔ ∀ r ∈ (successful rs).dropLast, r.alone.Bare := by
  induction h with
  | nil =>
    exact ⟨fun _ r hr => (List.not_mem_nil hr).elim, fun _ r hr => (List.not_mem_nil hr).elim⟩
  | failed _ hec ih => rwa [successful_append, hec, if_pos rfl, List.append_nil]
  | @read rs msg r hchain hec hafter ih =>
    have hbare := hchain.bare_iff
    have hstep : r.after = r.alone ↔ msg.Bare := by
      rw [hafter, populate_alone]
      constructor
      · intro he
        have htext := congrArg Response.rcText he
        have hbody := congrArg Response.body he
        exact ⟨List.append_left_eq_self.mp htext, List.append_left_eq_self.mp hbody⟩
      · rintro ⟨htext, hbody⟩
        rw [htext, hbody]
        rfl
    rw [successful_append, hec]
    simp only [Bool.false_eq_true, if_false, List.forall_mem_append, List.forall_mem_singleton,
      List.dropLast_concat, hstep, hbare, ih]
    exact ⟨fun h => h.2, fun h => ⟨fun r hr => h r (List.dropLast_subset _ hr), h⟩⟩

theorem Chain.body {rs : List ReadRecord} {msg : Response} (h : Chain rs msg) :
    msg.body = (successful rs).flatMap fun r => r.alone.body := by
  induction h with
  | nil => rfl
  | failed _ hec ih => rw [successful_append, hec, if_pos rfl, List.append_nil, ih]
  | read _ hec hafter ih =>
    rw [successful_append, hec, hafter, populate_alone, ih]
    simp

/-! ## Runs -/

section Runs
variable {η : Type}

namespace Session

def records (s : Session η) : List ReadRecord := s.reads.map Prod.snd

def Chained (s : Session η) : Prop := Chain s.records s.response

/-- The first line of a response is the own first line of a message. -/
theorem Chained.firstLine {s : Session η} (h : s.Chained) {line : List UInt8}
    (hline : s.response.body.head? = some line) :
    ∃ r ∈ successful s.records, r.alone.body.head? = some line := by
  rw [Chain.body h, List.head?_flatMap] at hline
  exact List.exists_of_findSome?_eq_some hline

@[simp] theorem response_print (line : String) (s : Session η) :
    (s.print line).response = s.response := rfl

@[simp] theorem response_consume (n : Nat) (s : Session η) :
    (s.consume n).response = s.response := rfl

@[simp] theorem response_asyncRead (handler : η) (s : Session η) :
    (s.asyncRead handler).response = s.response := rfl

@[simp] theorem response_startWriting (started : Writing × List UInt8 × List (Put UInt8))
    (handler : η) (s : Session η) : (s.startWriting started handler).response = s.response := rfl

@[simp] theorem response_write (msg : Request) (s : Session η) :
    (s.write msg).2.response = s.response := rfl

theorem Chained.of_eq {s s' : Session η} (h : s.Chained) (hreads : s'.reads = s.reads)
    (hresponse : s'.response = s.response) : s'.Chained := by
  rw [Chained, records, hreads, hresponse]
  exact h

theorem Chained.didRead {s : Session η} (h : s.Chained) (reader : Reader) (held : List UInt8)
    (o : Outcome UInt8) (done : ReadState) (hmsg : done.msg = (deliver held o s.response).2.msg) :
    (s.didRead reader (deliver held o s.response).1 done).Chained := by
  have hrecords : (s.didRead reader (deliver held o s.response).1 done).records =
      s.records ++ [(deliver held o s.response).1] := by
    rw [records, reads_didRead, List.map_append]
    rfl
  rw [Chained, hrecords, show (s.didRead reader _ done).response = done.msg from rfl, hmsg]
  cases hec : o.ec with
  | true =>
    have hr : (deliver held o s.response).2.msg = s.response := by simp [deliver, hec]
    rw [hr]
    exact h.failed hec
  | false => exact h.read hec (by simp [deliver, hec]; rfl)

end Session

/-- The handlers leave the reads and the response to the event loop. -/
def Quiet (handle : η → Bool → Nat → Session η → Session η) : Prop :=
  ∀ handler ec n s, (handle handler ec n s).reads = s.reads ∧
    (handle handler ec n s).response = s.response

open Session

theorem chained_complete {handle : η → Bool → Nat → Session η → Session η} (hq : Quiet handle)
    (op : Operation) (handler : η) {s : Session η} (h : s.Chained) :
    (complete handle op handler s).Chained := by
  cases op with
  | reading held op =>
    have hread := h.didRead .asyncRead held (finish matchCondition op s.buf s.turns) _ rfl
    refine hread.of_eq ?_ ?_
    · rw [reads_complete_reading (fun h ec n s => (hq h ec n s).1), reads_didRead]
      rfl
    · rw [complete, response_consume, (hq _ _ _ _).2]
      rfl
  | writing op =>
    apply h.of_eq (reads_complete_writing (fun h ec n s => (hq h ec n s).1) op handler s)
    rw [complete, (hq _ _ _ _).2]

theorem chained_dispatch {handle : η → Bool → Nat → Session η → Session η} (hq : Quiet handle)
    (n : Nat) {s : Session η} (h : s.Chained) : (dispatch handle n s).2.Chained := by
  induction n generalizing s with
  | zero => exact h
  | succ n ih =>
    cases hp : s.pending with
    | none => simpa [dispatch, hp] using h
    | some op =>
      have hnone : ({ s with pending := none } : Session η).Chained := h
      simpa [dispatch, hp] using ih (chained_complete hq op.1 op.2 hnone)

theorem chained_run {handle : η → Bool → Nat → Session η → Session η} (hq : Quiet handle)
    (n : Nat) (E : Session η → Prop) (hE : ∀ s, s.Chained → E s) :
    Triple Session.Chained (run handle n) Session.Chained E := by
  refine (triple_of_keeps fun s hs => ?_).imp (fun _ h => h) (fun _ h => h) hE
  have hd := chained_dispatch hq n hs
  rcases run_cases handle n s with h | h | h <;> rw [h]
  · exact hs
  · exact hd
  · exact hd

theorem chained_execute (command : Request) :
    Triple (Session.Chained (η := η)) (execute command) Session.Chained Session.Chained := by
  apply triple_of_keeps
  intro s hs
  have hw : (s.write command).2.Chained := hs.of_eq (reads_write command s) rfl
  cases hec : (s.write command).1 with
  | true => rwa [execute_unwritten hec]
  | false =>
    rw [execute_written hec]
    exact hw.didRead .execute _ (readUntil matchCondition .new s.turns) _ rfl

theorem chained_openPort (port : Port) :
    Triple (Session.Chained (η := η)) (openPort port) Session.Chained Session.Chained :=
  triple_of_keeps fun _ hs => hs

theorem chained_does {f : Session η → Session η} (hreads : ∀ s, (f s).reads = s.reads)
    (hresponse : ∀ s, (f s).response = s.response) :
    Triple Session.Chained (does f) Session.Chained Session.Chained :=
  triple_does fun s hs => hs.of_eq (hreads s) (hresponse s)

end Runs

theorem receiveSms_quiet : Quiet ReceiveSms.handle := by
  intro handler ec n s
  cases handler with
  | readHandler =>
    simp only [ReceiveSms.handle]
    split
    · exact ⟨rfl, rfl⟩
    · split <;> simp

theorem sendSms_quiet (smsText : List UInt8) : Quiet (SendSms.handle smsText) := by
  intro handler ec n s
  cases handler with
  | textWriteHandler => exact ⟨rfl, rfl⟩
  | promptReadHandler =>
    simp only [SendSms.handle, Session.asyncWriteText]
    split
    · exact ⟨rfl, rfl⟩
    · split <;> simp
  | cmgsWriteHandler =>
    simp only [SendSms.handle]
    split <;> simp

theorem takeUsbCfg_quiet (line : List UInt8) (s : Session VoiceCall.Handler) :
    (VoiceCall.takeUsbCfg line s).reads = s.reads ∧
      (VoiceCall.takeUsbCfg line s).response = s.response := by
  unfold VoiceCall.takeUsbCfg
  split <;> exact ⟨rfl, rfl⟩

theorem voiceCall_quiet : Quiet VoiceCall.handle := by
  intro handler ec n s
  cases handler with
  | qcfgReadHandler =>
    simp only [VoiceCall.handle]
    split
    · exact ⟨rfl, rfl⟩
    · split <;> simp [takeUsbCfg_quiet]
  | callReadHandler =>
    simp only [VoiceCall.handle]
    split
    · exact ⟨rfl, rfl⟩
    · split <;> simp

/-- The scenarios that read more than one message into a response. -/
inductive Scenario where
  | executes (commands : List Request)
  | receiveSms
  | sendSms (da smsText : List UInt8)
  | makeVcall (da : List UInt8)
  | receiveVcall

def Scenario.records (port : Port) (n : Nat) : Scenario → List ReadRecord
  | .executes commands => (sequence (commands.map execute) (.start port : Session Unit)).2.records
  | .receiveSms => (runReceiveSms port n).2.records
  | .sendSms da smsText => (runSendSms port da smsText n).2.records
  | .makeVcall da => (runMakeVcall port da n).2.records
  | .receiveVcall => (runReceiveVcall port n).2.records

theorem chained_start {η : Type} (port : Port) : (Session.start port : Session η).Chained := .nil

theorem chained_sequence {η : Type} {steps : List (Step (Session η))}
    (h : ∀ step ∈ steps, Triple Session.Chained step Session.Chained Session.Chained)
    (port : Port) : (sequence steps (.start port)).2.Chained :=
  (triple_all h).holds (chained_start port)

theorem chained_configure (port : Port) (n : Nat) :
    ∀ step ∈ VoiceCall.configure port n,
      Triple Session.Chained step Session.Chained Session.Chained := by
  simp only [VoiceCall.configure, List.forall_mem_cons]
  refine ⟨chained_openPort port, chained_execute _, chained_does (fun _ => rfl) (fun _ => rfl),
    chained_run voiceCall_quiet n _ fun _ h => h, fun s => chained_execute _ s, chained_execute _,
    chained_execute _, fun _ h => (List.not_mem_nil h).elim⟩

theorem runReceiveSms_chained (port : Port) (n : Nat) : (runReceiveSms port n).2.Chained := by
  refine chained_sequence ?_ port
  simp only [ReceiveSms.setup, List.map_cons, List.map_nil, List.cons_append, List.nil_append,
    List.forall_mem_cons]
  exact ⟨chained_openPort port, chained_execute _, chained_execute _, chained_execute _,
    chained_does (fun _ => rfl) (fun _ => rfl), chained_run receiveSms_quiet n _ fun _ h => h,
    fun _ h => (List.not_mem_nil h).elim⟩

theorem runSendSms_chained (port : Port) (da smsText : List UInt8) (n : Nat) :
    (runSendSms port da smsText n).2.Chained := by
  refine chained_sequence ?_ port
  simp only [List.forall_mem_cons]
  exact ⟨chained_openPort port, chained_execute _, chained_execute _,
    chained_does (fun s => Session.reads_startWriting _ _ s) (fun _ => rfl),
    chained_run (sendSms_quiet smsText) n _ fun _ h => h, fun _ h => (List.not_mem_nil h).elim⟩

theorem Scenario.chain (scenario : Scenario) (port : Port) (n : Nat) :
    ∃ msg, Chain (scenario.records port n) msg := by
  cases scenario with
  | executes commands =>
    refine ⟨_, chained_sequence (fun step hs => ?_) port⟩
    obtain ⟨command, _, rfl⟩ := List.mem_map.mp hs
    exact chained_execute command
  | receiveSms => exact ⟨_, runReceiveSms_chained port n⟩
  | sendSms da smsText => exact ⟨_, runSendSms_chained port da smsText n⟩
  | makeVcall da =>
    refine ⟨_, chained_sequence (List.forall_mem_append.mpr ⟨chained_configure port n, ?_⟩) port⟩
    simp only [List.forall_mem_cons]
    exact ⟨chained_execute _, chained_execute _, chained_execute _,
      fun _ h => (List.not_mem_nil h).elim⟩
  | receiveVcall =>
    refine ⟨_, chained_sequence (List.forall_mem_append.mpr ⟨chained_configure port n, ?_⟩) port⟩
    simp only [List.forall_mem_cons]
    exact ⟨chained_does (fun _ => rfl) (fun _ => rfl),
      chained_run voiceCall_quiet n _ fun _ h => h, chained_execute _,
      fun _ h => (List.not_mem_nil h).elim⟩

/-- In every run of every scenario, each successful read leaves in the response what reading
its message into a new one would give, exactly when no message but the last one carries a
result text or an information line. -/
theorem scenario_alone_iff (scenario : Scenario) (port : Port) (n : Nat) :
    (∀ r ∈ successful (scenario.records port n), r.after = r.alone) ↔
      ∀ r ∈ (successful (scenario.records port n)).dropLast, r.alone.Bare := by
  obtain ⟨msg, h⟩ := scenario.chain port n
  exact h.alone_iff

theorem scenario_stale_line :
    let ati : Arrival UInt8 := ⟨ascii "\r\nQuectel\r\n\r\nOK\r\n", [], by decide⟩
    let ok : Arrival UInt8 := ⟨ascii "\r\nOK\r\n", [], by decide⟩
    let port : Port := ⟨true, [.received ati, .received ok], [.accepted 5 [], .accepted 4 []]⟩
    ¬ ∀ r ∈ successful ((Scenario.executes [basicRequest (ascii "I") [], makeAt]).records port 0),
      r.after = r.alone := by
  decide

end Ringbeller
