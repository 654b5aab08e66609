import Ringbeller.App.AsExecute
import Ringbeller.App.Commands
import Ringbeller.App.Scenarios
import Ringbeller.Asio.Retries
import Ringbeller.Lib.Outputs

/-!
# All scenarios of the command line

The seven scenarios as one family, and what holds at the end of every run of every one of them.
-/

namespace Ringbeller
set_option autoImplicit false

open Asio Script Session

/-- `do_at_ok.cpp` and `do_ati.cpp` have the body of `execute` in place. -/
def AtOk.program : Program Empty := ⟨fun h => h.elim, [.openPort, command makeAt]⟩

def Ati.program : Program Empty := ⟨fun h => h.elim, [.openPort, command makeAti]⟩

/-- What the command line selects. -/
inductive Verb where
  | atOk
  | ati
  | atCops
  | rcvSms
  | sendSms (da smsText : List UInt8)
  | makeCall (da : List UInt8)
  | rcvCall
  deriving Repr, DecidableEq

namespace Verb

def Handler : Verb → Type
  | atOk => Empty
  | ati => Empty
  | atCops => AtCops.Handler
  | rcvSms => ReceiveSms.Handler
  | sendSms _ _ => SendSms.Handler
  | makeCall _ => VoiceCall.Handler
  | rcvCall => VoiceCall.Handler

def program : (v : Verb) → Program v.Handler
  | atOk => AtOk.program
  | ati => Ati.program
  | atCops => AtCops.program
  | rcvSms => ReceiveSms.program
  | sendSms da smsText => SendSms.program da smsText
  | makeCall da => VoiceCall.makeProgram da
  | rcvCall => VoiceCall.receiveProgram

def run (v : Verb) (port : Port) (n : Nat) : Option Int × Session v.Handler := v.program.run port n

end Verb

/-! ## What statements keep -/

section Keeps
variable {η : Type}

/-- A property that holds at the start and that every statement and every handler call keeps. -/
structure Keeps (p : Program η) (port : Port) (P : Session η → Prop) : Prop where
  start : P (.start port)
  execute : ∀ command s, P s → P (execute command s).2
  starts : ∀ f, .start f ∈ p.statements → ∀ s, P s → P (f s)
  complete : ∀ op handler s, P s → s.pending = some (op, handler) →
    P (complete p.handle op handler { s with pending := none })
  stop : ∀ s, P s → P { s with stopped := true }

variable {p : Program η} {port : Port} {P : Session η → Prop}

theorem Keeps.dispatch (h : Keeps p port P) (n : Nat) {s : Session η} (hs : P s) :
    P (dispatch p.handle n s).2 := by
  induction n generalizing s with
  | zero => exact hs
  | succ n ih =>
    cases hp : s.pending with
    | none => simpa only [Session.dispatch, hp] using hs
    | some op => simpa only [Session.dispatch, hp] using ih (h.complete op.1 op.2 s hs hp)

theorem Keeps.step (h : Keeps p port P) (n : Nat) {i : Statement η} (hi : i ∈ p.statements)
    {s : Session η} (hs : P s) : P (p.step port n i s).2 := by
  cases i with
  | openPort => exact hs
  | execute command => exact h.execute _ s hs
  | start f => exact h.starts f hi s hs
  | run =>
    have hd := h.dispatch n hs
    rcases run_cases p.handle n s with hr | hr | hr <;> rw [Program.step, hr]
    · exact hs
    · exact h.stop _ hd
    · exact hd

theorem Keeps.run (h : Keeps p port P) (n : Nat) : P (p.run port n).2 := by
  have hall : Triple P (sequence (p.statements.map (p.step port n))) P P := by
    apply triple_all
    intro step hs
    obtain ⟨i, hi, rfl⟩ := List.mem_map.mp hs
    exact triple_of_keeps fun s hs => h.step n hi hs
  exact hall.holds h.start

end Keeps

/-! ## The reads of a run -/

section Reads
variable {η : Type}

/-- What is only started leaves alone what the reads have done. -/
def Statement.Starts : Statement η → Prop
  | .start f => ∀ s, (f s).reads = s.reads ∧ (f s).response = s.response ∧ (f s).turns = s.turns
  | _ => True

/-- The handlers and the statements leave to the reads what these have done. -/
structure Restrained (p : Program η) : Prop where
  quiet : Quiet p.handle
  turns : ∀ handler ec n s, (p.handle handler ec n s).turns = s.turns
  starts : ∀ i ∈ p.statements, i.Starts

theorem starts_asyncRead (handler : η) :
    (Statement.start (Session.asyncRead handler) : Statement η).Starts := fun s =>
  ⟨reads_asyncRead handler s, rfl, rfl⟩

theorem starts_asyncWrite (msg : Request) (handler : η) :
    (Statement.start (Session.asyncWrite msg handler) : Statement η).Starts := fun s =>
  ⟨reads_startWriting _ handler s, rfl, rfl⟩

/-- A read of what the stream has left, into the response that there is. -/
def readInto (held : List UInt8) (op : Search) (buf : Streambuf UInt8) (turns : List (Turn UInt8))
    (msg : Response) : ReadRecord × ReadState :=
  deliver held (finish matchCondition op buf turns) msg

variable {p : Program η} {port : Port}
  {P : List ReadRecord → Response → List (Turn UInt8) → Prop}

/-- What every read keeps holds at the end of a run. -/
theorem keeps_reads (hp : Restrained p) (hstart : P [] .new port.turns)
    (hread : ∀ rs msg turns held op buf, P rs msg turns →
      P (rs ++ [(readInto held op buf turns msg).1]) (readInto held op buf turns msg).2.msg
        (readInto held op buf turns msg).2.turns) :
    Keeps p port fun s => P s.records s.response s.turns := by
  constructor
  · exact hstart
  · intro command s hs
    cases hec : (s.write command).1 with
    | true =>
      rw [execute_unwritten hec, records, reads_write]
      exact hs
    | false =>
      rw [execute_written hec, records, reads_didRead, reads_write, List.map_append]
      exact hread _ _ _ [] (search matchCondition 0 []) .new hs
  · intro f hf s hs
    obtain ⟨hreads, hresponse, hturns⟩ := hp.starts (.start f) hf s
    rw [records, hreads, hresponse, hturns]
    exact hs
  · intro op handler s hs _
    cases op with
    | reading held op =>
      have hreads := reads_complete_reading (fun h ec n s => (hp.quiet h ec n s).1) held op handler
        { s with pending := none }
      rw [records, hreads, List.map_append, complete, response_consume, (hp.quiet _ _ _ _).2]
      have hturns : ∀ n t, (Session.consume n t : Session η).turns = t.turns := fun _ _ => rfl
      rw [hturns, hp.turns]
      exact hread _ _ _ held op s.buf hs
    | writing op =>
      have hreads := reads_complete_writing (fun h ec n s => (hp.quiet h ec n s).1) op handler
        { s with pending := none }
      rw [records, hreads, complete, (hp.quiet _ _ _ _).2, hp.turns]
      exact hs
  · intro s hs
    exact hs

end Reads

theorem receiveSms_turns (handler : ReceiveSms.Handler) (ec : Bool) (n : Nat)
    (s : Session ReceiveSms.Handler) : (ReceiveSms.handle handler ec n s).turns = s.turns := by
  cases handler with
  | readHandler =>
    simp only [ReceiveSms.handle]
    split
    · rfl
    · split <;> rfl

theorem sendSms_turns (smsText : List UInt8) (handler : SendSms.Handler) (ec : Bool) (n : Nat)
    (s : Session SendSms.Handler) : (SendSms.handle smsText handler ec n s).turns = s.turns := by
  cases handler with
  | textWriteHandler => rfl
  | promptReadHandler =>
    simp only [SendSms.handle]
    split
    · rfl
    · split <;> rfl
  | cmgsWriteHandler =>
    simp only [SendSms.handle]
    split <;> rfl

theorem atCops_turns (handler : AtCops.Handler) (ec : Bool) (n : Nat)
    (s : Session AtCops.Handler) : (AtCops.handle handler ec n s).turns = s.turns := by
  cases handler with
  | readHandler => rfl
  | writeHandler =>
    simp only [AtCops.handle]
    split <;> rfl

theorem voiceCall_turns (handler : VoiceCall.Handler) (ec : Bool) (n : Nat)
    (s : Session VoiceCall.Handler) : (VoiceCall.handle handler ec n s).turns = s.turns := by
  cases handler with
  | qcfgReadHandler =>
    simp only [VoiceCall.handle, VoiceCall.takeUsbCfg]
    split
    · rfl
    · split
      · split <;> rfl
      · rfl
  | callReadHandler =>
    simp only [VoiceCall.handle]
    split
    · rfl
    · split <;> rfl

theorem starts_commands {η : Type} (commands : List Request) :
    ∀ i ∈ commands.map command, (i : Statement η).Starts := by
  intro i hi
  obtain ⟨msg, _, rfl⟩ := List.mem_map.mp hi
  trivial

theorem receiveSms_starts : ∀ i ∈ ReceiveSms.program.statements, i.Starts := by
  simp only [ReceiveSms.program, List.cons_append, List.forall_mem_cons, List.forall_mem_append]
  exact ⟨trivial, starts_commands _, starts_asyncRead _, trivial, List.forall_mem_nil _⟩

theorem sendSms_starts (da smsText : List UInt8) :
    ∀ i ∈ (SendSms.program da smsText).statements, i.Starts := by
  simp only [SendSms.program, List.forall_mem_cons]
  exact ⟨trivial, trivial, trivial, starts_asyncWrite _ _, trivial, List.forall_mem_nil _⟩

theorem query_starts : ∀ i ∈ VoiceCall.query, i.Starts := by
  simp only [VoiceCall.query, List.forall_mem_cons]
  exact ⟨trivial, trivial, starts_asyncRead _, trivial, List.forall_mem_nil _⟩

theorem makeVcall_starts (da : List UInt8) :
    ∀ i ∈ (VoiceCall.makeProgram da).statements, i.Starts := by
  refine List.forall_mem_append.mpr ⟨query_starts, ?_⟩
  simp only [VoiceCall.dial, List.forall_mem_cons]
  exact ⟨trivial, trivial, trivial, trivial, trivial, trivial, List.forall_mem_nil _⟩

theorem receiveVcall_starts : ∀ i ∈ VoiceCall.receiveProgram.statements, i.Starts := by
  refine List.forall_mem_append.mpr ⟨query_starts, ?_⟩
  simp only [VoiceCall.answer, List.forall_mem_cons]
  exact ⟨trivial, trivial, trivial, starts_asyncRead _, trivial, trivial, List.forall_mem_nil _⟩

theorem starts_exchange {η : Type} (msg : Request) :
    ∀ i ∈ ([.openPort, command msg] : List (Statement η)), i.Starts := by
  simp only [List.forall_mem_cons]
  exact ⟨trivial, trivial, List.forall_mem_nil _⟩

theorem atCops_starts : ∀ i ∈ AtCops.program.statements, i.Starts := by
  simp only [AtCops.program, List.forall_mem_cons]
  exact ⟨trivial, starts_asyncWrite _ _, trivial, List.forall_mem_nil _⟩

theorem Verb.restrained (v : Verb) : Restrained v.program := by
  cases v with
  | atOk => exact ⟨fun h => h.elim, fun h => h.elim, starts_exchange makeAt⟩
  | ati => exact ⟨fun h => h.elim, fun h => h.elim, starts_exchange makeAti⟩
  | atCops => exact ⟨AtCops.atCops_quiet, atCops_turns, atCops_starts⟩
  | rcvSms => exact ⟨receiveSms_quiet, receiveSms_turns, receiveSms_starts⟩
  | sendSms da smsText =>
    exact ⟨sendSms_quiet smsText, sendSms_turns smsText, sendSms_starts da smsText⟩
  | makeCall da => exact ⟨voiceCall_quiet, voiceCall_turns, makeVcall_starts da⟩
  | rcvCall => exact ⟨voiceCall_quiet, voiceCall_turns, receiveVcall_starts⟩

/-! ## What the reads have taken -/

/-- The reads have taken what the stream has sent so far, each chunk once and in order. Each failed
read has used up a failure, or has met the end of the stream. -/
structure Accounted (sent : List (Turn UInt8)) (rs : List ReadRecord) (left : List (Turn UInt8)) :
    Prop where
  received : arrivals sent = rs.flatMap ReadRecord.taken ++ arrivals left
  failed : failures sent ≤ failures left + rs.countP ReadRecord.ec
  unclosed : left ≠ [] → failures sent = failures left + rs.countP ReadRecord.ec

theorem accounted_read {sent turns : List (Turn UInt8)} {rs : List ReadRecord} (held : List UInt8)
    (op : Search) (buf : Streambuf UInt8) (msg : Response) (h : Accounted sent rs turns) :
    Accounted sent (rs ++ [(readInto held op buf turns msg).1])
      (readInto held op buf turns msg).2.turns := by
  obtain ⟨htaken, hpassed, hfailed⟩ := @finish_arrivals _ matchCondition op buf turns
  obtain ⟨hreceived, hmost, hunclosed⟩ := h
  have hclosed : turns = [] → (finish matchCondition op buf turns).turns = [] := by
    rintro rfl
    cases op <;> rw [finish]
  simp only [readInto, deliver]
  generalize finish matchCondition op buf turns = o at htaken hpassed hfailed hclosed
  have hcount : ∀ r : ReadRecord, (rs ++ [r]).countP ReadRecord.ec =
      rs.countP ReadRecord.ec + if r.ec then 1 else 0 := by
    intro r
    cases hr : r.ec <;> simp [List.countP_append, hr]
  constructor
  · rw [hreceived, htaken, List.flatMap_append, List.append_assoc, List.flatMap_singleton]
  · rw [hcount]
    cases hec : o.ec with
    | true =>
      have hstop := hfailed hec
      simp only [if_true]
      omega
    | false =>
      have hgo := hpassed hec
      simp only [Bool.false_eq_true, if_false]
      omega
  · intro hleft
    have heq := hunclosed fun h => hleft (hclosed h)
    rw [hcount]
    cases hec : o.ec with
    | true =>
      have hstop := (hfailed hec).resolve_right fun h => hleft h.2
      simp only [if_true]
      omega
    | false =>
      have hgo := hpassed hec
      simp only [Bool.false_eq_true, if_false]
      omega

/-- In every run of every scenario the reads, asynchronous or not, receive what the modem sends,
each chunk once and in order, and they fail as often as the port does, and else only at its end. -/
theorem verb_accounted (v : Verb) (port : Port) (n : Nat) :
    Accounted port.turns (v.run port n).2.records (v.run port n).2.turns := by
  have hstart : Accounted port.turns [] port.turns := ⟨rfl, Nat.le_refl _, fun _ => rfl⟩
  exact (keeps_reads (P := fun rs _ left => Accounted port.turns rs left) v.restrained hstart
    fun rs msg turns held op buf h => accounted_read held op buf msg h).run n

/-! ## What is presented -/

/-- Lines and texts hold no CR and begin with something visible. -/
structure Response.Clean (x : Response) : Prop where
  lines : ∀ line ∈ x.body, Content line
  text : x.rcText ≠ [] → Content x.rcText

theorem Response.Clean.populate {x : Response} (hx : x.Clean) (buf : Streambuf UInt8) :
    (populateResponseFromBuffer buf x).Clean := by
  obtain ⟨hlines, htext⟩ := parse_clean buf.data
  constructor
  · exact List.forall_mem_append.mpr ⟨hx.lines, hlines⟩
  · intro hne
    simp only [populateResponseFromBuffer] at hne ⊢
    by_cases hold : x.rcText = []
    · rw [hold, List.nil_append] at hne ⊢
      exact htext hne
    · by_cases hnew : (parseResponse buf.data Outputs.fresh).2.resultText = []
      · rw [hnew, List.append_nil]
        exact hx.text hold
      · exact (hx.text hold).append (htext hnew)

/-- In every run of every scenario, whatever is received: the lines of the response that is
presented, and that the handlers test, and its text, where there is one, are not empty, have no CR
and do not begin with a blank. So do those of each message that is read, taken for itself. -/
theorem verb_presents (v : Verb) (port : Port) (n : Nat) :
    (v.run port n).2.response.Clean ∧
      ∀ r ∈ (v.run port n).2.records, r.after.Clean ∧ r.alone.Clean := by
  have hnew : Response.new.Clean := ⟨fun _ h => (List.not_mem_nil h).elim, fun h => absurd rfl h⟩
  refine (keeps_reads (P := fun rs msg _ => msg.Clean ∧ ∀ r ∈ rs, r.after.Clean ∧ r.alone.Clean)
    v.restrained ⟨hnew, fun _ h => (List.not_mem_nil h).elim⟩ ?_).run n
  intro rs msg turns held op buf hrs
  obtain ⟨hmsg, hrs⟩ := hrs
  have hafter : (readInto held op buf turns msg).1.after.Clean := by
    simp only [readInto, deliver]
    split
    · exact hmsg
    · exact hmsg.populate _
  refine ⟨hafter, List.forall_mem_append.mpr ⟨hrs, List.forall_mem_singleton.mpr ⟨hafter, ?_⟩⟩⟩
  exact hnew.populate _

/-! ## The status of a run -/

theorem mem_exchanges {η : Type} {p : Program η} {port : Port} {n : Nat} {x : Exchange η} :
    x ∈ p.exchanges port n ↔ ∃ f s,
      (.execute f, s) ∈ started (p.step port n) p.statements (.start port) ∧ x = ⟨f s, s⟩ := by
  rw [Program.exchanges, Program.exchangesFrom, List.mem_filterMap]
  constructor
  · rintro ⟨⟨i, s⟩, hstarted, hx⟩
    cases i with
    | execute f => exact ⟨f, s, hstarted, (Option.some.inj hx).symm⟩
    | openPort => cases hx
    | start f => cases hx
    | run => cases hx
  · rintro ⟨f, s, hstarted, rfl⟩
    exact ⟨_, hstarted, rfl⟩

/-- The statuses that a statement ends a run with. -/
theorem step_status {η : Type} (p : Program η) (port : Port) (n : Nat) (i : Statement η)
    (s : Session η) :
    (p.step port n i s).1 = some (-1) ↔ (i = .openPort ∧ port.opens = false) ∨
      ∃ f, i = .execute f ∧ (⟨f s, s⟩ : Exchange η).failed = true := by
  cases i with
  | openPort =>
    have hstep : (p.step port n .openPort s).1 = some (if port.opens then 0 else -1) := rfl
    rw [hstep]
    cases port.opens <;> simp
  | execute f =>
    have hstep : (p.step port n (.execute f) s).1 =
        some (if (⟨f s, s⟩ : Exchange η).failed then -1 else 0) := execute_status (f s) s
    rw [hstep]
    cases hfailed : (⟨f s, s⟩ : Exchange η).failed <;> simp [hfailed]
  | start f =>
    have hstep : (p.step port n (.start f) s).1 = some 0 := rfl
    rw [hstep]
    simp
  | run =>
    have hstep : p.step port n .run s = run p.handle n s := rfl
    rw [hstep]
    rcases run_cases p.handle n s with h | h | h <;> rw [h] <;> simp

theorem step_returns {η : Type} (p : Program η) (port : Port) (n : Nat) (i : Statement η)
    (s : Session η) : (p.step port n i s).1 = some (-1) ∨ (p.step port n i s).1 = some 0 ∨
      (p.step port n i s).1 = none := by
  cases i with
  | openPort =>
    have hstep : (p.step port n .openPort s).1 = some (if port.opens then 0 else -1) := rfl
    rw [hstep]
    cases port.opens <;> simp
  | execute f =>
    have hstep : (p.step port n (.execute f) s).1 =
        some (if (⟨f s, s⟩ : Exchange η).failed then -1 else 0) := execute_status (f s) s
    rw [hstep]
    cases (⟨f s, s⟩ : Exchange η).failed <;> simp
  | start f => exact Or.inr (Or.inl rfl)
  | run =>
    have hstep : p.step port n .run s = run p.handle n s := rfl
    rw [hstep]
    rcases run_cases p.handle n s with h | h | h <;> rw [h] <;> simp

theorem Verb.opens (v : Verb) : ∃ statements, v.program.statements = .openPort :: statements := by
  cases v with
  | atOk => exact ⟨_, rfl⟩
  | ati => exact ⟨_, rfl⟩
  | atCops => exact ⟨_, rfl⟩
  | rcvSms => exact ⟨_, rfl⟩
  | sendSms da smsText => exact ⟨_, rfl⟩
  | makeCall da => exact ⟨_, rfl⟩
  | rcvCall => exact ⟨_, rfl⟩

/-- A run returns -1 exactly when the port could not be opened or one of its exchanges has failed,
and any other value it returns is 0. -/
theorem verb_status (v : Verb) (port : Port) (n : Nat) :
    ((v.run port n).1 = some (-1) ↔
      port.opens = false ∨ ∃ x ∈ v.program.exchanges port n, x.failed = true) ∧
    ((v.run port n).1 = some (-1) ∨ (v.run port n).1 = some 0 ∨ (v.run port n).1 = none) := by
  have hrun : (v.run port n).1 =
      (sequence (v.program.statements.map (v.program.step port n)) (.start port)).1 := rfl
  constructor
  · rw [hrun, sequence_stopped_iff (by simp)]
    simp only [step_status]
    constructor
    · rintro ⟨⟨i, s⟩, hstarted, ⟨_, hno⟩ | ⟨f, hi, hfailed⟩⟩
      · exact Or.inl hno
      · refine Or.inr ⟨⟨f s, s⟩, mem_exchanges.mpr ⟨f, s, ?_, rfl⟩, hfailed⟩
        rw [← hi]
        exact hstarted
    · rintro (hno | ⟨x, hx, hfailed⟩)
      · obtain ⟨statements, hp⟩ := v.opens
        refine ⟨(.openPort, .start port), ?_, Or.inl ⟨rfl, hno⟩⟩
        rw [hp, started]
        exact List.mem_cons_self
      · obtain ⟨f, s, hstarted, rfl⟩ := mem_exchanges.mp hx
        exact ⟨_, hstarted, Or.inr ⟨f, rfl, hfailed⟩⟩
  · rw [hrun]
    refine sequence_status (P := fun r => r = some (-1) ∨ r = some 0 ∨ r = none)
      (Or.inr (Or.inl rfl)) ?_ _
    intro step hstep s
    obtain ⟨i, _, rfl⟩ := List.mem_map.mp hstep
    exact step_returns v.program port n i s

end Ringbeller
