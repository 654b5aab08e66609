import Ringbeller.App.EventLoop
import Ringbeller.App.Responses
import Ringbeller.App.Scenarios

/-!
# The calls of the handlers

The handler calls of an event loop, in order, each with the operation that has completed and the
state in front of the completion; and programs that open the port, execute some commands, start
an operation and run the loop.
-/

namespace Ringbeller
set_option autoImplicit false

open Asio Script Session

variable {η : Type} {handle : η → Bool → Nat → Session η → Session η}

structure Call (η : Type) where
  op : Operation
  handler : η
  before : Session η
  deriving Repr, DecidableEq

namespace Call

/-- What the read has done, if the operation is one. -/
def record (c : Call η) : Option ReadRecord :=
  match c.op with
  | .reading held op =>
    some (asyncReadCompletes held op ⟨c.before.turns, c.before.buf, c.before.response⟩).1
  | .writing _ => none

/-- The operation has completed with an error. -/
def ec (c : Call η) : Bool :=
  match c.op with
  | .reading held op =>
    (asyncReadCompletes held op ⟨c.before.turns, c.before.buf, c.before.response⟩).1.ec
  | .writing op => (asyncWriteCompletes op c.before.puts).ec

def after (handle : η → Bool → Nat → Session η → Session η) (c : Call η) : Session η :=
  complete handle c.op c.handler c.before

/-- The memory of the write still holds `s` wherever a later short write reads it. -/
def Intact (s : List UInt8) (c : Call η) : Prop :=
  match c.op with
  | .reading _ _ => True
  | .writing op => Asio.Intact s op c.before.puts

instance (s : List UInt8) (c : Call η) : Decidable (c.Intact s) := by
  unfold Intact
  split <;> infer_instance

end Call

/-- The first `n` handler calls of a loop. -/
def calls (handle : η → Bool → Nat → Session η → Session η) : Nat → Session η → List (Call η)
  | 0, _ => []
  | n + 1, s =>
    match s.pending with
    | none => []
    | some (op, handler) =>
      let c : Call η := ⟨op, handler, { s with pending := none }⟩
      c :: calls handle n (c.after handle)

/-- The handler calls of a run. -/
def Program.calls (p : Program η) (port : Port) (n : Nat) : List (Call η) :=
  (started (p.step port n) p.statements (.start port)).flatMap fun x =>
    match x.1 with
    | .run => if x.2.stopped then [] else Ringbeller.calls p.handle n x.2
    | _ => []

theorem loop_idle (handle : η → Bool → Nat → Session η → Session η) {s : Session η}
    (h : s.pending = none) (n : Nat) :
    calls handle n s = [] ∧ dispatch handle n s = (!s.thrown, s) := by
  cases n with
  | zero => exact ⟨rfl, by simp [dispatch, h]⟩
  | succ n => exact ⟨by rw [calls, h], by rw [dispatch, h]⟩

theorem loop_interrupted (handle : η → Bool → Nat → Session η → Session η) {s : Session η}
    {op : Operation × η} (h : s.pending = some op) :
    calls handle 0 s = [] ∧ dispatch handle 0 s = (false, s) := ⟨rfl, by simp [dispatch, h]⟩

theorem loop_call (handle : η → Bool → Nat → Session η → Session η) {s : Session η} {c : Call η}
    (h : s.pending = some (c.op, c.handler)) (hbefore : { s with pending := none } = c.before)
    (n : Nat) :
    calls handle (n + 1) s = c :: calls handle n (c.after handle) ∧
      dispatch handle (n + 1) s = dispatch handle n (c.after handle) := by
  obtain ⟨op, handler, before⟩ := c
  obtain rfl : { s with pending := none } = before := hbefore
  rw [calls, dispatch, h]
  exact ⟨rfl, rfl⟩

/-! ## The bytes written -/

namespace Session

/-- What the port has accepted. -/
def written (s : Session η) : List UInt8 :=
  s.log.flatMap fun
    | .sent bytes => bytes
    | _ => []

@[simp] theorem written_print (line : String) (s : Session η) :
    (s.print line).written = s.written := by
  simp [print, written]

@[simp] theorem written_consume (n : Nat) (s : Session η) : (s.consume n).written = s.written := rfl

@[simp] theorem written_asyncRead (handler : η) (s : Session η) :
    (s.asyncRead handler).written = s.written := rfl

@[simp] theorem written_startWriting (started : Writing × List UInt8 × List (Put UInt8))
    (handler : η) (s : Session η) :
    (s.startWriting started handler).written = s.written ++ started.2.1 := by
  simp [startWriting, written]

@[simp] theorem written_didRead (reader : Reader) (r : ReadRecord) (done : ReadState)
    (s : Session η) : (s.didRead reader r done).written = s.written := by
  simp [didRead, written]

end Session

/-- The state `t` in which a handler is called behind the read `r`, which has completed in `s`. -/
structure ReadDone (r : ReadRecord) (s t : Session η) : Prop where
  response : t.response = r.after
  puts : t.puts = s.puts
  pending : t.pending = s.pending
  thrown : t.thrown = s.thrown
  written : t.written = s.written
  log : t.log = s.log ++ [.read .asyncRead r]

theorem ReadDone.reads {r : ReadRecord} {s t : Session η} (h : ReadDone r s t) :
    t.reads = s.reads ++ [(.asyncRead, r)] := by
  rw [Session.reads, h.log, List.filterMap_append]
  rfl

theorem Call.record_reading {c : Call η} {held : List UInt8} {op : Search}
    (h : c.op = .reading held op) : c.record =
      some (asyncReadCompletes held op ⟨c.before.turns, c.before.buf, c.before.response⟩).1 := by
  rw [Call.record, h]

theorem Call.after_read (handle : η → Bool → Nat → Session η → Session η) {c : Call η}
    {r : ReadRecord} (h : c.record = some r) :
    ∃ t, ReadDone r c.before t ∧
      c.after handle = (handle c.handler r.ec r.count t).consume r.count := by
  obtain ⟨op, handler, s⟩ := c
  cases op with
  | writing op => cases h
  | reading held op =>
    obtain rfl := Option.some.inj h
    refine ⟨_, ?_, rfl⟩
    refine ⟨rfl, rfl, rfl, rfl, ?_, rfl⟩
    exact written_didRead .asyncRead (asyncReadCompletes held op ⟨s.turns, s.buf, s.response⟩).1
      (asyncReadCompletes held op ⟨s.turns, s.buf, s.response⟩).2 s

theorem Call.ec_read {c : Call η} {r : ReadRecord} (h : c.record = some r) : c.ec = r.ec := by
  obtain ⟨op, handler, s⟩ := c
  cases op with
  | writing op => cases h
  | reading held op =>
    obtain rfl := Option.some.inj h
    rfl

/-- The state `t` in which a handler is called behind the write `op`, which has completed in `s`. -/
structure WriteDone (op : Writing) (s t : Session η) : Prop where
  pending : t.pending = s.pending
  thrown : t.thrown = s.thrown
  buf : t.buf = s.buf
  response : t.response = s.response
  chained : s.Chained → t.Chained
  written : t.written = s.written ++ (asyncWriteCompletes op s.puts).sent
  log : t.log = s.log ++ [.sent (asyncWriteCompletes op s.puts).sent]

theorem Call.after_write (handle : η → Bool → Nat → Session η → Session η) {c : Call η}
    {op : Writing} (h : c.op = .writing op) :
    ∃ t, WriteDone op c.before t ∧
      c.after handle =
        handle c.handler c.ec (asyncWriteCompletes op c.before.puts).count t := by
  obtain ⟨op', handler, s⟩ := c
  obtain rfl : op' = .writing op := h
  refine ⟨_, ?_, rfl⟩
  refine ⟨rfl, rfl, rfl, rfl, fun hs => hs.of_eq ?_ rfl, ?_, rfl⟩
  · simp [reads, List.filterMap_append]
  · simp [written]

/-- The call `c` is the completion of a write of `bytes` that has been started in `s`. -/
structure Writes (bytes : List UInt8) (s : Session η) (c : Call η) : Prop where
  op : c.op = .writing (Asio.asyncWrite bytes s.puts).1
  puts : c.before.puts = (Asio.asyncWrite bytes s.puts).2.2
  written : c.before.written = s.written ++ (Asio.asyncWrite bytes s.puts).2.1

/-- A write that ends well has written its bytes exactly when its memory was intact. -/
theorem Writes.written_iff {bytes : List UInt8} {s t : Session η} {c : Call η}
    (h : Writes bytes s c) (hc : c.ec = false)
    (ht : WriteDone (Asio.asyncWrite bytes s.puts).1 c.before t) :
    t.written = s.written ++ bytes ↔ c.Intact bytes := by
  have hec : (asyncWriteCompletes (Asio.asyncWrite bytes s.puts).1
      (Asio.asyncWrite bytes s.puts).2.2).ec = false := by
    rw [← h.puts, ← hc, Call.ec, h.op]
  have hintact : c.Intact bytes ↔
      Asio.Intact bytes (Asio.asyncWrite bytes s.puts).1 (Asio.asyncWrite bytes s.puts).2.2 := by
    rw [Call.Intact, h.op, h.puts]
  rw [ht.written, h.written, h.puts, List.append_assoc, List.append_cancel_left_eq, hintact,
    asyncWrite_intact hec]

theorem written_execute {command : Request} {s : Session η} (h : (execute command s).1 = some 0) :
    (execute command s).2.written = s.written ++ toString command := by
  have hpassed := execute_goes_on.mp h
  rw [Exchange.failed, Bool.or_eq_false_iff] at hpassed
  have hsent : (⟨command, s⟩ : Exchange η).sent = toString command :=
    (write_sent (toString command) s.puts).2.mp hpassed.1
  simp [written, execute_log, hpassed.1, hsent]

/-! ## Programs that run the loop once -/

def looping (handle : η → Bool → Nat → Session η → Session η) (commands : List Request)
    (start : Session η → Session η) : Program η :=
  ⟨handle, .openPort :: commands.map command ++ [.start start, .run]⟩

/-- Behind the commands, and in front of the loop. -/
structure Ready (commands : List Request) (s : Session η) : Prop where
  pending : s.pending = none
  stopped : s.stopped = false
  thrown : s.thrown = false
  buf : s.buf = .new
  chained : s.Chained
  written : s.written = commands.flatMap toString

theorem ready_execute {past : List Request} {command : Request} {s : Session η} (hs : Ready past s)
    (h : (execute command s).1 = some 0) : Ready (past ++ [command]) (execute command s).2 := by
  obtain ⟨hstopped, _, hthrown, hpending⟩ := execute_frame command s
  refine ⟨hpending.trans hs.pending, hstopped.trans hs.stopped, hthrown.trans hs.thrown, ?_,
    (chained_execute command s hs.chained).1 h, ?_⟩
  · rw [← hs.buf]
    cases hec : (s.write command).1 with
    | true =>
      rw [execute_unwritten hec]
      rfl
    | false =>
      rw [execute_written hec]
      rfl
  · rw [written_execute h, hs.written, List.flatMap_append, List.flatMap_singleton]

theorem ready_commands (commands past : List Request) :
    Triple (Ready (η := η) past) (sequence (commands.map execute)) (Ready (past ++ commands))
      fun _ => True := by
  induction commands generalizing past with
  | nil => exact triple_nil.imp (fun _ h => h) (fun _ h => by rwa [List.append_nil]) fun _ h => h
  | cons command commands ih =>
    have hstep : Triple (Ready (η := η) past) (execute command) (Ready (past ++ [command]))
        fun _ => True := fun s hs => ⟨ready_execute hs, fun _ => trivial⟩
    apply triple_cons hstep
    rw [List.append_cons past command commands]
    exact ih (past ++ [command])

theorem ready_setup (commands : List Request) (port : Port) :
    Triple (fun s : Session η => s = .start port)
      (sequence (openPort port :: commands.map execute)) (Ready commands) fun _ => True := by
  refine triple_cons (Q := Ready []) ?_ (ready_commands commands [])
  rintro s rfl
  exact ⟨fun _ => ⟨rfl, rfl, rfl, rfl, chained_start port, rfl⟩, fun _ => trivial⟩

/-- A setup that does not go on returns -1. -/
theorem setup_status (commands : List Request) (port : Port) (s : Session η)
    (h : (sequence (openPort port :: commands.map execute) s).1 ≠ some 0) :
    (sequence (openPort port :: commands.map execute) s).1 = some (-1) := by
  have hstep : ∀ step ∈ openPort port :: commands.map execute, ∀ s : Session η,
      (step s).1 = some 0 ∨ (step s).1 = some (-1) := by
    rw [List.forall_mem_cons]
    constructor
    · intro s
      rw [openPort]
      split
      · exact Or.inl rfl
      · exact Or.inr rfl
    · intro step hstep s
      obtain ⟨msg, _, rfl⟩ := List.mem_map.mp hstep
      rw [execute_status]
      split
      · exact Or.inr rfl
      · exact Or.inl rfl
  exact (sequence_status (P := fun v => v = some 0 ∨ v = some (-1)) (Or.inl rfl) hstep
    s).resolve_left h

/-- A run of the program ends before the loop, or the loop is its last statement. -/
inductive Looped (p : Program η) (port : Port) (n : Nat) (commands : List Request)
    (start : Session η → Session η) : Prop where
  | ended (status : (p.run port n).1 = some (-1)) (calls : p.calls port n = [])
  | looped (s : Session η) (ready : Ready commands s)
      (run : p.run port n = Ringbeller.run p.handle n (start s))
      (calls : p.calls port n = Ringbeller.calls p.handle n (start s))
      (passed : ∀ x ∈ p.exchanges port n, x.failed = false)

section Looped
variable {p : Program η} {port : Port} {n : Nat} {statements : List (Statement η)} {s : Session η}

theorem calls_without_run (h : Statement.run ∉ statements) :
    (started (p.step port n) statements s).flatMap (fun x =>
      match x.1 with
      | .run => if x.2.stopped then [] else calls p.handle n x.2
      | _ => []) = [] := by
  apply List.flatMap_eq_nil_iff.mpr
  intro x hx
  obtain ⟨i, t⟩ := x
  obtain ⟨past, behind, hsplit, _⟩ := mem_started.mp hx
  cases i with
  | run => exact absurd (hsplit ▸ List.mem_append_right past List.mem_cons_self) h
  | openPort => rfl
  | execute f => rfl
  | start f => rfl

theorem exchangesFrom_passes (h : (sequence (statements.map (p.step port n)) s).1 = some 0) :
    ∀ x ∈ p.exchangesFrom port n statements s, x.failed = false := by
  intro x hx
  obtain ⟨⟨i, t⟩, hstarted, hexchange⟩ := List.mem_filterMap.mp hx
  cases i with
  | execute f =>
    obtain rfl := Option.some.inj hexchange
    exact execute_goes_on.mp (sequence_ok_iff.mp h _ hstarted)
  | openPort => cases hexchange
  | start f => cases hexchange
  | run => cases hexchange

/-- The loop that is started behind statements without one makes all the calls of the run. -/
theorem calls_behind {start : Session η → Session η} (hs : p.Reaches port n statements s)
    (hp : p.statements = statements ++ [.start start, .run]) (hnorun : Statement.run ∉ statements)
    (hstopped : (start s).stopped = false) : p.calls port n = calls p.handle n (start s) := by
  have hgo : (sequence (statements.map (p.step port n)) (.start port)).1 = some 0 :=
    congrArg Prod.fst hs
  have hloop : (if (start s).stopped = true then [] else calls p.handle n (start s)) =
      calls p.handle n (start s) := if_neg (by rw [hstopped]; exact Bool.false_ne_true)
  rw [Program.calls, hp, started_append, if_pos hgo, List.flatMap_append,
    calls_without_run hnorun, List.nil_append, hs, started_go rfl, started_singleton]
  exact (List.append_nil _).trans hloop

theorem looping_looped (handle : η → Bool → Nat → Session η → Session η) (commands : List Request)
    (start : Session η → Session η) (hstart : ∀ s, (start s).stopped = s.stopped) (port : Port)
    (n : Nat) : Looped (looping handle commands start) port n commands start := by
  obtain ⟨p, hp⟩ : ∃ p, looping handle commands start = p := ⟨_, rfl⟩
  have hstatements : p.statements =
      (.openPort :: commands.map command) ++ [.start start, .run] := by
    rw [← hp]
    rfl
  have hnorun : Statement.run ∉ (.openPort :: commands.map command : List (Statement η)) := by
    simp [command]
  have hsteps : (.openPort :: commands.map command).map (p.step port n) =
      openPort port :: commands.map execute := by
    rw [List.map_cons, List.map_map]
    rfl
  rw [hp]
  by_cases hreaches : ∃ s, p.Reaches port n (.openPort :: commands.map command) s
  · obtain ⟨s, hs⟩ := hreaches
    have hsetup : sequence (openPort port :: commands.map execute) (.start port) = (some 0, s) := by
      rw [← hsteps]
      exact hs
    have hready : Ready commands s := by
      have h := (ready_setup commands port (.start port) rfl).1 (congrArg Prod.fst hsetup)
      rwa [hsetup] at h
    have hgo : (sequence ((.openPort :: commands.map command).map (p.step port n))
        (.start port)).1 = some 0 := congrArg Prod.fst hs
    refine .looped s hready ?_ ?_ ?_
    · rw [hs.run hstatements, List.map_cons, sequence_go rfl, List.map_singleton,
        sequence_singleton]
      rfl
    · exact calls_behind hs hstatements hnorun ((hstart s).trans hready.stopped)
    · rw [hs.exchanges hstatements, List.forall_mem_append]
      refine ⟨exchangesFrom_passes hgo, ?_⟩
      rw [Program.exchangesFrom_start, Program.exchangesFrom_last]
      exact fun x hx => (List.not_mem_nil hx).elim
  · have hno : ∀ s, ¬ p.Reaches port n (.openPort :: commands.map command) s := fun s h =>
      hreaches ⟨s, h⟩
    have hstop : (sequence ((.openPort :: commands.map command).map (p.step port n))
        (.start port)).1 ≠ some 0 := fun h0 => hno _ (Prod.ext h0 rfl)
    refine .ended ?_ ?_
    · rw [(Program.run_of_not_reaches hno hstatements).1]
      rw [hsteps] at hstop ⊢
      exact setup_status commands port _ hstop
    · rw [Program.calls, hstatements, started_append, if_neg hstop, List.append_nil,
        calls_without_run hnorun]

end Looped

end Ringbeller
