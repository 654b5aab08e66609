import Ringbeller.App.AtCops
import Ringbeller.App.Calls
import Ringbeller.Asio.WriteAgain
import Ringbeller.Lib.AsyncWrite

/-!
# Asking for the operator, as an exchange

`run_at_cops` writes and reads asynchronously what `execute` would write and read.
-/

namespace Ringbeller
set_option autoImplicit false

open Asio Script Session

namespace AtCops

/-- The same request in an exchange. -/
def executed (port : Port) : Option Int × Session Handler :=
  sequence [openPort port, execute makeAtCopsRead] (.start port)

theorem toString_ne_nil (msg : Request) : toString msg ≠ [] := by
  simp [toString, ascii]

/-- Two runs have read the same and have left the same of the port. -/
structure Alike (s t : Session Handler) : Prop where
  records : s.records = t.records
  response : s.response = t.response
  turns : s.turns = t.turns
  puts : s.puts = t.puts

/-- The state behind the call of the write handler. -/
def writtenSession (port : Port) : Session Handler :=
  let started := asyncWrite makeAtCopsRead port.puts
  let w := asyncWriteCompletes started.1 started.2.2
  { (.start port : Session Handler) with
    puts := w.puts
    log := [.sent started.2.1, .sent w.sent] }

theorem complete_write (port : Port) :
    let started := asyncWrite makeAtCopsRead port.puts
    let w := asyncWriteCompletes started.1 started.2.2
    complete handle (.writing started.1) .writeHandler
        { ((.start port : Session Handler).asyncWrite makeAtCopsRead .writeHandler) with
          pending := none } =
      if w.ec then writtenSession port else (writtenSession port).asyncRead .readHandler := rfl

/-- The state behind the exchange or the loop, when the write has not failed. -/
structure ReadOnce (port : Port) (s t : Session Handler) : Prop where
  records : t.records = s.records ++ [(read ⟨port.turns, .new, Response.new⟩).1]
  response : t.response = (read ⟨port.turns, .new, Response.new⟩).1.after
  turns : t.turns = (read ⟨port.turns, .new, Response.new⟩).2.turns
  puts : t.puts = s.puts
  written : t.written = s.written

theorem ReadOnce.alike {port : Port} {s s' t t' : Session Handler} (h : ReadOnce port s t)
    (h' : ReadOnce port s' t') (hrecords : s.records = s'.records) (hputs : s.puts = s'.puts) :
    Alike t t' := by
  constructor
  · rw [h.records, h'.records, hrecords]
  · rw [h.response, h'.response]
  · rw [h.turns, h'.turns]
  · rw [h.puts, h'.puts, hputs]

theorem readOnce_didRead (port : Port) (reader : Reader) {s t : Session Handler}
    (hreads : t.reads =
      s.reads ++ [(reader, (firstAsyncRead ⟨port.turns, .new, Response.new⟩).1)])
    (hresponse : t.response = (firstAsyncRead ⟨port.turns, .new, Response.new⟩).2.msg)
    (hturns : t.turns = (firstAsyncRead ⟨port.turns, .new, Response.new⟩).2.turns)
    (hputs : t.puts = s.puts) (hwritten : t.written = s.written) : ReadOnce port s t := by
  refine ⟨?_, hresponse, hturns, hputs, hwritten⟩
  rw [records, hreads, List.map_append]
  rfl

theorem atCops_quiet : Quiet handle := by
  intro handler ec n s
  cases handler with
  | readHandler => exact ⟨rfl, rfl⟩
  | writeHandler =>
    simp only [handle]
    split <;> simp

theorem complete_read (port : Port) :
    let s := writtenSession port
    let t := complete handle (.reading s.buf.data (Ringbeller.asyncRead s.buf)) .readHandler
      { s.asyncRead .readHandler with pending := none }
    t.pending = none ∧ t.thrown = false ∧ ReadOnce port s t := by
  intro s t
  refine ⟨rfl, rfl, readOnce_didRead port .asyncRead ?_ rfl rfl rfl ?_⟩
  · exact reads_complete_reading (fun handler ec n s => (atCops_quiet handler ec n s).1) s.buf.data
      (Ringbeller.asyncRead s.buf) .readHandler _
  · exact written_didRead .asyncRead _ (firstAsyncRead ⟨port.turns, .new, Response.new⟩).2 s

/-- The loop from the write on. -/
theorem loop_ends (port : Port) (n : Nat) :
    ∃ t, Session.dispatch handle (n + 2)
        ((.start port : Session Handler).asyncWrite makeAtCopsRead .writeHandler) = (true, t) ∧
      ((write makeAtCopsRead port.puts).ec = true → t = writtenSession port) ∧
      ((write makeAtCopsRead port.puts).ec = false → ReadOnce port (writtenSession port) t) := by
  have hec := (asyncWrite_write (toString_ne_nil makeAtCopsRead) port.puts).1
  have hwrite := complete_write port
  obtain ⟨s, hs⟩ : ∃ s,
      (.start port : Session Handler).asyncWrite makeAtCopsRead .writeHandler = s := ⟨_, rfl⟩
  have hpending : s.pending =
      some (.writing (asyncWrite makeAtCopsRead port.puts).1, .writeHandler) := by
    rw [← hs]
    rfl
  simp only [hs] at hwrite
  rw [hs, dispatch, hpending]
  simp only [hwrite]
  cases h : (write makeAtCopsRead port.puts).ec with
  | true =>
    have hfailed : (asyncWriteCompletes (asyncWrite makeAtCopsRead port.puts).1
        (asyncWrite makeAtCopsRead port.puts).2.2).ec = true := hec.trans h
    rw [if_pos hfailed, (loop_idle handle rfl (n + 1)).2]
    exact ⟨_, rfl, fun _ => rfl, fun hno => absurd hno.symm Bool.false_ne_true⟩
  | false =>
    have hpassed : (asyncWriteCompletes (asyncWrite makeAtCopsRead port.puts).1
        (asyncWrite makeAtCopsRead port.puts).2.2).ec = false := hec.trans h
    obtain ⟨hnone, hthrown, hread⟩ := complete_read port
    rw [if_neg (ne_true_of_eq_false hpassed), dispatch]
    simp only [Session.asyncRead] at hnone hthrown hread ⊢
    rw [(loop_idle handle hnone n).2, hthrown]
    exact ⟨_, rfl, fun hno => absurd hno Bool.false_ne_true, fun _ => hread⟩

/-- The runs of `run_at_cops` and of the exchange, wherever the port fails: they read the same, with
the same effect, and have the same left of the port. They write the same exactly when the memory of
the request has outlived it. -/
theorem atCops_executes (port : Port) (n : Nat) :
    Alike (runAtCops port (n + 2)).2 (executed port).2 ∧
      ((runAtCops port (n + 2)).2.written = (executed port).2.written ↔
        port.opens = false ∨ (Sending.request makeAtCopsRead).Outlives port.puts) := by
  cases hopens : port.opens with
  | false =>
    have ha : runAtCops port (n + 2) = (some (-1), .start port) := by
      rw [runAtCops, sequence_stop (by simp [openPort, hopens])]
      simp [openPort, hopens]
    have he : executed port = (some (-1), .start port) := by
      rw [executed, sequence_stop (by simp [openPort, hopens])]
      simp [openPort, hopens]
    rw [ha, he]
    exact ⟨⟨rfl, rfl, rfl, rfl⟩, fun _ => Or.inl rfl, fun _ => rfl⟩
  | true =>
    have hgo : openPort port (.start port : Session Handler) = (some 0, .start port) := by
      simp [openPort, hopens]
    obtain ⟨t, hloop, hfailed, hpassed⟩ := loop_ends port n
    have ha : (runAtCops port (n + 2)).2 = { t with stopped := true } := by
      rw [runAtCops, sequence_go (congrArg Prod.fst hgo), hgo, sequence_go rfl, sequence_singleton]
      simp only [does, run, hloop]
      rfl
    have he : executed port = execute makeAtCopsRead (.start port) := by
      rw [executed, sequence_go (congrArg Prod.fst hgo), hgo, sequence_singleton]
    obtain ⟨_, _, hputs, hsent⟩ := asyncWrite_write (toString_ne_nil makeAtCopsRead) port.puts
    obtain ⟨w, hw⟩ : ∃ w, ((.start port : Session Handler).write makeAtCopsRead).2 = w := ⟨_, rfl⟩
    have hwputs : (writtenSession port).puts = w.puts := by
      rw [← hw]
      exact hputs
    have hwritten : (writtenSession port).written = w.written ↔
        (Sending.request makeAtCopsRead).Outlives port.puts := by
      have hbytes : (writtenSession port).written =
          (asyncWrite makeAtCopsRead port.puts).2.1 ++ (asyncWriteCompletes
            (asyncWrite makeAtCopsRead port.puts).1
            (asyncWrite makeAtCopsRead port.puts).2.2).sent := by
        simp [writtenSession, written]
      have hsync : w.written = (write makeAtCopsRead port.puts).sent := by
        rw [← hw]
        exact List.append_nil _
      rw [hbytes, hsync, Sending.outlives_iff]
      exact hsent
    rw [ha, he, Bool.true_eq_false, false_or, ← hwritten]
    cases hec : (write makeAtCopsRead port.puts).ec with
    | true =>
      rw [execute_unwritten (s := (.start port : Session Handler)) hec, hw, hfailed hec]
      refine ⟨⟨?_, ?_, ?_, hwputs⟩, Iff.rfl⟩
      · rw [← hw]
        rfl
      · rw [← hw]
        rfl
      · rw [← hw]
        rfl
    | false =>
      have hasync := hpassed hec
      have hsync : ReadOnce port w (execute makeAtCopsRead (.start port : Session Handler)).2 := by
        rw [execute_written (s := (.start port : Session Handler)) hec, hw]
        have hdone := readOnce_didRead port .execute (s := w)
          (t := w.didRead .execute (read ⟨port.turns, .new, Response.new⟩).1
            (read ⟨port.turns, .new, Response.new⟩).2) (reads_didRead _ _ _ _) rfl rfl rfl
          (written_didRead _ _ _ _)
        exact hdone
      have hrecords : (writtenSession port).records = w.records := by
        rw [← hw]
        rfl
      have halike := hasync.alike hsync hrecords hwputs
      refine ⟨⟨halike.records, halike.response, halike.turns, halike.puts⟩, ?_⟩
      rw [hsync.written, ← hasync.written]
      exact Iff.rfl

end AtCops

end Ringbeller
