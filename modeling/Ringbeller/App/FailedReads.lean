import Ringbeller.App.Session
import Ringbeller.Asio.Searches

/-!
# Failed reads

A read that ends with an error has still run its `commit` and `consume`. Both are of nothing:
the message is the old one, and the buffer has what had been received when the stream failed.
-/

namespace Ringbeller
set_option autoImplicit false

open Asio

/-- `async_read` to its end, with a handler that leaves the buffer alone, on a buffer that no lambda
of an earlier read touches while this one is pending. -/
def asyncReadToEnd (s : ReadState) : ReadRecord × ReadState :=
  let (r, s) := firstAsyncRead s
  (r, { s with buffer := s.buffer.consume r.count })

def readers : List (ReadState → ReadRecord × ReadState) := [read, asyncReadToEnd]

/-- The call has done nothing but receive: a later one goes on where it has stopped, as if one
call had received everything. -/
structure OnlyReceived (s : ReadState) (called : ReadRecord × ReadState) : Prop where
  msg : called.2.msg = s.msg
  data : called.2.buffer.data = s.buffer.data ++ called.1.received
  later : ∀ reader ∈ readers, ∀ turns msg,
    let whole := reader ⟨called.1.taken.map .received ++ turns, s.buffer, msg⟩
    let later := reader ⟨turns, called.2.buffer, msg⟩
    whole.1 = { later.1 with held := s.buffer.data, taken := called.1.taken ++ later.1.taken } ∧
      whole.2 = later.2

theorem readers_eq {reader : ReadState → ReadRecord × ReadState} (h : reader ∈ readers) :
    reader = read := by
  rcases List.mem_cons.mp h with rfl | h
  · rfl
  · obtain rfl := List.mem_singleton.mp h
    rfl

theorem read_failed {s : ReadState} (h : (read s).1.ec = true) :
    (read s).2.msg = s.msg ∧
      (read s).2.buffer = (readUntil matchCondition s.buffer s.turns).buf := by
  have hec : (readUntil matchCondition s.buffer s.turns).ec = true := h
  have hcount := (readUntil_unmatched matchCondition_resumable hec).count_eq
  constructor
  · simp only [read, deliver, hec, if_true]
  · simp only [read, deliver, hcount, Streambuf.commit_zero, Streambuf.consume_zero]

theorem onlyReceived_read {s : ReadState} (h : (read s).1.ec = true) : OnlyReceived s (read s) := by
  have hec : (readUntil matchCondition s.buffer s.turns).ec = true := h
  have hunmatched := readUntil_unmatched matchCondition_resumable hec
  obtain ⟨hmsg, hbuffer⟩ := read_failed h
  refine ⟨hmsg, ?_, fun reader hreader turns msg => ?_⟩
  · rw [hbuffer]
    exact (readUntil_taken matchCondition_resumable s.buffer s.turns).2
  · have hwhole := hunmatched.goes_on matchCondition_resumable turns
    have htaken : (read s).1.taken = (readUntil matchCondition s.buffer s.turns).taken := rfl
    rw [readers_eq hreader, htaken, hbuffer]
    simp only [read, hwhole]
    generalize readUntil matchCondition (readUntil matchCondition s.buffer s.turns).buf turns = o
    exact ⟨rfl, rfl⟩

/-- A read that fails, however much it has received, leaves the message as it was and only adds
what it has received to the buffer, while no lambda of an earlier read consumes from it. The same
holds of the read of `execute`, whose buffer ends with the call. -/
theorem failed_read_onlyReceived :
    (∀ s, ∀ reader ∈ readers, (reader s).1.ec = true → OnlyReceived s (reader s)) ∧
    ∀ {η : Type} (command : Request) (s : Session η), (s.write command).1 = false →
      (read ⟨s.turns, .new, s.response⟩).1.ec = true →
      OnlyReceived ⟨s.turns, .new, s.response⟩ (read ⟨s.turns, .new, s.response⟩) ∧
        (execute command s).1 = some (-1) ∧ (execute command s).2.response = s.response ∧
        (execute command s).2.buf = s.buf := by
  constructor
  · intro s reader hreader h
    obtain rfl := readers_eq hreader
    exact onlyReceived_read h
  · intro η command s hwritten h
    have hread := onlyReceived_read h
    refine ⟨hread, ?_⟩
    rw [execute_written hwritten, h]
    exact ⟨rfl, hread.msg, rfl⟩

/-- The stream fails inside a code; the rest of the code is read behind what has come of it. -/
theorem failed_read_onlyReceived_code :
    let early : Arrival UInt8 := ⟨ascii "\r\nO", [], by decide⟩
    let late : Arrival UInt8 := ⟨ascii "K\r\n", [], by decide⟩
    let failed := read ⟨[.received early, .failed], .new, .new⟩
    failed.1.ec = true ∧ failed.2.msg = .new ∧ failed.2.buffer.data = ascii "\r\nO" ∧
      (read ⟨[.received early, .received late], .new, .new⟩).2 =
        (read ⟨[.received late], failed.2.buffer, .new⟩).2 := by
  intro early late failed
  have h : OnlyReceived ⟨[.received early, .failed], .new, .new⟩ failed :=
    failed_read_onlyReceived.1 _ read List.mem_cons_self (by decide)
  have htaken : failed.1.taken = [early] := by decide
  have hlater := (h.later read List.mem_cons_self [.received late] .new).2
  rw [htaken] at hlater
  exact ⟨by decide, h.msg, by decide, hlater⟩

end Ringbeller
