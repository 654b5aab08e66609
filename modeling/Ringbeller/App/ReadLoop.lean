import Ringbeller.App.Session
import Ringbeller.Lib.Chunking

/-!
# The re-armed read

A handler that consumes the count and starts the next `async_read`. By the time the lambda
of the first read consumes the count once more, the next search has been made.
-/

namespace Ringbeller
set_option autoImplicit false

open Asio

/-- What the waiting handlers have in common. -/
def rearm : Unit → Bool → Nat → Session Unit → Session Unit
  | (), ec, rb, s => if ec then s else (s.consume rb).asyncRead ()

/-- The loop after `n` completions of its reads. -/
def readLoop (turns : List (Turn UInt8)) (n : Nat) : Session Unit :=
  (Session.dispatch rearm n ((Session.start ⟨true, turns, []⟩).asyncRead ())).2

/-- The codes with which the handler has been called, errors apart. -/
def handled (s : Session Unit) : List ResultCode :=
  (s.reads.filter fun r => !r.2.ec).map fun r => r.2.after.rc

/-- The message comes in chunks of its own, and what the area behind the last of them holds
is rejected at its first byte. -/
structure Separate (f : FinalCode) (as : List (Arrival UInt8)) : Prop where
  whole : bytes as = f.message.bytes
  quiet : ∀ a, as.getLast? = some a →
    matchCondition (a.spare.take f.message.bytes.length) =
      (a.spare.take f.message.bytes.length, false)

/-- Between two messages: nothing is held, and the pending read searches from the front. -/
structure Waiting (s : Session Unit) (turns : List (Turn UInt8)) (codes : List ResultCode) :
    Prop where
  turns : s.turns = turns
  data : s.buf.data = []
  pending : ∃ held, s.pending = some (.reading held (.searching 0), ())
  handled : handled s = codes

theorem reads_rearm (handler : Unit) (ec : Bool) (n : Nat) (s : Session Unit) :
    (rearm handler ec n s).reads = s.reads := by
  cases ec <;> simp [rearm]

theorem search_rejected_at_front {x : List UInt8} (h : matchCondition x = (x, false)) :
    search matchCondition 0 x = .searching 0 := by
  rw [search_rejected (by rw [h]), h, Nat.sub_self]

theorem waiting_step {s : Session Unit} {f : FinalCode} {as : List (Arrival UInt8)}
    {rest : List (Turn UInt8)} {codes : List ResultCode}
    (hs : Waiting s (as.map .received ++ rest) codes) (hf : Separate f as) (held : List UInt8) :
    Waiting (Session.complete rearm (.reading held (.searching 0)) () { s with pending := none })
      rest (codes ++ [f.code]) := by
  obtain ⟨turns, puts, ⟨data, area⟩, response, usbCfg, pending, stopped, thrown, log⟩ := s
  obtain ⟨hturns, hdata, _, hcodes⟩ := hs
  simp only at hturns hdata
  subst hturns hdata
  obtain ⟨last, hlast, hstop⟩ :=
    readUntil_own_chunks hf.whole (code_cutBeforeStop hf.whole) area rest
  have hquiet := hf.quiet last hlast
  generalize hn : f.message.bytes.length = n at hstop hquiet
  have hafter : (deliver held ⟨false, n, ⟨f.message.bytes, last.spare⟩, rest, as⟩
      response).1.after = f.message.addTo response :=
    deliver_message (w := []) (by simp) rest as response
  have hfinish : asyncReadCompletes held (.searching 0)
      ⟨as.map .received ++ rest, ⟨[], area⟩, response⟩ =
        deliver held ⟨false, n, ⟨f.message.bytes, last.spare⟩, rest, as⟩ response :=
    congrArg (deliver held · response) hstop
  -- the second commit puts the area behind the message, and that is all the handler leaves
  have hleft : (f.message.bytes ++ last.spare.take n).drop n = last.spare.take n := by
    rw [← hn, List.drop_left]
  have hnone : (last.spare.take n).drop n = [] :=
    List.drop_eq_nil_of_le (List.length_take_le n last.spare)
  refine ⟨?_, ?_, ⟨last.spare.take n, ?_⟩, ?_⟩
  · simp only [Session.complete, hfinish]
    rfl
  · simp [Session.complete, hfinish, rearm, Session.consume, Session.asyncRead, deliver,
      Streambuf.commit, Streambuf.consume, hleft, hnone]
  · simp [Session.complete, hfinish, rearm, Session.consume, Session.asyncRead, deliver,
      Streambuf.commit, Streambuf.consume, hleft, Ringbeller.asyncRead,
      search_rejected_at_front hquiet]
  · rw [← hcodes]
    have hrc : (deliver held ⟨false, n, ⟨f.message.bytes, last.spare⟩, rest, as⟩
        response).1.after.rc = f.code := by rw [hafter]; rfl
    rw [handled, Session.reads_complete_reading reads_rearm, hfinish]
    simp only [List.filter_append, List.map_append]
    rw [List.filter_cons_of_pos rfl, List.map_cons, hrc]
    rfl

theorem waiting_closed {s : Session Unit} {codes : List ResultCode} (hs : Waiting s [] codes)
    (held : List UInt8) :
    let s' := Session.complete rearm (.reading held (.searching 0)) () { s with pending := none }
    s'.pending = none ∧ handled s' = codes := by
  obtain ⟨turns, puts, ⟨data, area⟩, response, usbCfg, pending, stopped, thrown, log⟩ := s
  obtain ⟨hturns, hdata, _, hcodes⟩ := hs
  simp only at hturns hdata
  subst hturns hdata
  refine ⟨rfl, ?_⟩
  rw [← hcodes, handled, Session.reads_complete_reading reads_rearm, List.filter_append,
    List.filter_cons_of_neg (by simp [asyncReadCompletes, deliver, finish]), List.filter_nil,
    List.append_nil]
  rfl

theorem waiting_run {s : Session Unit} {fs : List FinalCode}
    {groups : List (List (Arrival UInt8))} {codes : List ResultCode}
    (hg : List.Forall₂ Separate fs groups)
    (hs : Waiting s (groups.flatten.map .received) codes) (n : Nat) :
    handled (Session.dispatch rearm n s).2 = codes ++ (fs.take n).map FinalCode.code := by
  induction hg generalizing s codes n with
  | nil =>
    cases n with
    | zero => simpa [Session.dispatch] using hs.handled
    | succ n =>
      obtain ⟨held, hpending⟩ := hs.pending
      obtain ⟨hnone, hcodes⟩ := waiting_closed hs held
      simp only [Session.dispatch, hpending]
      cases n <;> simp [Session.dispatch, hnone, hcodes]
  | @cons f as fs groups hf _ ih =>
    cases n with
    | zero => simpa [Session.dispatch] using hs.handled
    | succ n =>
      obtain ⟨held, hpending⟩ := hs.pending
      rw [List.flatten_cons, List.map_append] at hs
      have hstep := waiting_step hs hf held
      simp only [Session.dispatch, hpending]
      rw [ih hstep n]
      simp

/-- A run of the loop over messages that come in chunks of their own, with nothing behind
them in the prepared area that could begin a message: after any number of completions the
handler has been called once for each message so far, in order and with its code. -/
theorem readLoop_once_each (fs : List FinalCode) (arrivals : List (Arrival UInt8))
    (h : ∃ groups, arrivals = groups.flatten ∧ List.Forall₂ Separate fs groups) (n : Nat) :
    handled (readLoop (arrivals.map .received) n) = (fs.take n).map FinalCode.code := by
  obtain ⟨groups, rfl, hg⟩ := h
  have hwaiting : Waiting (readLoop (groups.flatten.map .received) 0)
      (groups.flatten.map .received) [] := ⟨rfl, rfl, ⟨[], rfl⟩, rfl⟩
  exact waiting_run hg hwaiting n

/-- Two messages in one chunk: the second one is consumed before its handler is called. -/
theorem readLoop_two_in_one_chunk :
    let ok : FinalCode := ⟨.ok, [], by decide, by decide, by decide⟩
    let both : Arrival UInt8 :=
      ⟨ascii "\r\nOK\r\n\r\nOK\r\n", List.replicate 500 0, by decide⟩
    bytes [both] = ok.message.bytes ++ ok.message.bytes ∧
      handled (readLoop [.received both] 5) ≠ [ok.code, ok.code] := by
  decide

theorem readLoop_once_each_ring :
    let first : Arrival UInt8 := ⟨ascii "\r\nRI", [], by decide⟩
    let second : Arrival UInt8 := ⟨ascii "NG\r\n", [0, 0], by decide⟩
    let third : Arrival UInt8 := ⟨ascii "\r\nOK\r\n", [], by decide⟩
    handled (readLoop ([first, second, third].map .received) 2) = [.ring, .ok] :=
  readLoop_once_each [⟨.ring, [], by decide, by decide, by decide⟩,
      ⟨.ok, [], by decide, by decide, by decide⟩] _
    ⟨[[⟨ascii "\r\nRI", [], by decide⟩, ⟨ascii "NG\r\n", [0, 0], by decide⟩],
        [⟨ascii "\r\nOK\r\n", [], by decide⟩]], rfl,
      .cons ⟨by decide, by rintro _ ⟨⟩; decide⟩
        (.cons ⟨by decide, by rintro _ ⟨⟩; decide⟩ .nil)⟩ 2

end Ringbeller
