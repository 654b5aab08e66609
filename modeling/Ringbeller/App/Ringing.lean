import Ringbeller.App.CallScripts
import Ringbeller.Asio.Retries

/-!
# Waiting for a call

The event loop of `run_receive_vcall` has run out of work once, while it waited for +QCFG. The
second `ios.run()` returns at once, and the read that waits for the call never completes.
-/

namespace Ringbeller
set_option autoImplicit false

open Asio Script

namespace VoiceCall

def ring : List UInt8 := ascii "\r\nRING\r\n"

/-- The messages that a stream brings, however they are cut into chunks. -/
structure Incoming (turns : List (Turn UInt8)) where
  messages : List (List UInt8)
  bytes_eq : messages.flatten = bytes (arrivals turns)

/-- What happens in the waiting phase: one ATA for each RING among the messages, and AT+QPCMV=0 only
behind a failed read of the loop. -/
structure AnswersCalls (messages : List (List UInt8)) (events : List Event) : Prop where
  answered : events.count (.sent (toString makeAta)) = messages.count ring
  switchedOff : ∀ past behind, events = past ++ .sent (toString switchOff) :: behind →
    ∃ r : ReadRecord, .read .asyncRead r ∈ past ∧ r.ec = true

/-- What a run has done behind the setup. -/
def afterSetup (port : Port) (n : Nat) : List Event :=
  (runReceiveVcall port n).2.log.drop
    (sequence (configure port n) (.start port)).2.log.length

theorem setup_stopped {port : Port} {n : Nat}
    (h : (sequence (configure port n) (.start port)).1 = some 0) :
    (sequence (configure port n) (.start port)).2.stopped = true := by
  have hreaches : receiveProgram.Reaches port n (query ++ answer.take 3)
      (sequence (configure port n) (.start port)).2 := Prod.ext h rfl
  obtain ⟨s, hs, ht⟩ := hreaches.before
  have hwait : receiveProgram.Reaches port n (query.dropLast ++ [.run]) s := hs
  have hexecutes : Triple (fun t : Session Handler => t.stopped = true)
      (sequence ((answer.take 3).map (receiveProgram.step port n)))
      (fun t => t.stopped = true) fun t => t.stopped = true := triple_all fun step hstep => by
    obtain ⟨i, hi, rfl⟩ := List.mem_map.mp hstep
    have hi : ∃ f, i = .execute f := by
      simp only [answer, command, List.take_succ_cons, List.take_zero, List.mem_cons,
        List.not_mem_nil, or_false] at hi
      rcases hi with rfl | rfl | rfl <;> exact ⟨_, rfl⟩
    obtain ⟨f, rfl⟩ := hi
    exact triple_of_keeps fun t ht => (execute_frame (f t) t).1.trans ht
  have hstopped := hexecutes.holds hwait.stopped
  rwa [ht] at hstopped

theorem runReceiveVcall_setup {port : Port} {n : Nat}
    (h : (sequence (configure port n) (.start port)).1 = some 0) :
    runReceiveVcall port n = execute switchOff
      ((sequence (configure port n) (.start port)).2.asyncRead .callReadHandler) := by
  have hrun : run handle n
      ((sequence (configure port n) (.start port)).2.asyncRead .callReadHandler) =
        (some 0, (sequence (configure port n) (.start port)).2.asyncRead .callReadHandler) :=
    if_pos (setup_stopped h)
  rw [runReceiveVcall, sequence_append h, sequence_go (by rfl), sequence_go, sequence_singleton]
  · exact congrArg (fun r => execute switchOff r.2) hrun
  · exact congrArg Prod.fst hrun

/-- The events of the waiting phase are those of the last exchange. -/
theorem afterSetup_eq {port : Port} {n : Nat}
    (h : (sequence (configure port n) (.start port)).1 = some 0) :
    ∃ more, afterSetup port n =
        .sent (Ringbeller.write switchOff
          (sequence (configure port n) (.start port)).2.puts).sent :: more ∧
      ∀ e ∈ more, ∃ r, e = .read .execute r := by
  rw [afterSetup, runReceiveVcall_setup h, execute_log]
  refine ⟨_, List.drop_left, fun e he => ?_⟩
  split at he
  · cases he
  · exact ⟨_, List.mem_singleton.mp he⟩

/-- In every run of `run_receive_vcall` that has completed its setup, whatever arrives then: the
calls are answered as they should be exactly when none comes and the last command cannot be
written. -/
theorem answersCalls_iff (port : Port) (n : Nat)
    (hsetup : (sequence (configure port n) (.start port)).1 = some 0)
    (incoming : Incoming (sequence (configure port n) (.start port)).2.turns) :
    AnswersCalls incoming.messages (afterSetup port n) ↔ ring ∉ incoming.messages ∧
      ((sequence (configure port n) (.start port)).2.write switchOff).1 = true := by
  obtain ⟨more, hevents, hmore⟩ := afterSetup_eq hsetup
  obtain ⟨hbegins, hall⟩ := write_sent (toString switchOff)
    (sequence (configure port n) (.start port)).2.puts
  have hsent : ∀ line, .sent line ∈ more → False := by
    intro line hline
    obtain ⟨r, hr⟩ := hmore _ hline
    cases hr
  have hcount : (afterSetup port n).count (.sent (toString makeAta)) = 0 := by
    rw [hevents, List.count_eq_zero]
    intro hmem
    rcases List.mem_cons.mp hmem with hata | hata
    · have hline : (Asio.write (toString switchOff) _).sent = toString makeAta :=
        (Event.sent.inj hata).symm
      rw [hline] at hbegins
      exact absurd hbegins (by decide)
    · exact hsent _ hata
  have hring : 0 = incoming.messages.count ring ↔ ring ∉ incoming.messages := by
    rw [eq_comm, List.count_eq_zero]
  constructor
  · intro hanswers
    refine ⟨hring.mp (hcount ▸ hanswers.answered), ?_⟩
    by_contra hec
    have hline := hall.mp (Bool.not_eq_true _ ▸ hec)
    rw [Ringbeller.write, hline] at hevents
    obtain ⟨r, hr, _⟩ := hanswers.switchedOff [] more hevents
    exact List.not_mem_nil hr
  · intro h
    obtain ⟨hnone, hec⟩ := h
    refine ⟨hcount.trans (hring.mpr hnone), fun past behind heq => ?_⟩
    rw [hevents] at heq
    cases past with
    | nil =>
      have hline : (Ringbeller.write switchOff _).sent = toString switchOff :=
        Event.sent.inj (List.cons.inj heq).1
      have hok := hall.mpr hline
      exact absurd (hok.symm.trans hec) Bool.false_ne_true
    | cons e past =>
      rw [List.cons_append] at heq
      obtain ⟨_, hrest⟩ := List.cons.inj heq
      exact (hsent (toString switchOff) (by rw [hrest]; simp)).elim

/-- One call comes and is not answered. -/
theorem answersCalls_not :
    let ok : Arrival UInt8 := ⟨ascii "\r\nOK\r\n", [], by decide⟩
    let urc : Arrival UInt8 := ⟨ascii "\r\n+QCFG: 0\r\n", [], by decide⟩
    let call : Arrival UInt8 := ⟨ring, [], by decide⟩
    let port : Port := ⟨true, [.received ok, .received urc, .received ok, .received ok,
      .received ok, .received call], List.replicate 9 (.accepted 100 [])⟩
    (sequence (configure port 1) (.start port)).1 = some 0 ∧
      ∃ incoming : Incoming (sequence (configure port 1) (.start port)).2.turns,
        incoming.messages = [ring] ∧ ¬ AnswersCalls incoming.messages (afterSetup port 1) := by
  intro ok urc call port
  obtain ⟨incoming, hmessages⟩ :
      ∃ incoming : Incoming (sequence (configure port 1) (.start port)).2.turns,
        incoming.messages = [ring] := ⟨⟨[ring], by decide⟩, rfl⟩
  refine ⟨by decide, incoming, hmessages, fun h => ?_⟩
  have hcount : (afterSetup port 1).count (.sent (toString makeAta)) = 0 := by decide
  have hanswered := h.answered
  rw [hcount, hmessages, List.count_singleton_self] at hanswered
  cases hanswered

theorem answersCalls_iff_unwritten :
    let ok : Arrival UInt8 := ⟨ascii "\r\nOK\r\n", [], by decide⟩
    let urc : Arrival UInt8 := ⟨ascii "\r\n+QCFG: 0\r\n", [], by decide⟩
    let other : Arrival UInt8 := ⟨ascii "\r\nNO CARRIER\r\n", [], by decide⟩
    let port : Port := ⟨true, [.received ok, .received urc, .received ok, .received ok,
      .received ok, .received other], List.replicate 4 (.accepted 100 [])⟩
    AnswersCalls [ascii "\r\nNO CARRIER\r\n"] (afterSetup port 1) := by
  intro ok urc other port
  have hsetup : (sequence (configure port 1) (.start port)).1 = some 0 := by decide
  have hunwritten : ((sequence (configure port 1) (.start port)).2.write switchOff).1 = true := by
    decide
  obtain ⟨incoming, hmessages⟩ :
      ∃ incoming : Incoming (sequence (configure port 1) (.start port)).2.turns,
        incoming.messages = [ascii "\r\nNO CARRIER\r\n"] := ⟨⟨[_], by decide⟩, rfl⟩
  rw [← hmessages]
  refine (answersCalls_iff port 1 hsetup incoming).mpr ⟨?_, hunwritten⟩
  rw [hmessages]
  decide

end VoiceCall

end Ringbeller
