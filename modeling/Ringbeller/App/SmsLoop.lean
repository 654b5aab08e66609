import Ringbeller.App.Calls

/-!
# Waiting for a short message

The handler of `run_receive_sms` looks at the first line of the whole response, and the response
holds the lines of every message that the run has read.
-/

namespace Ringbeller
set_option autoImplicit false

open Asio Script Session

namespace ReceiveSms

def received : Event := .printed (ascii "SMS received.")

def another : Event :=
  .printed (ascii ("Received message is not an unsolicited +CMT notification." ++
    " Waiting for another unsolicited message\n"))

/-- The own first line of the message begins with the marker. -/
def Notifies (r : ReadRecord) : Prop :=
  ∃ line, r.alone.body.head? = some line ∧ (ascii "+CMT:").IsPrefix line

/-- The state behind the handler call for a message, if that decides on the message alone. -/
structure Decides (r : ReadRecord) (s : Session Handler) : Prop where
  reports : Notifies r → s.pending = none ∧ s.log.getLast? = some received
  rearms : ¬ Notifies r → (∃ held op, s.pending = some (.reading held op, .readHandler)) ∧
    s.log.getLast? = some another

/-- What the handler makes of a message that is the last one read. -/
structure Loops (s : Session Handler) : Prop where
  pending : ∀ op handler, s.pending = some (op, handler) → ∃ held search, op = .reading held search
  reports : ∀ r, s.reads.getLast? = some (.asyncRead, r) → r.ec = false →
    frontMarked "+CMT:" s.response = true → s.pending = none ∧ s.log.getLast? = some received
  rearms : ∀ r, s.reads.getLast? = some (.asyncRead, r) → r.ec = false →
    frontMarked "+CMT:" s.response = false →
      (∃ held op, s.pending = some (.reading held op, .readHandler)) ∧
        s.log.getLast? = some another

theorem loops_unread {s : Session Handler} (hwaits : s.waits = [])
    (hpending : ∀ op handler, s.pending = some (op, handler) →
      ∃ held search, op = .reading held search) : Loops s := by
  have hnone : ∀ r, s.reads.getLast? ≠ some (.asyncRead, r) := by
    intro r hr
    have hmem : r ∈ s.waits := List.mem_filterMap.mpr ⟨_, List.mem_of_getLast? hr, rfl⟩
    rw [hwaits] at hmem
    cases hmem
  exact ⟨hpending, fun r hr => absurd hr (hnone r), fun r hr => absurd hr (hnone r)⟩

theorem handle_failed (n : Nat) (s : Session Handler) : handle .readHandler true n s = s := rfl

theorem handle_marked (n : Nat) {s : Session Handler}
    (h : frontMarked "+CMT:" s.response = true) :
    handle .readHandler false n s = (s.consume n).print "SMS received." := by
  simp [handle, h]

theorem handle_unmarked (n : Nat) {s : Session Handler}
    (h : frontMarked "+CMT:" s.response = false) :
    handle .readHandler false n s =
      ((s.consume n).print ("Received message is not an unsolicited +CMT notification." ++
        " Waiting for another unsolicited message\n")).asyncRead .readHandler := by
  simp [handle, h]

theorem loops_call {c : Call Handler} {r : ReadRecord} (hr : c.record = some r)
    (hnone : c.before.pending = none) : Loops (c.after handle) := by
  obtain ⟨t, ht, hafter⟩ := Call.after_read handle hr
  have hpending : t.pending = none := ht.pending.trans hnone
  have hlast : ∀ r', (c.after handle).reads.getLast? = some (.asyncRead, r') → r = r' := by
    intro r' h
    rw [hafter, reads_consume, (receiveSms_quiet c.handler r.ec r.count t).1, ht.reads,
      List.getLast?_concat] at h
    exact (Prod.mk.inj (Option.some.inj h)).2
  have hhandler : c.handler = .readHandler := by
    cases c.handler
    rfl
  rw [hhandler] at hafter
  cases hec : r.ec with
  | true =>
    rw [hec, handle_failed] at hafter
    have hfailed : ∀ r', (c.after handle).reads.getLast? = some (.asyncRead, r') →
        r'.ec ≠ false := by
      intro r' h hok
      rw [← hlast r' h, hec] at hok
      cases hok
    rw [hafter] at hfailed ⊢
    exact ⟨fun op handler hp => absurd (hpending.symm.trans hp) (by simp),
      fun r h hok => absurd hok (hfailed r h), fun r h hok => absurd hok (hfailed r h)⟩
  | false =>
    rw [hec] at hafter
    cases hm : frontMarked "+CMT:" t.response with
    | true =>
      rw [hafter, handle_marked _ hm]
      exact ⟨fun op handler hp => absurd (hpending.symm.trans hp) (by simp),
        fun _ _ _ _ => ⟨hpending, List.getLast?_concat⟩,
        fun _ _ _ hno => absurd (hm.symm.trans hno) (by simp)⟩
    | false =>
      rw [hafter, handle_unmarked _ hm]
      refine ⟨fun op handler hp => ?_, fun _ _ _ hyes => absurd (hm.symm.trans hyes) (by simp),
        fun _ _ _ _ => ⟨⟨_, _, rfl⟩, List.getLast?_concat⟩⟩
      obtain ⟨rfl, rfl⟩ := Prod.mk.inj (Option.some.inj hp)
      exact ⟨_, _, rfl⟩

theorem loops_dispatch (n : Nat) {s : Session Handler} (hs : Loops s) :
    Loops (dispatch handle n s).2 := by
  induction n generalizing s with
  | zero => exact hs
  | succ n ih =>
    cases hp : s.pending with
    | none => rwa [(loop_idle handle hp (n + 1)).2]
    | some pending =>
      obtain ⟨held, search, hop⟩ := hs.pending pending.1 pending.2 hp
      let c : Call Handler := ⟨pending.1, pending.2, { s with pending := none }⟩
      have hr := Call.record_reading (c := c) hop
      rw [(loop_call (c := c) handle hp rfl n).2]
      exact ih (loops_call hr rfl)

theorem Loops.stop {s : Session Handler} (hs : Loops s) : Loops { s with stopped := true } :=
  ⟨hs.pending, hs.reports, hs.rearms⟩

/-- Before the wait. -/
structure Unread (s : Session Handler) : Prop where
  waits : s.waits = []
  pending : s.pending = none

theorem Unread.loops {s : Session Handler} (h : Unread s) : Loops s :=
  loops_unread h.waits fun op handler hp => by simp [h.pending] at hp

theorem runReceiveSms_loops (port : Port) (n : Nat) : Loops (runReceiveSms port n).2 := by
  have hsetup : Triple Unread (sequence ([openPort port] ++ setup.map execute)) Unread Loops := by
    refine triple_all fun step hs => (triple_of_keeps fun s (h : Unread s) => ?_).imp
      (fun _ h => h) (fun _ h => h) fun _ h => h.loops
    rcases List.mem_append.mp hs with hs | hs
    · obtain rfl := List.mem_singleton.mp hs
      exact h
    · obtain ⟨command, _, rfl⟩ := List.mem_map.mp hs
      obtain ⟨_, _, _, hpending⟩ := execute_frame command s
      exact ⟨(waits_execute command s).trans h.waits, hpending.trans h.pending⟩
  have hwait : Triple Unread (does (·.asyncRead Handler.readHandler)) Loops Loops :=
    triple_does fun s h => loops_unread (s := s.asyncRead .readHandler) h.waits
      fun op handler hp => by
      obtain ⟨rfl, rfl⟩ := Prod.mk.inj (Option.some.inj hp)
      exact ⟨_, _, rfl⟩
  have hrun : Triple Loops (run handle n) Loops Loops := triple_of_keeps fun s hs => by
    have hd := loops_dispatch n hs
    rcases run_cases handle n s with h | h | h <;> rw [h]
    · exact hs
    · exact hd.stop
    · exact hd
  exact (triple_append hsetup (triple_cons hwait (triple_cons hrun triple_nil))).holds
    ⟨rfl, rfl⟩

/-- The two outcomes exclude each other, so the test of the handler is the decision. -/
theorem Loops.decides {s : Session Handler} {r : ReadRecord} (hs : Loops s)
    (hlast : s.reads.getLast? = some (.asyncRead, r)) (hec : r.ec = false) :
    Decides r s ↔ (frontMarked "+CMT:" s.response = true ↔ Notifies r) := by
  cases hm : frontMarked "+CMT:" s.response with
  | true =>
    have hreports := hs.reports r hlast hec hm
    constructor
    · intro h
      refine ⟨fun _ => ?_, fun _ => rfl⟩
      by_contra hno
      obtain ⟨⟨held, op, hpending⟩, _⟩ := h.rearms hno
      rw [hreports.1] at hpending
      cases hpending
    · intro h
      exact ⟨fun _ => hreports, fun hno => absurd (h.mp rfl) hno⟩
  | false =>
    have hrearms := hs.rearms r hlast hec hm
    constructor
    · intro h
      refine ⟨fun hm => (Bool.false_ne_true hm).elim, fun hyes => ?_⟩
      obtain ⟨held, op, hpending⟩ := hrearms.1
      rw [(h.reports hyes).1] at hpending
      cases hpending
    · intro h
      exact ⟨fun hyes => (Bool.false_ne_true (h.mpr hyes)).elim, fun _ => hrearms⟩

/-- The message is not mistaken. A notification is not missed: the first line of the run so far, an
earlier message's or else its own, has the marker once and in front. And no other message is taken
for one: it does not come behind a first line that has it so. -/
structure Unmistaken (past : List ReadRecord) (r : ReadRecord) : Prop where
  noticed : Notifies r → ∃ line, (firstLine past).or r.alone.body.head? = some line ∧
    Marked (ascii "+CMT:") line
  refused : ¬ Notifies r → ∀ line, firstLine past = some line → ¬ Marked (ascii "+CMT:") line

theorem unmistaken_first {past : List ReadRecord} {r : ReadRecord} (hpast : firstLine past = none)
    (hr : frontMarked "+CMT:" r.alone = true) : Unmistaken past r := by
  have hmarked := (frontMarked_iff (by decide) _).mp hr
  constructor
  · intro _
    rwa [hpast, Option.none_or]
  · intro _ line hline
    rw [hpast] at hline
    cases hline

/-- In every run, behind the handler call for any message: the handler has decided on the message
alone exactly when the message is not mistaken for an earlier one. -/
theorem decides_iff (port : Port) (n : Nat) (past : List (Reader × ReadRecord)) (r : ReadRecord)
    (hreads : (runReceiveSms port n).2.reads = past ++ [(.asyncRead, r)]) (hec : r.ec = false) :
    Decides r (runReceiveSms port n).2 ↔ Unmistaken (past.map Prod.snd) r := by
  have hloops := runReceiveSms_loops port n
  have hbody := Chain.body (runReceiveSms_chained port n)
  have hlast : (runReceiveSms port n).2.reads.getLast? = some (.asyncRead, r) := by
    rw [hreads, List.getLast?_concat]
  rw [records, hreads, List.map_append, List.map_singleton, successful_append, hec,
    if_neg Bool.false_ne_true, List.flatMap_append, List.flatMap_singleton] at hbody
  rw [hloops.decides hlast hec, frontMarked_iff (by decide), hbody, List.head?_append]
  change ((∃ line, (firstLine (past.map Prod.snd)).or _ = some line ∧ _) ↔ _) ↔ _
  constructor
  · intro h
    constructor
    · exact h.mpr
    · intro hno line hline hmarked
      refine hno (h.mp ⟨line, ?_, hmarked⟩)
      rw [hline, Option.some_or]
  · intro h
    refine ⟨?_, h.noticed⟩
    rintro ⟨line, hline, hmarked⟩
    by_contra hno
    cases hfirst : firstLine (past.map Prod.snd) with
    | some first =>
      rw [hfirst, Option.some_or] at hline
      rw [Option.some.inj hline] at hfirst
      exact h.refused hno line hfirst hmarked
    | none =>
      rw [hfirst, Option.none_or] at hline
      exact hno ⟨line, hline, hmarked.1⟩

/-- The reply to the setup has had a line, and the notification is taken for another message. -/
theorem decides_mistaken :
    let ok : Arrival UInt8 := ⟨ascii "\r\nOK\r\n", [], by decide⟩
    let line : Arrival UInt8 := ⟨ascii "\r\n+CNMI: 1\r\n\r\nOK\r\n", [], by decide⟩
    let sms : Arrival UInt8 := ⟨ascii "\r\n+CMT: 1\r\nHi\r\n", [], by decide⟩
    let port : Port := ⟨true, [.received ok, .received ok, .received line, .received sms],
      List.replicate 3 (.accepted 100 [])⟩
    ¬ ∀ past r, (runReceiveSms port 1).2.reads = past ++ [(.asyncRead, r)] → r.ec = false →
      Decides r (runReceiveSms port 1).2 := by
  intro ok line sms port h
  let r : ReadRecord := ⟨[], [sms], false, 15, sms.chunk, ⟨.ok, [], [ascii "+CNMI: 1"]⟩,
    ⟨.none, [], [ascii "+CNMI: 1", ascii "+CMT: 1", ascii "Hi"]⟩⟩
  have hreads : (runReceiveSms port 1).2.reads =
      (runReceiveSms port 1).2.reads.take 3 ++ [(.asyncRead, r)] := by decide +kernel
  have hnotifies : Notifies r := ⟨ascii "+CMT: 1", by decide, by decide⟩
  have hpending : (runReceiveSms port 1).2.pending ≠ none := by decide +kernel
  exact hpending ((h _ r hreads rfl).reports hnotifies).1

/-- The notification comes in a short chunk of a large area, behind a setup without a line. -/
theorem decides_reported :
    let ok : Arrival UInt8 := ⟨ascii "\r\nOK\r\n", List.replicate 506 0, by decide⟩
    let sms : Arrival UInt8 :=
      ⟨ascii "\r\n+CMT: 1\r\nHi\r\n", List.replicate 497 0, by decide⟩
    let port : Port := ⟨true, [.received ok, .received ok, .received ok, .received sms],
      List.replicate 3 (.accepted 100 [])⟩
    let r : ReadRecord := ⟨[], [sms], false, 15, sms.chunk ++ List.replicate 15 0, ⟨.ok, [], []⟩,
      ⟨.none, [], [ascii "+CMT: 1", ascii "Hi", List.replicate 15 0]⟩⟩
    Decides r (runReceiveSms port 1).2 := by
  intro ok sms port r
  have hreads : (runReceiveSms port 1).2.reads =
      (runReceiveSms port 1).2.reads.take 3 ++ [(.asyncRead, r)] := by decide +kernel
  exact (decides_iff port 1 _ r hreads rfl).mpr (unmistaken_first (by decide) (by decide))

end ReceiveSms

end Ringbeller
