import Mathlib.Data.List.Forall2
import Ringbeller.App.Responses
import Ringbeller.Lib.Chunking

/-!
# Exchanges one after another

Consecutive calls of `execute` on one port, and `run_receive_sms`, where a waiting read
follows them. Each call of `execute` reads into a buffer of its own and drops it.
-/

namespace Ringbeller
set_option autoImplicit false

open Asio Script Session

/-! ## Bytes beyond a reply -/

/-- What a read of `execute` had in hand beyond its message is what the next read is given
first. -/
def HandsOver (reads : List (Reader × ReadRecord)) : Prop :=
  ∀ past r next behind, reads = past ++ (.execute, r) :: next :: behind → next.2.held = r.beyond

/-- Every reply that `execute` has read, but the last, ends its last chunk, blanks apart. -/
def RepliesEndChunks (reads : List (Reader × ReadRecord)) : Prop :=
  ∀ past r next behind, reads = past ++ (.execute, r) :: next :: behind →
    (matchCondition r.received).1 = []

def Succeeded (r : ReadRecord) : Prop := r.beyond = (matchCondition r.received).1

/-- Only a successful read of `execute` is followed by another one, and that one starts on
an empty buffer. -/
def StartAfresh (reads : List (Reader × ReadRecord)) : Prop :=
  ∀ past r next behind, reads = past ++ (.execute, r) :: next :: behind →
    Succeeded r ∧ next.2.held = []

theorem StartAfresh.handsOver {reads : List (Reader × ReadRecord)} (h : StartAfresh reads) :
    HandsOver reads ↔ RepliesEndChunks reads := by
  refine forall_congr' (fun past => forall_congr' (fun r => forall_congr' (fun next =>
    forall_congr' (fun behind => forall_congr' (fun heq => ?_)))))
  obtain ⟨hr, hnext⟩ := h past r next behind heq
  rw [hnext, show r.beyond = _ from hr]
  exact eq_comm

theorem startAfresh_nil : StartAfresh [] := fun past r next behind heq => by simp at heq

theorem StartAfresh.append {reads : List (Reader × ReadRecord)} (h : StartAfresh reads)
    {x : Reader × ReadRecord}
    (hlast : ∀ r, reads.getLast? = some (.execute, r) → Succeeded r ∧ x.2.held = []) :
    StartAfresh (reads ++ [x]) := by
  intro past r next behind heq
  rcases List.eq_nil_or_concat behind with rfl | ⟨behind, y, rfl⟩
  · rw [show past ++ [(.execute, r), next] = (past ++ [(.execute, r)]) ++ [next] by simp] at heq
    obtain ⟨rfl, hx⟩ := List.append_inj' heq rfl
    obtain rfl := List.singleton_inj.mp hx
    exact hlast r (by simp)
  · rw [List.concat_eq_append, show past ++ (.execute, r) :: next :: (behind ++ [y]) =
      (past ++ (.execute, r) :: next :: behind) ++ [y] by simp] at heq
    exact h past r next behind (List.append_inj' heq rfl).1

variable {η : Type}

/-- Between two exchanges: nothing is pending and the scenario's own buffer is unused. -/
structure Between (s : Session η) : Prop where
  afresh : StartAfresh s.reads
  last : ∀ r, s.reads.getLast? = some (.execute, r) → Succeeded r
  pending : s.pending = none
  data : s.buf.data = []

theorem between_start (port : Port) : Between (start port : Session η) :=
  ⟨startAfresh_nil, fun r h => by simp [reads, start] at h, rfl, rfl⟩

theorem between_openPort (port : Port) :
    Triple (Between (η := η)) (openPort port) Between fun s => StartAfresh s.reads := fun _ hs =>
  ⟨fun _ => hs, fun _ => hs.afresh⟩

theorem between_execute (command : Request) :
    Triple (Between (η := η)) (execute command) Between fun s => StartAfresh s.reads := by
  intro s hs
  cases hec : (s.write command).1 with
  | true =>
    rw [execute_unwritten hec]
    refine ⟨fun h => by simp at h, fun _ => ?_⟩
    show StartAfresh (s.write command).2.reads
    rw [reads_write]
    exact hs.afresh
  | false =>
    rw [execute_written hec]
    generalize hr : read ⟨s.turns, .new, s.response⟩ = called
    have hheld : called.1.held = [] := by rw [← hr]; rfl
    have hafresh :
        StartAfresh (((s.write command).2.didRead .execute called.1 called.2).reads) := by
      rw [reads_didRead, reads_write]
      exact hs.afresh.append fun r hlast => ⟨hs.last r hlast, hheld⟩
    refine ⟨fun h => ⟨hafresh, fun r hlast => ?_, hs.pending, hs.data⟩, fun _ => hafresh⟩
    rw [reads_didRead, List.getLast?_concat] at hlast
    obtain rfl : called.1 = r := (Prod.mk.inj (Option.some.inj hlast)).2
    have hok : called.1.ec = false := by
      cases hc : called.1.ec with
      | false => rfl
      | true => simp [hc] at h
    have hbeyond := read_beyond (s := ⟨s.turns, .new, s.response⟩) (by rw [hr]; exact hok)
    rw [hr] at hbeyond
    exact hbeyond

theorem afresh_executes (commands : List Request) (port : Port) :
    StartAfresh (sequence (commands.map execute) (.start port : Session η)).2.reads := by
  have hall : Triple (Between (η := η)) (sequence (commands.map execute)) Between
      fun s => StartAfresh s.reads := triple_all fun step hs => by
    obtain ⟨command, _, rfl⟩ := List.mem_map.mp hs
    exact between_execute command
  exact (hall.imp (fun _ h => h) (fun _ h => h.afresh) (fun _ h => h)).holds (between_start port)

/-- While the loop waits: a pending read behind a read of `execute` has started afresh. -/
structure Waits (s : Session ReceiveSms.Handler) : Prop where
  afresh : StartAfresh s.reads
  pending : ∀ op handler, s.pending = some (op, handler) → ∃ held search,
    op = .reading held search ∧
      ∀ r, s.reads.getLast? = some (.execute, r) → Succeeded r ∧ held = []

theorem waits_complete {s : Session ReceiveSms.Handler} {op : Operation}
    {handler : ReceiveSms.Handler} (hs : Waits s) (hp : s.pending = some (op, handler)) :
    Waits (complete ReceiveSms.handle op handler { s with pending := none }) := by
  obtain ⟨held, search, rfl, hlast⟩ := hs.pending op handler hp
  have hreads := reads_complete_reading (fun h ec n s => (receiveSms_quiet h ec n s).1) held search
    handler { s with pending := none }
  refine ⟨?_, fun op' handler' hp' => ?_⟩
  · rw [hreads]
    exact hs.afresh.append hlast
  · rw [hreads, List.getLast?_concat]
    cases handler with
    | readHandler =>
      simp only [complete, ReceiveSms.handle] at hp'
      split at hp'
      · cases hp'
      · split at hp'
        · cases hp'
        · obtain ⟨rfl, rfl⟩ := Prod.mk.inj (Option.some.inj hp')
          exact ⟨_, _, rfl, fun r h => by cases h⟩

theorem waits_dispatch (n : Nat) {s : Session ReceiveSms.Handler} (hs : Waits s) :
    Waits (dispatch ReceiveSms.handle n s).2 := by
  induction n generalizing s with
  | zero => exact hs
  | succ n ih =>
    cases hp : s.pending with
    | none => simpa [dispatch, hp] using hs
    | some op => simpa [dispatch, hp] using ih (waits_complete hs hp)

theorem afresh_receiveSms (port : Port) (n : Nat) :
    StartAfresh (runReceiveSms port n).2.reads := by
  have hsetup : Triple (Between (η := ReceiveSms.Handler))
      (sequence ([openPort port] ++ ReceiveSms.setup.map execute)) Between
      fun s => StartAfresh s.reads := by
    apply triple_all
    intro step hs
    rcases List.mem_append.mp hs with hs | hs
    · obtain rfl := List.mem_singleton.mp hs
      exact between_openPort port
    · obtain ⟨command, _, rfl⟩ := List.mem_map.mp hs
      exact between_execute command
  have hwait : Triple Between (does (·.asyncRead ReceiveSms.Handler.readHandler)) Waits
      fun s => StartAfresh s.reads := triple_does fun s hs => ⟨hs.afresh, fun op handler hp => by
    obtain ⟨rfl, rfl⟩ := Prod.mk.inj (Option.some.inj hp)
    exact ⟨_, _, rfl, fun r hlast => ⟨hs.last r hlast, hs.data⟩⟩⟩
  have hrun : Triple Waits (run ReceiveSms.handle n) (fun s => StartAfresh s.reads)
      fun s => StartAfresh s.reads := by
    refine (triple_of_keeps (P := Waits) fun s hs => ?_).imp (fun _ h => h) (fun _ h => h.afresh)
      (fun _ h => h.afresh)
    have hd := waits_dispatch n hs
    rcases run_cases ReceiveSms.handle n s with h | h | h <;> rw [h]
    · exact hs
    · exact ⟨hd.afresh, hd.pending⟩
    · exact hd
  exact (triple_append hsetup (triple_cons hwait (triple_cons hrun triple_nil))).holds
    (between_start port)

/-- Consecutive calls of `execute`, and a run of `run_receive_sms` up to any handler call:
the bytes received beyond a reply are the first that the next read is given, and so none is
lost between the setup and the waiting loop, exactly when every reply that another read
follows ends its chunk. What the reads inside the waiting loop consume is not part of this. -/
theorem handsOver_iff (port : Port) :
    (∀ commands : List Request,
      let reads := (sequence (commands.map execute) (.start port : Session Unit)).2.reads
      HandsOver reads ↔ RepliesEndChunks reads) ∧
    ∀ n : Nat, HandsOver (runReceiveSms port n).2.reads ↔
      RepliesEndChunks (runReceiveSms port n).2.reads :=
  ⟨fun commands => (afresh_executes commands port).handsOver,
    fun n => (afresh_receiveSms port n).handsOver⟩

/-- A notification in the chunk that ends the last reply of the setup is dropped with the
buffer of `execute`; the waiting loop starts on an empty one. -/
theorem handsOver_dropped :
    let ok : Arrival UInt8 := ⟨ascii "\r\nOK\r\n", [], by decide⟩
    let both : Arrival UInt8 := ⟨ascii "\r\nOK\r\n\r\n+CMT: 1\r\nHi\r\n", [], by decide⟩
    let line : Put UInt8 := .accepted 100 []
    let port : Port := ⟨true, [.received ok, .received ok, .received both], [line, line, line]⟩
    (runReceiveSms port 1).1 = some 0 ∧ ¬ HandsOver (runReceiveSms port 1).2.reads := by
  intro ok both line port
  refine ⟨by decide, fun h => ?_⟩
  have hreads : (runReceiveSms port 1).2.reads.map (fun r => (r.1, r.2.held, r.2.beyond)) =
      [(.execute, [], []), (.execute, [], []),
        (.execute, [], ascii "\r\n+CMT: 1\r\nHi\r\n"), (.asyncRead, [], [])] := by decide
  obtain ⟨first, second, ⟨reader, r⟩, next, heq⟩ :
      ∃ a b c d, (runReceiveSms port 1).2.reads = [a, b, c, d] :=
    List.length_eq_four.mp (by simpa using congrArg List.length hreads)
  rw [heq] at h hreads
  simp only [List.map_cons, List.map_nil, List.cons.injEq, Prod.mk.injEq] at hreads
  obtain ⟨_, _, ⟨rfl, _, hbeyond⟩, ⟨_, hheld, _⟩, _⟩ := hreads
  have hnext := h [first, second] r next [] rfl
  rw [hheld, hbeyond] at hnext
  revert hnext
  decide

/-! ## Replies and commands -/

/-- The chunks carry the message and nothing else, and none of them ends inside it where it is
accepted already. -/
structure OwnChunks (m : CompleteMessage) (as : List (Arrival UInt8)) : Prop where
  whole : bytes as = m.bytes
  cut : CutBeforeStop m as

theorem execute_message {command : Request} {s : Session η} {m : CompleteMessage}
    {as : List (Arrival UInt8)} {rest : List (Turn UInt8)}
    (hturns : s.turns = as.map .received ++ rest) (hm : OwnChunks m as)
    (h : (execute command s).1 = some 0) :
    (execute command s).2.turns = rest ∧ (execute command s).2.response = m.addTo s.response := by
  cases hec : (s.write command).1 with
  | true => simp [execute_unwritten hec] at h
  | false =>
    obtain ⟨last, _, hstop⟩ := readUntil_own_chunks hm.whole hm.cut [] rest
    have hread : readUntil matchCondition .new s.turns =
        ⟨false, m.bytes.length, ⟨m.bytes, last.spare⟩, rest, as⟩ := by rw [hturns, ← hstop]; rfl
    rw [execute_written hec]
    constructor
    · simp only [didRead, read, deliver, hread]
    · have hafter : (deliver [] ⟨false, m.bytes.length, ⟨m.bytes, last.spare⟩, rest, as⟩
          s.response).1.after = m.addTo s.response :=
        deliver_message (w := []) (by simp) rest as s.response
      simp only [didRead, read, hread, ← hafter]
      rfl

theorem executes_turns {commands : List Request} {s : Session η} {ms : List CompleteMessage}
    {groups : List (List (Arrival UInt8))} {rest : List (Turn UInt8)}
    (hg : List.Forall₂ OwnChunks ms groups)
    (hturns : s.turns = groups.flatten.map .received ++ rest)
    (hlen : commands.length ≤ ms.length)
    (h : (sequence (commands.map execute) s).1 = some 0) :
    (sequence (commands.map execute) s).2.turns =
      (groups.drop commands.length).flatten.map .received ++ rest := by
  induction commands generalizing s ms groups with
  | nil => exact hturns
  | cons command commands ih =>
    cases hg with
    | nil => simp at hlen
    | @cons m as ms groups hm hg =>
      rw [List.flatten_cons, List.map_append, List.append_assoc] at hturns
      by_cases h0 : (execute command s).1 = some 0
      · rw [List.map_cons, sequence_go h0] at h ⊢
        exact ih hg (execute_message hturns hm h0).1 (Nat.le_of_succ_le_succ hlen) h
      · rw [List.map_cons, sequence_stop h0] at h
        exact absurd h h0

/-- The command after `commands`, all of them executed with status 0, gets the message that
the port delivers after as many others, whatever that message is. -/
theorem execute_adds_delivered (port : Port) (ms : List CompleteMessage)
    (groups : List (List (Arrival UInt8))) (rest : List (Turn UInt8))
    (hg : List.Forall₂ OwnChunks ms groups)
    (hturns : port.turns = groups.flatten.map .received ++ rest)
    (commands : List Request) (command : Request) (m : CompleteMessage)
    (hm : ms[commands.length]? = some m) :
    let before := sequence (commands.map execute) (.start port : Session Unit)
    before.1 = some 0 → (execute command before.2).1 = some 0 →
      (execute command before.2).2.response = m.addTo before.2.response := by
  intro before hbefore h
  obtain ⟨hlt, rfl⟩ := List.getElem?_eq_some_iff.mp hm
  have hlen := hg.length_eq
  have ht : before.2.turns = _ := executes_turns hg hturns (Nat.le_of_lt hlt) hbefore
  rw [List.drop_eq_getElem_cons (hlen ▸ hlt), List.flatten_cons, List.map_append,
    List.append_assoc] at ht
  exact (execute_message ht (hg.get hlt (hlen ▸ hlt)) h).2

theorem execute_adds_second :
    let ok : Arrival UInt8 := ⟨ascii "\r\nOK\r\n", [], by decide⟩
    let early : Arrival UInt8 := ⟨ascii "\r\nQuec", [], by decide⟩
    let late : Arrival UInt8 := ⟨ascii "tel\r\n\r\nOK\r\n", [], by decide⟩
    let port : Port := ⟨true, [.received ok, .received early, .received late],
      [.accepted 4 [], .accepted 5 []]⟩
    let before := sequence ([makeAt].map execute) (.start port : Session Unit)
    (execute (basicRequest (ascii "I") []) before.2).2.response = quectel.addTo before.2.response :=
  execute_adds_delivered _
    [FinalCode.message ⟨.ok, [], by decide, by decide, by decide⟩, quectel] [[_], [_, _]] []
    (.cons ⟨by decide, code_cutBeforeStop (by decide)⟩
      (.cons ⟨by decide, (undecided_iff (by decide)).mp
        (undecided_cons.mpr ⟨by decide, undecided_cons.mpr ⟨by decide, undecided_nil⟩⟩)⟩ .nil))
    rfl [makeAt] _ quectel rfl (by decide) (by decide)

theorem execute_ring :
    let ring : Arrival UInt8 := ⟨ascii "\r\nRING\r\n", [], by decide⟩
    let ok : Arrival UInt8 := ⟨ascii "\r\nOK\r\n", [], by decide⟩
    let port : Port := ⟨true, [.received ring, .received ok], [.accepted 4 []]⟩
    (execute makeAt (.start port : Session Unit)).1 = some 0 ∧
      (execute makeAt (.start port : Session Unit)).2.response.rc = .ring := by
  decide

end Ringbeller
