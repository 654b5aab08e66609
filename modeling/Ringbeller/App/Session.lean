import Ringbeller.Lib.Read
import Ringbeller.Lib.Write
import Ringbeller.Script.Steps

/-!
# Sessions on a port

What a scenario works on: the port, its own buffer and response, the pending operation of
the `io_service` with the handler that waits for it, and `execute` on the same port. The
handlers of a scenario are an enumeration `η`.
-/

namespace Ringbeller
set_option autoImplicit false

open Asio

inductive Reader where
  | execute
  | asyncRead
  deriving Repr, DecidableEq

/-- What can be seen of a run from outside, in order. -/
inductive Event where
  | sent (bytes : List UInt8)
  | read (reader : Reader) (r : ReadRecord)
  | printed (line : List UInt8)
  deriving Repr, DecidableEq

/-- An operation that has been started. A read remembers the input sequence it was started on. -/
inductive Operation where
  | reading (held : List UInt8) (op : Search)
  | writing (op : Writing)
  deriving Repr, DecidableEq

/-- `usbCfg` is a local variable of the call scenarios; `thrown` says that a handler has
left the event loop with an exception. -/
structure Session (η : Type) where
  turns : List (Turn UInt8)
  puts : List (Put UInt8)
  buf : Streambuf UInt8
  response : Response
  usbCfg : List UInt8
  pending : Option (Operation × η)
  stopped : Bool
  thrown : Bool
  log : List Event
  deriving Repr, DecidableEq

/-- The port of a run: whether it can be opened, and its answers to reads and writes. -/
structure Port where
  opens : Bool
  turns : List (Turn UInt8)
  puts : List (Put UInt8)
  deriving Repr, DecidableEq

variable {η : Type}

namespace Session

def start (port : Port) : Session η :=
  ⟨port.turns, port.puts, .new, .new, [], none, false, false, []⟩

def reads (s : Session η) : List (Reader × ReadRecord) :=
  s.log.filterMap fun
    | .read reader r => some (reader, r)
    | _ => none

def print (line : String) (s : Session η) : Session η :=
  { s with log := s.log ++ [.printed (ascii line)] }

def consume (n : Nat) (s : Session η) : Session η := { s with buf := s.buf.consume n }

/-- `async_read(sp, buf, response, handler)`. -/
def asyncRead (handler : η) (s : Session η) : Session η :=
  { s with pending := some (.reading s.buf.data (Ringbeller.asyncRead s.buf), handler) }

def startWriting (started : Writing × List UInt8 × List (Put UInt8)) (handler : η)
    (s : Session η) : Session η :=
  { s with
    pending := some (.writing started.1, handler)
    puts := started.2.2
    log := s.log ++ [.sent started.2.1] }

def asyncWrite (msg : Request) (handler : η) (s : Session η) : Session η :=
  s.startWriting (Ringbeller.asyncWrite msg s.puts) handler

def asyncWriteText (text : List UInt8) (handler : η) (s : Session η) : Session η :=
  s.startWriting (Ringbeller.asyncWriteText text s.puts) handler

/-- `write(sp, command, ec)`. -/
def write (msg : Request) (s : Session η) : Bool × Session η :=
  let w := Ringbeller.write msg s.puts
  (w.ec, { s with puts := w.puts, log := s.log ++ [.sent w.sent] })

def didRead (reader : Reader) (r : ReadRecord) (done : ReadState) (s : Session η) : Session η :=
  { s with turns := done.turns, response := done.msg, log := s.log ++ [.read reader r] }

/-! What the operations leave of the reads. -/

@[simp] theorem reads_print (line : String) (s : Session η) : (s.print line).reads = s.reads := by
  simp [print, reads, List.filterMap_append]

@[simp] theorem reads_consume (n : Nat) (s : Session η) : (s.consume n).reads = s.reads := rfl

@[simp] theorem reads_asyncRead (handler : η) (s : Session η) :
    (s.asyncRead handler).reads = s.reads := rfl

@[simp] theorem reads_startWriting (started : Writing × List UInt8 × List (Put UInt8))
    (handler : η) (s : Session η) : (s.startWriting started handler).reads = s.reads := by
  simp [startWriting, reads, List.filterMap_append]

@[simp] theorem reads_write (msg : Request) (s : Session η) :
    (s.write msg).2.reads = s.reads := by
  simp [write, reads, List.filterMap_append]

@[simp] theorem reads_didRead (reader : Reader) (r : ReadRecord) (done : ReadState)
    (s : Session η) : (s.didRead reader r done).reads = s.reads ++ [(reader, r)] := by
  simp [didRead, reads, List.filterMap_append]

/-- One handler call of the event loop. The lambda of `async_read` consumes the count once
the handler has returned. -/
def complete (handle : η → Bool → Nat → Session η → Session η) (op : Operation) (handler : η)
    (s : Session η) : Session η :=
  match op with
  | .reading held op =>
    let done := asyncReadCompletes held op ⟨s.turns, s.buf, s.response⟩
    let s := { s.didRead .asyncRead done.1 done.2 with buf := done.2.buffer }
    (handle handler done.1.ec done.1.count s).consume done.1.count
  | .writing op =>
    let w := asyncWriteCompletes op s.puts
    handle handler w.ec w.count { s with puts := w.puts, log := s.log ++ [.sent w.sent] }

theorem reads_complete_reading {handle : η → Bool → Nat → Session η → Session η}
    (h : ∀ handler ec n s, (handle handler ec n s).reads = s.reads) (held : List UInt8)
    (op : Search) (handler : η) (s : Session η) :
    (complete handle (.reading held op) handler s).reads = s.reads ++
      [(.asyncRead, (asyncReadCompletes held op ⟨s.turns, s.buf, s.response⟩).1)] := by
  rw [complete, reads_consume, h]
  exact reads_didRead _ _ (asyncReadCompletes held op ⟨s.turns, s.buf, s.response⟩).2 s

theorem reads_complete_writing {handle : η → Bool → Nat → Session η → Session η}
    (h : ∀ handler ec n s, (handle handler ec n s).reads = s.reads) (op : Writing)
    (handler : η) (s : Session η) :
    (complete handle (.writing op) handler s).reads = s.reads := by
  rw [complete, h]
  simp [reads, List.filterMap_append]

/-- At most `n` handler calls; the flag says whether the loop has run out of work. -/
def dispatch (handle : η → Bool → Nat → Session η → Session η) : Nat → Session η → Bool × Session η
  | 0, s => (s.pending.isNone && !s.thrown, s)
  | n + 1, s =>
    match s.pending with
    | none => (!s.thrown, s)
    | some (op, handler) => dispatch handle n (complete handle op handler { s with pending := none })

end Session

/-! ## Statements of the scenarios -/

def openPort (port : Port) : Script.Step (Session η) := fun s =>
  (some (if port.opens then 0 else -1), s)

/-- `ios.run()`, interrupted by the user after `n` handler calls. A service that has been
stopped returns at once. -/
def run (handle : η → Bool → Nat → Session η → Session η) (n : Nat) : Script.Step (Session η) :=
  fun s =>
    if s.stopped then (some 0, s)
    else
      let r := Session.dispatch handle n s
      if r.1 then (some 0, { r.2 with stopped := true }) else (none, r.2)

/-- `execute.hpp`. The buffer is local to the call. -/
def execute (command : Request) : Script.Step (Session η) := fun s =>
  let w := s.write command
  if w.1 then (some (-1), w.2)
  else
    let done := read ⟨w.2.turns, .new, w.2.response⟩
    (some (if done.1.ec then -1 else 0), w.2.didRead .execute done.1 done.2)

theorem run_cases (handle : η → Bool → Nat → Session η → Session η) (n : Nat) (s : Session η) :
    run handle n s = (some 0, s) ∨
      run handle n s = (some 0, { (Session.dispatch handle n s).2 with stopped := true }) ∨
      run handle n s = (none, (Session.dispatch handle n s).2) := by
  cases hs : s.stopped with
  | true => exact Or.inl (by simp [run, hs])
  | false =>
    cases hd : (Session.dispatch handle n s).1 with
    | true => exact Or.inr (Or.inl (by simp [run, hs, hd]))
    | false => exact Or.inr (Or.inr (by simp [run, hs, hd]))

theorem execute_unwritten {command : Request} {s : Session η} (h : (s.write command).1 = true) :
    execute command s = (some (-1), (s.write command).2) := if_pos h

theorem execute_written {command : Request} {s : Session η} (h : (s.write command).1 = false) :
    execute command s =
      (some (if (read ⟨s.turns, .new, s.response⟩).1.ec then -1 else 0),
        (s.write command).2.didRead .execute (read ⟨s.turns, .new, s.response⟩).1
          (read ⟨s.turns, .new, s.response⟩).2) := if_neg (ne_true_of_eq_false h)

/-! ## Tests on a response -/

/-- `std::string::rfind`: where the last occurrence starts. -/
def rfind (s p : List UInt8) : Option Nat :=
  (List.range (s.length + 1 - p.length)).reverse.find? fun i => p.isPrefixOf (s.drop i)

/-- `response.body.size() and response.body.front().rfind(marker) == 0`. -/
def frontMarked (marker : String) (response : Response) : Bool :=
  match response.body with
  | [] => false
  | line :: _ => rfind line (ascii marker) == some 0

end Ringbeller
