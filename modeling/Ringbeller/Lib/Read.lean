import Ringbeller.Asio.ReadUntil
import Ringbeller.Lib.Cuts
import Ringbeller.Lib.ParseResponse

/-!
# Reading a response

`read.hpp`: the synchronous `read`, and the two halves of `async_read` on either side of
the user's handler.
-/

namespace Ringbeller
set_option autoImplicit false

open Asio

/-- The code is assigned; the text and the lines are appended to what the message holds. -/
def populateResponseFromBuffer (buffer : Streambuf UInt8) (msg : Response) : Response :=
  let o := (parseResponse buffer.data Outputs.fresh).2
  ⟨o.resultCode, msg.rcText ++ o.resultText, msg.body ++ o.body⟩

/-- The stream, as the turns it has left, the buffer and the message of a read. -/
structure ReadState where
  turns : List (Turn UInt8)
  buffer : Streambuf UInt8
  msg : Response
  deriving Repr, DecidableEq

/-- What one read has done: the input sequence it was started on, the chunks it took, what
it reports, the input sequence that was parsed, and the message before and after. -/
structure ReadRecord where
  held : List UInt8
  taken : List (Arrival UInt8)
  ec : Bool
  count : Nat
  parsed : List UInt8
  before : Response
  after : Response
  deriving Repr, DecidableEq

namespace ReadRecord

def received (r : ReadRecord) : List UInt8 := bytes r.taken

/-- The bytes that the read had in hand beyond those it counted. -/
def beyond (r : ReadRecord) : List UInt8 := (r.held ++ r.received).drop r.count

end ReadRecord

/-- Both reads commit the count once more and parse the whole buffer. -/
def deliver (held : List UInt8) (o : Outcome UInt8) (msg : Response) : ReadRecord × ReadState :=
  let buffer := o.buf.commit o.count
  let after := if o.ec then msg else populateResponseFromBuffer buffer msg
  (⟨held, o.taken, o.ec, o.count, buffer.data, msg, after⟩, ⟨o.turns, buffer, after⟩)

def read (s : ReadState) : ReadRecord × ReadState :=
  let (r, s) := deliver s.buffer.data (readUntil matchCondition s.buffer s.turns) s.msg
  (r, { s with buffer := s.buffer.consume r.count })

def asyncRead (buffer : Streambuf UInt8) : Search := search matchCondition 0 buffer.data

/-- The completion lambda up to the call of the handler; it ends with a `consume` of the count. -/
def asyncReadCompletes (held : List UInt8) (op : Search) (s : ReadState) : ReadRecord × ReadState :=
  deliver held (finish matchCondition op s.buffer s.turns) s.msg

def firstAsyncRead (s : ReadState) : ReadRecord × ReadState :=
  asyncReadCompletes s.buffer.data (asyncRead s.buffer) s

theorem matchCondition_resumable : Resumable matchCondition :=
  ⟨matchCondition_suffix, fun _ w h => matchCondition_resume h w⟩

theorem firstAsyncRead_eq (s : ReadState) :
    firstAsyncRead s = deliver s.buffer.data (readUntil matchCondition s.buffer s.turns) s.msg :=
  rfl

/-- The synchronous read reports what the first asynchronous one hands to its handler. -/
theorem read_record (s : ReadState) : (read s).1 = (firstAsyncRead s).1 := rfl

theorem firstAsyncRead_ec (s : ReadState) : (firstAsyncRead s).1.ec =
    !(matchCondition (s.buffer.data ++ (firstAsyncRead s).1.received)).2 :=
  (readUntil_taken matchCondition_resumable s.buffer s.turns).1

/-- The extra commit may append to what has been received. -/
theorem firstAsyncRead_parsed (s : ReadState) :
    s.buffer.data ++ (firstAsyncRead s).1.received <+: (firstAsyncRead s).1.parsed := by
  have hdata := (readUntil_taken matchCondition_resumable s.buffer s.turns).2
  refine ⟨(readUntil matchCondition s.buffer s.turns).buf.area.take
    (readUntil matchCondition s.buffer s.turns).count, ?_⟩
  exact congrArg (· ++ _) hdata.symm

/-- The message that a read finds: the chunks that it takes, what they leave behind the end of
the message, and the turns after them. -/
structure NextMessage (held : List UInt8) (turns : List (Turn UInt8))
    (as : List (Arrival UInt8)) (left : List UInt8) (rest : List (Turn UInt8)) : Prop where
  turns : turns = as.map .received ++ rest
  undecided : Undecided matchCondition held as
  accepted : matchCondition (held ++ bytes as) = (left, true)

theorem NextMessage.readUntil {buf : Streambuf UInt8} {turns : List (Turn UInt8)}
    {as : List (Arrival UInt8)} {left : List UInt8} {rest : List (Turn UInt8)}
    (h : NextMessage buf.data turns as left rest) :
    readUntil matchCondition buf turns =
      ⟨false, (buf.data ++ bytes as).length - left.length, buf.receiveAll as, rest, as⟩ := by
  have hacc : (matchCondition (buf.data ++ bytes as)).2 = true := by rw [h.accepted]
  have hstop := readUntil_stops matchCondition_resumable h.undecided hacc rest
  rwa [h.accepted, ← h.turns] at hstop

theorem read_ok {s : ReadState} (h : (read s).1.ec = false) :
    ∃ as left rest, NextMessage s.buffer.data s.turns as left rest := by
  have hec : (readUntil matchCondition s.buffer s.turns).ec = false := h
  obtain ⟨as, rest, hturns, hund, hacc⟩ := readUntil_succeeded matchCondition_resumable hec
  exact ⟨as, _, rest, hturns, hund, by rw [← hacc]⟩

/-- In what is accepted as a whole, a read finds a message. -/
theorem nextMessage_in {held : List UInt8} {as : List (Arrival UInt8)}
    (h : (matchCondition (held ++ bytes as)).2 = true) (turns : List (Turn UInt8)) :
    ∃ as' tail, as = as' ++ tail ∧ NextMessage held (as.map .received ++ turns) as'
      (matchCondition (held ++ bytes as')).1 (tail.map .received ++ turns) := by
  obtain ⟨as', tail, rfl, hund, hacc⟩ := stops_in h
  refine ⟨as', tail, rfl, ?_, hund, ?_⟩
  · rw [List.map_append, List.append_assoc]
  · rw [← hacc]

theorem NextMessage.beyond {s : ReadState} {as : List (Arrival UInt8)} {left : List UInt8}
    {rest : List (Turn UInt8)} (h : NextMessage s.buffer.data s.turns as left rest) :
    (read s).1.beyond = left := by
  have hsuffix := matchCondition_suffix (s.buffer.data ++ bytes as)
  rw [h.accepted] at hsuffix
  simp only [ReadRecord.beyond, ReadRecord.received, read, deliver, h.readUntil]
  exact (List.suffix_iff_eq_drop.mp hsuffix).symm

theorem read_beyond {s : ReadState} (h : (read s).1.ec = false) :
    (read s).1.beyond = (matchCondition (s.buffer.data ++ (read s).1.received)).1 := by
  obtain ⟨as, left, rest, hnext⟩ := read_ok h
  rw [hnext.beyond]
  simp only [ReadRecord.received, read, deliver, hnext.readUntil, hnext.accepted]

end Ringbeller
