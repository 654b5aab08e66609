import Ringbeller.Lib.Chunking
import Ringbeller.Lib.Write

/-!
# Command echo

A modem with ATE1 sends the command line back before it answers. `match_condition` looks for
the message at the first bytes of the buffer, and those are the echo from then on.
-/

namespace Ringbeller
set_option autoImplicit false

open Asio X3 Grammar

/-- The command line up to its CR. -/
def echo (r : Request) : List UInt8 := (toString r).dropLast

theorem echo_begins (r : Request) : ∃ v, echo r = 65 :: v := by
  obtain ⟨line, hline⟩ : ∃ line, toString r = ascii "AT" ++ line ++ ascii "\r\n" := ⟨_, rfl⟩
  refine ⟨84 :: (line ++ [cr]), ?_⟩
  have hecho : toString r = 65 :: 84 :: (line ++ [cr]) ++ [lf] := by
    rw [hline, List.append_assoc]
    show ascii "AT" ++ (line ++ [cr, lf]) = _
    simp [ascii]
  rw [echo, hecho, List.dropLast_concat]

/-- A read of bytes that begin so does not succeed, whatever comes after them. -/
theorem read_foreign {as : List (Arrival UInt8)} {c : UInt8} {v : List UInt8}
    (h : bytes as = c :: v) (hblank : blank c = false) (hc : c ≠ cr) (turns : List (Turn UInt8))
    (area : List UInt8) : (read (startOn as turns area)).1.ec = true := by
  rw [← Bool.not_eq_false]
  intro hec
  obtain ⟨as', left, rest, hturns, _, hleft⟩ := read_ok hec
  have haccepted : (matchCondition (bytes as')).2 = true := congrArg Prod.snd hleft
  cases as' with
  | nil => exact absurd haccepted (by decide)
  | cons a as' =>
    cases as with
    | nil => cases h
    | cons a' as =>
      obtain ⟨ha, _⟩ := List.cons.inj hturns
      obtain rfl : a' = a := Turn.received.inj ha
      obtain ⟨b, w, hchunk⟩ := List.exists_cons_of_ne_nil a'.nonempty
      rw [bytes, List.flatMap_cons, hchunk, List.cons_append] at h haccepted
      rw [(List.cons.inj h).1, matchCondition_foreign hblank hc] at haccepted
      cases haccepted

/-- What `read` makes of an accepted range is not an empty response. -/
theorem populate_accepted {buffer : Streambuf UInt8} (h : (matchCondition buffer.data).2 = true) :
    populateResponseFromBuffer buffer Response.new ≠ Response.new := by
  intro heq
  have hcode : (parseResponse buffer.data Outputs.fresh).2.resultCode = .none :=
    congrArg Response.rc heq
  have hbody : (parseResponse buffer.data Outputs.fresh).2.body = [] := congrArg Response.body heq
  cases reading_cases buffer.data with
  | code hb hc =>
    rw [parse_code hb hc] at hcode
    exact ResultCode.mem_resultCodes.mp hc.coded hcode
  | report hb hfirst hw hc =>
    rw [parse_report hb hfirst hw hc] at hcode
    exact ResultCode.mem_resultCodes.mp hc.coded hcode
  | lines hb hfirst hw hfinal =>
    obtain ⟨_, c, t, hparse, _⟩ := parse_lines hb hfirst hw hfinal
    rw [hparse] at hbody
    cases hbody
  | prompt hb hy hw =>
    rw [(parse_prompt hb hy hw).2] at hbody
    simp at hbody
  | rejected hno =>
    rw [matchCondition_rejected hno] at h
    cases h

theorem read_populates {s : ReadState} (h : (read s).1.ec = false) (hmsg : s.msg = Response.new) :
    (read s).1.after ≠ Response.new := by
  obtain ⟨hec, hdata⟩ := readUntil_taken matchCondition_resumable s.buffer s.turns
  have hread : (readUntil matchCondition s.buffer s.turns).ec = false := h
  rw [hread, ← hdata, eq_comm, Bool.not_eq_false'] at hec
  have hafter : (read s).1.after = populateResponseFromBuffer
      ((readUntil matchCondition s.buffer s.turns).buf.commit
        (readUntil matchCondition s.buffer s.turns).count) Response.new := by
    rw [← hmsg]
    simp only [read, deliver, hread]
    rfl
  rw [hafter]
  exact populate_accepted (accepts_append hec _)

theorem read_message (m : CompleteMessage) {as : List (Arrival UInt8)} (h : bytes as = m.bytes)
    (turns : List (Turn UInt8)) (area : List UInt8) :
    (read (startOn as turns area)).1.ec = false := by
  have haccepted : (matchCondition ([] ++ bytes as)).2 = true := by
    rw [List.nil_append, h, ← List.append_nil m.bytes, m.matchCondition_eq]
  obtain ⟨as', tail, _, hnext⟩ := nextMessage_in haccepted turns
  exact congrArg Outcome.ec (@NextMessage.readUntil ⟨[], area⟩ _ _ _ _ hnext)

/-- Behind the echo of a request no message is read: the read goes on until the stream fails and
leaves the response empty, whatever the request and the message are and however the two are cut. -/
theorem echo_not_tolerated (r : Request) (m : CompleteMessage) (as as' : List (Arrival UInt8))
    (h : bytes as = echo r ++ m.bytes) (h' : bytes as' = m.bytes) (turns turns' : List (Turn UInt8))
    (area area' : List UInt8) :
    ∀ reader ∈ [read, firstAsyncRead], (reader (startOn as turns area)).1.ec = true ∧
      (reader (startOn as turns area)).1.after ≠ (reader (startOn as' turns' area')).1.after := by
  have hforeign : (read (startOn as turns area)).1.ec = true := by
    obtain ⟨v, hv⟩ := echo_begins r
    rw [hv, List.cons_append] at h
    exact read_foreign h (by decide) (by decide) turns area
  have hempty : (read (startOn as turns area)).1.after = Response.new := if_pos hforeign
  have halone := read_populates (read_message m h' turns' area') rfl
  simp only [List.forall_mem_cons, ← read_record, hforeign, hempty]
  exact ⟨⟨trivial, halone.symm⟩, ⟨trivial, halone.symm⟩, fun _ hmem => (List.not_mem_nil hmem).elim⟩

/-- AT with its echo, in one piece. -/
theorem echo_not_tolerated_at :
    let echoed : Arrival UInt8 := ⟨ascii "AT\r\r\nOK\r\n", [], by decide⟩
    let alone : Arrival UInt8 := ⟨ascii "\r\nOK\r\n", [], by decide⟩
    echoed.chunk = echo makeAt ++ alone.chunk ∧
      (read (startOn [echoed] [] [])).1.ec = true ∧
      (read (startOn [echoed] [] [])).1.after = Response.new ∧
      (read (startOn [alone] [] [])).1.after = ⟨.ok, [], []⟩ := by
  intro echoed alone
  exact ⟨by decide, by decide, by decide, by decide⟩

theorem echo_not_tolerated_cut :
    let early : Arrival UInt8 := ⟨ascii "ATD12", [], by decide⟩
    let late : Arrival UInt8 := ⟨ascii "\r\r\nBUSY\r\n", [], by decide⟩
    let alone : Arrival UInt8 := ⟨ascii "\r\nBUSY\r\n", [], by decide⟩
    (read (startOn [early, late] [] [])).1.after ≠ (read (startOn [alone] [] [])).1.after :=
  (echo_not_tolerated (makeAtd (ascii "12"))
    (FinalCode.message ⟨.busy, [], by decide, by decide, by decide⟩) [_, _] [_]
    (by decide) (by decide) [] [] [] [] read List.mem_cons_self).2

end Ringbeller
