import Ringbeller.Asio.Retries
import Ringbeller.Lib.Streams

/-!
# Calls of read that go on after failures

A caller that calls `read` again on the same buffer when it has failed.
-/

namespace Ringbeller
set_option autoImplicit false

open Asio X3

/-- The calls that have succeeded. -/
def succeeded (calls : List (ReadRecord × List UInt8)) : List (ReadRecord × List UInt8) :=
  calls.filter fun c => !c.1.ec

def ReadState.unfailing (s : ReadState) : ReadState := { s with turns := Asio.unfailing s.turns }

def codes (fs : List FinalCode) : List Transmission := fs.map fun f => .reply f.message

/-- Whatever of a stream of result-code messages has been received, the first of them is there as a
whole when it is accepted, and is taken alone. -/
theorem code_taken {f : FinalCode} {fs : List FinalCode} {b left : List UInt8}
    (hb : b <+: stream (codes (f :: fs))) (h : matchCondition b = (left, true)) :
    b = f.message.bytes ++ left := by
  have hstream : stream (codes (f :: fs)) = f.message.bytes ++ stream (codes fs) := rfl
  rw [hstream] at hb
  have hacc : (matchCondition b).2 = true := by rw [h]
  have hprefix : b <+: (Transmission.reply f.message).bytes ++ stream (codes fs) := hb
  have hlen : f.message.firstStop ≤ b.length := (stream_accepts hprefix).mp hacc
  rw [CompleteMessage.firstStop_code rfl] at hlen
  obtain ⟨w, rfl⟩ := List.prefix_of_prefix_length_le (List.prefix_append _ _) hb hlen
  rw [List.prefix_append_right_inj] at hb
  have hend := (ends_iff (.reply f.message) hb).mpr trivial
  have hleft : left = w := congrArg Prod.fst (h.symm.trans hend)
  rw [hleft]

theorem codes_accepted {f : FinalCode} {fs : List FinalCode} :
    (matchCondition (stream (codes (f :: fs)))).2 = true :=
  congrArg Prod.snd
    ((ends_iff (.reply f.message) (List.prefix_rfl (l := stream (codes fs)))).mpr trivial)

theorem arrivals_append {β : Type} (as : List (Arrival β)) (rest : List (Turn β)) :
    arrivals (as.map .received ++ rest) = as ++ arrivals rest := by
  induction as with
  | nil => rfl
  | cons a as ih => exact congrArg (a :: ·) ih

theorem failures_append {β : Type} (as : List (Arrival β)) (rest : List (Turn β)) :
    failures (as.map .received ++ rest) = failures rest := by
  induction as with
  | nil => rfl
  | cons a as ih => rw [List.map_cons, List.cons_append, failures_received, ih]

/-- The calls that have succeeded deliver the first of the messages, each with its own count. -/
structure Reported (fs : List FinalCode) (done : List (ReadRecord × List UInt8)) : Prop where
  each : done.map (fun c => (c.1.count, c.1.after)) =
    (fs.take done.length).map fun f => (f.message.bytes.length, f.message.response)
  most : done.length ≤ fs.length

/-- What a failed call does where the chunks fill the areas prepared for them. -/
theorem read_unfinished {held : List UInt8} {turns : List (Turn UInt8)} {msg : Response}
    (hfull : ∀ a ∈ arrivals turns, a.spare = [])
    (h : (read ⟨turns, ⟨held, []⟩, msg⟩).1.ec = true) :
    ∃ as rest, arrivals turns = as ++ arrivals rest ∧
      (failures rest + 1 = failures turns ∨ rest = []) ∧
      (matchCondition (held ++ bytes as)).2 = false ∧
      (read ⟨turns, ⟨held, []⟩, msg⟩).2 = ⟨rest, ⟨held ++ bytes as, []⟩, msg⟩ := by
  have hec : (readUntil matchCondition ⟨held, []⟩ turns).ec = true := h
  have hunmatched := readUntil_unmatched matchCondition_resumable hec
  have hrejected := readUntil_rejected matchCondition_resumable hec
  obtain ⟨hsplit, _, hfailed⟩ := readUntil_arrivals ⟨held, []⟩ turns
  have hbuf := hunmatched.buf_eq
  rw [receiveAll_filled fun a ha => hfull a (hsplit ▸ List.mem_append_left _ ha)] at hbuf
  rw [hbuf] at hrejected
  refine ⟨_, _, hsplit, (hfailed hec).imp_right And.right, hrejected, ?_⟩
  simp only [read, deliver, hec, if_true, hunmatched.count_eq, Streambuf.commit_zero,
    Streambuf.consume_zero, hbuf]

theorem reads_codes_from (k : Nat) {fs : List FinalCode} {held : List UInt8}
    {turns : List (Turn UInt8)} (hstream : held ++ bytes (arrivals turns) = stream (codes fs))
    (hfull : ∀ a ∈ arrivals turns, a.spare = []) (msg : Response) :
    Reported fs (succeeded (reads k ⟨turns, ⟨held, []⟩, msg⟩)) ∧
      (fs.length + failures turns ≤ k →
        (succeeded (reads k ⟨turns, ⟨held, []⟩, msg⟩)).length = fs.length) := by
  induction k generalizing fs held turns msg with
  | zero =>
    refine ⟨⟨rfl, Nat.zero_le _⟩, fun h => ?_⟩
    have hnone : fs.length = 0 := by omega
    exact hnone.symm
  | succ k ih =>
    cases h : (read ⟨turns, ⟨held, []⟩, Response.new⟩).1.ec with
    | true =>
      obtain ⟨as, rest, hsplit, hfailed, hrejected, hleft⟩ := read_unfinished hfull h
      have hreads : succeeded (reads (k + 1) ⟨turns, ⟨held, []⟩, msg⟩) =
          succeeded (reads k ⟨rest, ⟨held ++ bytes as, []⟩, Response.new⟩) := by
        simp only [reads, succeeded, hleft]
        rw [List.filter_cons_of_neg (by simp [h])]
      rw [hreads]
      rw [hsplit, bytes_append, ← List.append_assoc] at hstream
      obtain ⟨hreported, hall⟩ :=
        ih hstream (fun a ha => hfull a (hsplit ▸ List.mem_append_right as ha)) Response.new
      refine ⟨hreported, fun hk => ?_⟩
      rcases hfailed with hone | rfl
      · apply hall
        omega
      · -- The stream is closed: nothing is left in the buffer, as it would be accepted.
        cases fs with
        | nil =>
          apply hall
          exact Nat.zero_le _
        | cons f fs =>
          have hwhole : held ++ bytes as = stream (codes (f :: fs)) := by
            rw [← hstream]
            exact (List.append_nil _).symm
          rw [hwhole, codes_accepted] at hrejected
          cases hrejected
    | false =>
      obtain ⟨as, left, rest, hnext⟩ := read_ok h
      have hturns : turns = as.map .received ++ rest := hnext.turns
      have harrivals : arrivals turns = as ++ arrivals rest := by rw [hturns, arrivals_append]
      have hfailures : failures turns = failures rest := by rw [hturns, failures_append]
      have hread := read_filled hnext
        (fun a ha => hfull a (harrivals ▸ List.mem_append_left _ ha)) Response.new
      rw [harrivals, bytes_append, ← List.append_assoc] at hstream
      have hbegins : held ++ bytes as <+: stream (codes fs) := ⟨_, hstream⟩
      cases fs with
      | nil =>
        have hnothing : held ++ bytes as = [] := List.prefix_nil.mp hbegins
        have hacc : (matchCondition []).2 = true := by rw [← hnothing, hnext.accepted]
        exact absurd hacc (by decide)
      | cons f fs =>
        have htaken := code_taken hbegins hnext.accepted
        rw [htaken, List.append_assoc] at hstream
        have hrest : left ++ bytes (arrivals rest) = stream (codes fs) :=
          List.append_cancel_left hstream
        have hdelivered := populate_message f.message left [] Response.new
        rw [htaken, hdelivered] at hread
        obtain ⟨⟨heach, hmost⟩, hall⟩ := ih hrest
          (fun a ha => hfull a (harrivals ▸ List.mem_append_right as ha))
          (f.message.addTo Response.new)
        have hreads : succeeded (reads (k + 1) ⟨turns, ⟨held, []⟩, msg⟩) =
            ((read ⟨turns, ⟨held, []⟩, Response.new⟩).1,
                (read ⟨turns, ⟨held, []⟩, Response.new⟩).2.buffer.data) ::
              succeeded (reads k (read ⟨turns, ⟨held, []⟩, Response.new⟩).2) := by
          simp only [reads, succeeded]
          rw [List.filter_cons_of_pos (by simp [h])]
        simp only [hread] at hreads
        rw [hreads]
        refine ⟨⟨?_, ?_⟩, fun hk => ?_⟩
        · rw [List.map_cons, heach, List.length_cons, List.take_succ_cons, List.map_cons]
          have hcount :
              (f.message.bytes ++ left).length - left.length = f.message.bytes.length := by
            rw [List.length_append, Nat.add_sub_cancel]
          rw [hcount]
          rfl
        · exact Nat.succ_le_succ hmost
        · rw [List.length_cons, hall, List.length_cons]
          rw [List.length_cons] at hk
          omega

/-- Where every chunk fills the area prepared for it, so that the second commit adds nothing, a
caller that goes on calling after failures receives the result-code messages of a stream one by one
and in order, and nothing else, however the stream is cut and wherever it fails. It has all of them
after as many calls as there are messages and failures. -/
theorem reads_codes (k : Nat) (fs : List FinalCode) (turns : List (Turn UInt8)) (msg : Response)
    (hstream : bytes (arrivals turns) = stream (codes fs))
    (hfull : ∀ a ∈ arrivals turns, a.spare = []) :
    Reported fs (succeeded (reads k ⟨turns, .new, msg⟩)) ∧
      (fs.length + failures turns ≤ k →
        (succeeded (reads k ⟨turns, .new, msg⟩)).length = fs.length) :=
  reads_codes_from k hstream hfull msg

/-- A failure inside of OK and a chunk that ends inside of BUSY. -/
theorem reads_codes_recovered :
    let ok : FinalCode := ⟨.ok, [], by decide, by decide, by decide⟩
    let busy : FinalCode := ⟨.busy, [], by decide, by decide, by decide⟩
    let turns : List (Turn UInt8) :=
      [.received ⟨ascii "\r\nO", [], by decide⟩, .failed,
        .received ⟨ascii "K\r\n\r\nBU", [], by decide⟩, .received ⟨ascii "SY\r\n", [], by decide⟩]
    Reported [ok, busy] (succeeded (reads 3 ⟨turns, .new, .new⟩)) ∧
      (succeeded (reads 3 ⟨turns, .new, .new⟩)).length = 2 := by
  intro ok busy turns
  obtain ⟨hreported, hall⟩ := reads_codes 3 [ok, busy] turns .new (by decide) (by decide)
  exact ⟨hreported, hall (by decide)⟩

/-- In areas of 512 bytes the zeros behind OK stay in front of BUSY. -/
example :
    let ok : Arrival UInt8 := ⟨ascii "\r\nOK\r\n", List.replicate 506 0, by decide⟩
    let busy : Arrival UInt8 := ⟨ascii "\r\nBUSY\r\n", List.replicate 504 0, by decide⟩
    (succeeded (reads 4 ⟨[.received ok, .received busy], .new, .new⟩)).length = 1 := by
  decide +kernel

end Ringbeller
