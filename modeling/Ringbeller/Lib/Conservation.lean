import Mathlib.Algebra.Ring.Nat
import Ringbeller.Lib.Read

/-!
# What is left of the stream between two reads

Successive calls of `read` on one buffer. `read_until` has committed what it received, so
the second commit appends whatever the prepared area holds behind it.
-/

namespace Ringbeller
set_option autoImplicit false

open Asio

/-- Successive calls, each with a new message: what each has done, and the input sequence
that it leaves. -/
def reads : Nat → ReadState → List (ReadRecord × List UInt8)
  | 0, _ => []
  | k + 1, s =>
    let called := read { s with msg := Response.new }
    (called.1, called.2.buffer.data) :: reads k called.2

/-- The bytes held before the calls and received by them, without those that they counted. -/
def remaining (held : List UInt8) (calls : List (ReadRecord × List UInt8)) : List UInt8 :=
  (held ++ calls.flatMap fun c => c.1.received).drop (calls.map fun c => c.1.count).sum

/-- Every call is given first, and leaves, exactly what remains at that time. -/
def Conserved (held : List UInt8) (calls : List (ReadRecord × List UInt8)) : Prop :=
  ∀ past call behind, calls = past ++ call :: behind →
    call.1.held = remaining held past ∧ call.2 = remaining held (past ++ [call])

/-- The chunk that completes a message fills the output area prepared for it. -/
def FillsArea (as : List (Arrival UInt8)) : Prop := ∀ a, as.getLast? = some a → a.spare = []

/-- Each of the next `k` messages on the stream, `held` in front of it, is completed by a chunk
that fills its area. -/
inductive FillAreas : Nat → List UInt8 → List (Turn UInt8) → Prop where
  | none {held : List UInt8} {turns : List (Turn UInt8)} : FillAreas 0 held turns
  | message {k : Nat} {held left : List UInt8} {turns rest : List (Turn UInt8)}
      {as : List (Arrival UInt8)} (hnext : NextMessage held turns as left rest)
      (hfills : FillsArea as) (h : FillAreas k left rest) : FillAreas (k + 1) held turns

@[simp] theorem remaining_nil (held : List UInt8) : remaining held [] = held := by
  simp [remaining]

theorem remaining_cons {held : List UInt8} {call : ReadRecord × List UInt8}
    (h : call.1.count ≤ (held ++ call.1.received).length)
    (calls : List (ReadRecord × List UInt8)) :
    remaining held (call :: calls) =
      remaining ((held ++ call.1.received).drop call.1.count) calls := by
  simp only [remaining, List.flatMap_cons, List.map_cons, List.sum_cons, ← List.append_assoc]
  rw [← List.drop_drop, List.drop_append_of_le_length h]

theorem conserved_cons {held : List UInt8} {call : ReadRecord × List UInt8}
    (h : call.1.count ≤ (held ++ call.1.received).length)
    (calls : List (ReadRecord × List UInt8)) :
    Conserved held (call :: calls) ↔ call.1.held = held ∧
      call.2 = (held ++ call.1.received).drop call.1.count ∧
      Conserved ((held ++ call.1.received).drop call.1.count) calls := by
  constructor
  · intro hc
    obtain ⟨hheld, hleft⟩ := hc [] call calls rfl
    rw [List.nil_append, remaining_cons h, remaining_nil] at hleft
    refine ⟨by simpa using hheld, hleft, ?_⟩
    rintro past call' behind rfl
    have hrest := hc (call :: past) call' behind rfl
    rwa [List.cons_append, remaining_cons h, remaining_cons h] at hrest
  · rintro ⟨hheld, hleft, hc⟩ past call' behind heq
    cases past with
    | nil =>
      obtain ⟨rfl, rfl⟩ := List.cons.inj heq
      rw [List.nil_append, remaining_cons h, remaining_nil, remaining_nil]
      exact ⟨hheld, hleft⟩
    | cons call'' past =>
      obtain ⟨rfl, rfl⟩ := List.cons.inj heq
      rw [List.cons_append, remaining_cons h, remaining_cons h]
      exact hc past call' behind rfl

theorem fillsArea_iff {buf : Streambuf UInt8} {as : List (Arrival UInt8)}
    (harea : buf.area = [] ∨ (matchCondition buf.data).2 = false)
    (hacc : (matchCondition (buf.data ++ bytes as)).2 = true) :
    FillsArea as ↔ (buf.receiveAll as).area = [] := by
  cases hlast : as.getLast? with
  | none =>
    rw [List.getLast?_eq_none_iff] at hlast
    subst hlast
    rcases harea with harea | hrej
    · exact ⟨fun _ => harea, fun _ a ha => by cases ha⟩
    · rw [bytes, List.flatMap_nil, List.append_nil, hrej] at hacc
      cases hacc
  | some a =>
    rw [buf.receiveAll_area hlast]
    exact ⟨fun h => h a hlast, fun h a' ha' => by rw [hlast] at ha'; cases ha'; exact h⟩

structure Called (held : List UInt8) (as : List (Arrival UInt8)) (left : List UInt8)
    (rest : List (Turn UInt8)) (called : ReadRecord × ReadState) : Prop where
  held_eq : called.1.held = held
  count_le : called.1.count ≤ (held ++ called.1.received).length
  beyond : (held ++ called.1.received).drop called.1.count = left
  leaves_iff : called.2.buffer.data = left ↔ FillsArea as
  area_nil : FillsArea as → called.2.buffer.area = []
  turns_eq : called.2.turns = rest

theorem called_read {s : ReadState} {as : List (Arrival UInt8)} {left : List UInt8}
    {rest : List (Turn UInt8)} (h : NextMessage s.buffer.data s.turns as left rest)
    (harea : s.buffer.area = [] ∨ (matchCondition s.buffer.data).2 = false) :
    Called s.buffer.data as left rest (read s) := by
  have hacc : (matchCondition (s.buffer.data ++ bytes as)).2 = true := by rw [h.accepted]
  have hlt : left.length < (s.buffer.data ++ bytes as).length := by
    simpa only [h.accepted] using matchCondition_consumes hacc
  have hdata := s.buffer.receiveAll_data as
  have hbeyond : (s.buffer.data ++ (read s).1.received).drop (read s).1.count = left := h.beyond
  obtain ⟨n, hn⟩ : ∃ n, n = (s.buffer.data ++ bytes as).length - left.length := ⟨_, rfl⟩
  have hreceived : (read s).1.received = bytes as := by
    simp only [ReadRecord.received, read, deliver, h.readUntil]
  have hcount : (read s).1.count = n := by simp only [read, deliver, h.readUntil, hn]
  have hbuf : (read s).2.buffer = ((s.buffer.receiveAll as).commit n).consume n := by
    simp only [read, deliver, h.readUntil, hn]
  have hle : n ≤ (s.buffer.data ++ bytes as).length := by omega
  refine ⟨rfl, by rwa [hcount, hreceived], hbeyond, ?_, fun hfills => ?_, ?_⟩
  · rw [hreceived, hcount] at hbeyond
    rw [fillsArea_iff harea hacc, hbuf, Streambuf.consume_commit (by rwa [hdata]), hdata, hbeyond,
      List.append_right_eq_self, List.take_eq_nil_iff]
    exact ⟨fun h => h.resolve_left (by omega), Or.inr⟩
  · rw [hbuf, Streambuf.consume_area, Streambuf.commit, (fillsArea_iff harea hacc).mp hfills,
      List.drop_nil]
  · simp only [read, deliver, h.readUntil]

theorem reads_conserve {k : Nat} {s : ReadState} (h : ∀ c ∈ reads k s, c.1.ec = false)
    (harea : s.buffer.area = [] ∨ (matchCondition s.buffer.data).2 = false) :
    Conserved s.buffer.data (reads k s) ↔ FillAreas k s.buffer.data s.turns := by
  induction k generalizing s with
  | zero => exact ⟨fun _ => .none, fun _ past call behind heq => by simp [reads] at heq⟩
  | succ k ih =>
    have hcalled : ∀ {as left rest}, NextMessage s.buffer.data s.turns as left rest →
        Called s.buffer.data as left rest (read { s with msg := Response.new }) :=
      fun hnext => called_read (s := { s with msg := Response.new }) hnext harea
    have hfound : ∃ as left rest, NextMessage s.buffer.data s.turns as left rest :=
      read_ok (s := { s with msg := Response.new }) (h _ List.mem_cons_self)
    simp only [reads, List.forall_mem_cons] at h ⊢
    generalize read { s with msg := Response.new } = called at h hcalled ⊢
    have hrest : ∀ {as left rest}, Called s.buffer.data as left rest called → FillsArea as →
        (Conserved left (reads k called.2) ↔ FillAreas k left rest) := by
      intro as left rest hc hfills
      have hih := ih h.2 (Or.inl (hc.area_nil hfills))
      rwa [hc.leaves_iff.mpr hfills, hc.turns_eq] at hih
    constructor
    · obtain ⟨as, left, rest, hnext⟩ := hfound
      have hc := hcalled hnext
      rw [conserved_cons hc.count_le, hc.beyond]
      rintro ⟨_, hleft, hconserved⟩
      have hfills := hc.leaves_iff.mp hleft
      exact .message hnext hfills ((hrest hc hfills).mp hconserved)
    · intro hf
      cases hf with
      | message hnext hfills hf =>
        have hc := hcalled hnext
        rw [conserved_cons hc.count_le, hc.beyond]
        exact ⟨hc.held_eq, hc.leaves_iff.mpr hfills, (hrest hc hfills).mpr hf⟩

/-- Any number of successful calls on a new buffer: the bytes received and not yet counted
are what each call leaves and what the next one is given first, exactly when each message on
the stream is completed by a chunk that fills the prepared area. -/
theorem reads_conserve_iff (k : Nat) (turns : List (Turn UInt8)) (area : List UInt8)
    (h : ∀ c ∈ reads k ⟨turns, ⟨[], area⟩, Response.new⟩, c.1.ec = false) :
    Conserved [] (reads k ⟨turns, ⟨[], area⟩, Response.new⟩) ↔ FillAreas k [] turns :=
  reads_conserve h (Or.inr rfl)

theorem reads_conserve_ok :
    let ok : Arrival UInt8 := ⟨ascii "\r\nOK\r\n", List.replicate 506 0, by decide⟩
    (∀ c ∈ reads 1 ⟨[.received ok], ⟨[], []⟩, Response.new⟩, c.1.ec = false) ∧
      ¬ Conserved [] (reads 1 ⟨[.received ok], ⟨[], []⟩, Response.new⟩) := by
  refine ⟨by decide, fun h => ?_⟩
  have hleft := (h [] _ [] rfl).2
  revert hleft
  decide

/-- Both messages in one chunk that fills the area. -/
theorem reads_conserve_full :
    let both : Arrival UInt8 := ⟨ascii "\r\nRING\r\n\r\nOK\r\n", [], by decide⟩
    Conserved [] (reads 2 ⟨[.received both], ⟨[], []⟩, Response.new⟩) := by
  intro both
  have hfills : FillsArea [both] := by
    intro a ha
    obtain rfl : both = a := Option.some.inj ha
    rfl
  have hring : NextMessage [] [.received both] [both] (ascii "\r\nOK\r\n") [] :=
    ⟨rfl, undecided_cons.mpr ⟨by decide, undecided_nil⟩, by decide⟩
  have hok : NextMessage (ascii "\r\nOK\r\n") [] [] [] [] :=
    ⟨rfl, undecided_nil, by decide⟩
  exact (reads_conserve_iff 2 _ [] (by decide)).mpr
    (.message hring hfills (.message hok (fun _ ha => by cases ha) .none))

end Ringbeller
