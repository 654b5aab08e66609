import Ringbeller.Lib.Write

/-!
# What the asynchronous writes transmit

`async_write` and `async_write_text` hand a view of a local string to the stream. The string
lives until they return, which may be before the stream has taken all of it.
-/

namespace Ringbeller
set_option autoImplicit false

open Asio

/-- What an asynchronous write is given. -/
inductive Sending where
  | request (msg : Request)
  | text (content : List UInt8)
  deriving Repr, DecidableEq

namespace Sending

/-- The local string. -/
def string : Sending → List UInt8
  | .request msg => toString msg
  | .text content => content ++ [26]

def start : Sending → List (Put UInt8) → Writing × List UInt8 × List (Put UInt8)
  | .request msg => asyncWrite msg
  | .text content => asyncWriteText content

/-- What the handler is called with, and all that has been sent by then. -/
def transmitted (x : Sending) (puts : List (Put UInt8)) : Written UInt8 :=
  let started := x.start puts
  let w := asyncWriteCompletes started.1 started.2.2
  { w with sent := started.2.1 ++ w.sent }

/-- The stream takes all of the string before the return, or each later short write finds the rest
of it where it was. -/
def Outlives (x : Sending) : List (Put UInt8) → Prop
  | .accepted n _ :: puts =>
    x.string.length ≤ n ∨ Intact x.string (.writing n x.string.length) puts
  | _ => True

instance (x : Sending) : (puts : List (Put UInt8)) → Decidable (x.Outlives puts)
  | [] => .isTrue trivial
  | .failed :: _ => .isTrue trivial
  | .accepted n _ :: puts => inferInstanceAs (Decidable
      (x.string.length ≤ n ∨ Intact x.string (.writing n x.string.length) puts))

/-- The string has been sent, which is what `write` sends for a request. -/
structure SendsAsWrite (x : Sending) (sent : List UInt8) : Prop where
  whole : sent = x.string
  asWrite : ∀ msg, x = .request msg → ∀ puts, (write msg puts).ec = false →
    sent = (write msg puts).sent

theorem start_eq (x : Sending) (puts : List (Put UInt8)) :
    x.start puts = Asio.asyncWrite x.string puts := by
  cases x with
  | request msg => rfl
  | text content => rfl

theorem outlives_iff (x : Sending) (puts : List (Put UInt8)) :
    x.Outlives puts ↔ Intact x.string (x.start puts).1 (x.start puts).2.2 := by
  rw [start_eq]
  cases puts with
  | nil => simp only [Outlives, Asio.asyncWrite, Intact]
  | cons put puts =>
    cases put with
    | failed => simp only [Outlives, Asio.asyncWrite, Intact]
    | accepted n memory =>
      by_cases hn : x.string.length ≤ n
      · simp only [Outlives, Asio.asyncWrite, hn, true_or, if_true, Intact]
      · simp only [Outlives, Asio.asyncWrite, hn, false_or, if_false]

theorem sendsAsWrite_iff (x : Sending) (sent : List UInt8) :
    x.SendsAsWrite sent ↔ sent = x.string := by
  constructor
  · intro h
    exact h.whole
  · intro h
    refine ⟨h, ?_⟩
    rintro msg rfl puts hec
    exact h.trans ((write_sent (toString msg) puts).2.mp hec).symm

/-- An asynchronous write that its handler is told to have succeeded has sent what `write` sends
exactly when the memory of its string has outlived the string. -/
theorem transmitted_iff (x : Sending) (puts : List (Put UInt8))
    (h : (x.transmitted puts).ec = false) :
    x.SendsAsWrite (x.transmitted puts).sent ↔ x.Outlives puts := by
  rw [sendsAsWrite_iff, outlives_iff]
  simp only [transmitted, start_eq] at h ⊢
  exact asyncWrite_intact h

/-- The stream takes two bytes of the string while it lives, and others from its place. -/
theorem transmitted_short :
    let puts : List (Put UInt8) := [.accepted 2 [], .accepted 8 (List.replicate 8 0)]
    ((Sending.request makeAt).transmitted puts).ec = false ∧
      ((Sending.request makeAt).transmitted puts).sent = ascii "AT" ++ [0, 0] ∧
      (write makeAt puts).sent = ascii "AT\r\n" ∧
      ((Sending.text (ascii "Hello")).transmitted puts).ec = false ∧
      ¬ (Sending.text (ascii "Hello")).SendsAsWrite
        ((Sending.text (ascii "Hello")).transmitted puts).sent := by
  refine ⟨by decide, by decide, by decide, by decide, fun h => absurd h.whole ?_⟩
  decide

/-- The same short write, and the string has stayed where it was. -/
theorem transmitted_intact :
    let puts : List (Put UInt8) := [.accepted 2 [], .accepted 8 (ascii "AT\r\n")]
    (Sending.request makeAt).SendsAsWrite ((Sending.request makeAt).transmitted puts).sent :=
  (transmitted_iff (.request makeAt) _ (by decide)).mpr (by decide)

end Sending

end Ringbeller
