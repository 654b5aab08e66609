import Ringbeller.Asio.Searches

/-!
# Reading on after failures

What a stream sends, its failures left out, and what a read of it is in comparison with one of
a stream that never fails.
-/

namespace Asio
set_option autoImplicit false

variable {β : Type} {cond : MatchCondition β}

/-- What a stream sends. -/
def arrivals (turns : List (Turn β)) : List (Arrival β) :=
  turns.filterMap fun
    | .received a => some a
    | .failed => none

/-- The same stream without its failures. -/
def unfailing (turns : List (Turn β)) : List (Turn β) := (arrivals turns).map .received

def failures (turns : List (Turn β)) : Nat :=
  turns.countP fun
    | .received _ => false
    | .failed => true

@[simp] theorem arrivals_received (a : Arrival β) (turns : List (Turn β)) :
    arrivals (.received a :: turns) = a :: arrivals turns := rfl

@[simp] theorem arrivals_failed (turns : List (Turn β)) :
    arrivals (.failed :: turns) = arrivals turns := rfl

@[simp] theorem unfailing_received (a : Arrival β) (turns : List (Turn β)) :
    unfailing (.received a :: turns) = .received a :: unfailing turns := rfl

@[simp] theorem unfailing_failed (turns : List (Turn β)) :
    unfailing (.failed :: turns) = unfailing turns := rfl

@[simp] theorem failures_received (a : Arrival β) (turns : List (Turn β)) :
    failures (.received a :: turns) = failures turns := by
  simp [failures]

@[simp] theorem failures_failed (turns : List (Turn β)) :
    failures (.failed :: turns) = failures turns + 1 := by
  simp [failures]

/-- A read takes what the stream sends from its front. It uses up a failure when it fails, unless
the stream is closed. -/
theorem finish_arrivals (op : Search) (buf : Streambuf β) (turns : List (Turn β)) :
    arrivals turns =
        (finish cond op buf turns).taken ++ arrivals (finish cond op buf turns).turns ∧
      ((finish cond op buf turns).ec = false →
        failures (finish cond op buf turns).turns = failures turns) ∧
      ((finish cond op buf turns).ec = true →
        failures (finish cond op buf turns).turns + 1 = failures turns ∨
          failures turns = 0 ∧ (finish cond op buf turns).turns = []) := by
  induction turns generalizing op buf with
  | nil =>
    cases op with
    | found count =>
      rw [finish]
      exact ⟨rfl, fun _ => rfl, fun h => by cases h⟩
    | searching position =>
      rw [finish]
      refine ⟨rfl, fun h => ?_, fun _ => Or.inr ⟨rfl, rfl⟩⟩
      cases h
  | cons turn turns ih =>
    cases op with
    | found count =>
      rw [finish]
      exact ⟨rfl, fun _ => rfl, fun h => by cases h⟩
    | searching position =>
      cases turn with
      | failed =>
        rw [finish]
        refine ⟨rfl, fun h => ?_, fun _ => Or.inl (failures_failed turns).symm⟩
        cases h
      | received a =>
        rw [finish, arrivals_received, failures_received]
        obtain ⟨hsplit, hrest⟩ :=
          ih (search cond position (buf.receive a).data) (buf.receive a)
        exact ⟨congrArg (a :: ·) hsplit, hrest⟩

theorem readUntil_arrivals (buf : Streambuf β) (turns : List (Turn β)) :
    arrivals turns =
        (readUntil cond buf turns).taken ++ arrivals (readUntil cond buf turns).turns ∧
      ((readUntil cond buf turns).ec = false →
        failures (readUntil cond buf turns).turns = failures turns) ∧
      ((readUntil cond buf turns).ec = true →
        failures (readUntil cond buf turns).turns + 1 = failures turns ∨
          failures turns = 0 ∧ (readUntil cond buf turns).turns = []) :=
  finish_arrivals (search cond 0 buf.data) buf turns

/-- What a failed read leaves in the buffer is not accepted. -/
theorem readUntil_rejected (hr : Resumable cond) {buf : Streambuf β} {turns : List (Turn β)}
    (h : (readUntil cond buf turns).ec = true) :
    (cond (readUntil cond buf turns).buf.data).2 = false := by
  induction turns generalizing buf with
  | nil =>
    cases hc : (cond buf.data).2 with
    | true =>
      rw [readUntil_found hc] at h
      cases h
    | false =>
      rw [readUntil_closed hc]
      exact hc
  | cons turn turns ih =>
    cases hc : (cond buf.data).2 with
    | true =>
      rw [readUntil_found hc] at h
      cases h
    | false =>
      cases turn with
      | failed =>
        rw [readUntil_failed hc]
        exact hc
      | received a =>
        rw [readUntil_received hr hc] at h ⊢
        exact ih h

end Asio
