import Ringbeller.Asio.Retries

/-!
# What a stream can still bring

The bytes in the buffer and in its area, and those that the stream has left, with the areas that
will be prepared for them. No operation adds to them, and a read that finds something new takes of
them what it has found.
-/

namespace Asio
set_option autoImplicit false

variable {β : Type} {cond : MatchCondition β}

/-- All that a chunk puts into a buffer. -/
def Arrival.all (a : Arrival β) : List β := a.chunk ++ a.spare

def backlog (buf : Streambuf β) (turns : List (Turn β)) : Nat :=
  buf.data.length + buf.area.length + ((arrivals turns).flatMap Arrival.all).length

/-- An accepted range is more than what is left of it. -/
def Consuming (cond : MatchCondition β) : Prop :=
  ∀ x, (cond x).2 = true → (cond x).1.length < x.length

theorem backlog_commit (n : Nat) (buf : Streambuf β) (turns : List (Turn β)) :
    backlog (buf.commit n) turns = backlog buf turns := by
  simp only [backlog, Streambuf.commit, List.length_append, List.length_take, List.length_drop]
  omega

theorem backlog_consume (n : Nat) (buf : Streambuf β) (turns : List (Turn β)) :
    backlog (buf.consume n) turns = backlog buf turns - min n buf.data.length := by
  simp only [backlog, Streambuf.consume, List.length_drop]
  omega

theorem backlog_consume_le (n : Nat) (buf : Streambuf β) (turns : List (Turn β)) :
    backlog (buf.consume n) turns ≤ backlog buf turns := by
  rw [backlog_consume]
  exact Nat.sub_le _ _

theorem backlog_receive (buf : Streambuf β) (a : Arrival β) (turns : List (Turn β)) :
    backlog (buf.receive a) turns ≤ backlog buf (.received a :: turns) := by
  rw [Streambuf.receive_eq]
  simp only [backlog, arrivals_received, List.flatMap_cons, List.length_append, Arrival.all]
  omega

theorem search_found (hc : Consuming cond) {position n : Nat} {data : List β}
    (h : search cond position data = .found n) : 0 < n ∧ n ≤ data.length := by
  simp only [search] at h
  split at h
  · next hacc =>
    have hlen := hc _ hacc
    rw [List.length_drop] at hlen
    have hn := Search.found.inj h
    omega
  · cases h

theorem finish_backlog (op : Search) (buf : Streambuf β) (turns : List (Turn β)) :
    backlog (finish cond op buf turns).buf (finish cond op buf turns).turns ≤
      backlog buf turns := by
  induction turns generalizing op buf with
  | nil => cases op <;> rw [finish]
  | cons turn turns ih =>
    cases op with
    | found count => rw [finish]
    | searching position =>
      cases turn with
      | failed => rw [finish]; exact Nat.le_refl _
      | received a =>
        rw [finish]
        exact (ih _ (buf.receive a)).trans (backlog_receive buf a turns)

/-- A search that has gone on until something was found counts bytes that are in the buffer. -/
theorem finish_found (hc : Consuming cond) (position : Nat) (buf : Streambuf β)
    (turns : List (Turn β)) (h : (finish cond (.searching position) buf turns).ec = false) :
    0 < (finish cond (.searching position) buf turns).count ∧
      (finish cond (.searching position) buf turns).count ≤
        (finish cond (.searching position) buf turns).buf.data.length := by
  induction turns generalizing position buf with
  | nil =>
    rw [finish] at h
    cases h
  | cons turn turns ih =>
    cases turn with
    | failed =>
      rw [finish] at h
      cases h
    | received a =>
      rw [finish] at h ⊢
      cases hs : search cond position (buf.receive a).data with
      | found n =>
        rw [finish]
        exact search_found hc hs
      | searching next =>
        rw [hs] at h
        exact ih next (buf.receive a) h

end Asio
