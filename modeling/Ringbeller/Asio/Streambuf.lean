import Mathlib.Data.List.Basic

/-!
# Stream buffers

An input sequence that is read from the front, and the output area that was prepared
behind it. What the area holds is known only where something has been written to it.
-/

namespace Asio
set_option autoImplicit false

variable {β : Type}

/-- `data` is the input sequence, `area` what is left of the prepared output area. -/
structure Streambuf (β : Type) where
  data : List β
  area : List β
  deriving Repr, DecidableEq

/-- One completed read of the stream: its bytes, and the rest of the area prepared for them. -/
structure Arrival (β : Type) where
  chunk : List β
  spare : List β
  nonempty : chunk ≠ []
  deriving Repr, DecidableEq

inductive Turn (β : Type) where
  | received (a : Arrival β)
  | failed
  deriving Repr, DecidableEq

def bytes (as : List (Arrival β)) : List β := as.flatMap Arrival.chunk

namespace Streambuf

/-- No area is used before the first `prepare`. -/
def new : Streambuf β := ⟨[], []⟩

def commit (n : Nat) (b : Streambuf β) : Streambuf β := ⟨b.data ++ b.area.take n, b.area.drop n⟩

def consume (n : Nat) (b : Streambuf β) : Streambuf β := { b with data := b.data.drop n }

/-- `prepare`, the read into the area, and the `commit` of what was read. -/
def receive (b : Streambuf β) (a : Arrival β) : Streambuf β :=
  ({ b with area := a.chunk ++ a.spare } : Streambuf β).commit a.chunk.length

def receiveAll (b : Streambuf β) (as : List (Arrival β)) : Streambuf β := as.foldl receive b

theorem commit_zero (b : Streambuf β) : b.commit 0 = b := by
  simp [commit]

theorem consume_zero (b : Streambuf β) : b.consume 0 = b := rfl

@[simp] theorem consume_area (n : Nat) (b : Streambuf β) : (b.consume n).area = b.area := rfl

theorem receive_eq (b : Streambuf β) (a : Arrival β) :
    b.receive a = ⟨b.data ++ a.chunk, a.spare⟩ := by
  simp [receive, commit]

@[simp] theorem receiveAll_nil (b : Streambuf β) : b.receiveAll [] = b := rfl

theorem receiveAll_cons (b : Streambuf β) (a : Arrival β) (as : List (Arrival β)) :
    b.receiveAll (a :: as) = (b.receive a).receiveAll as := rfl

theorem receiveAll_data (b : Streambuf β) (as : List (Arrival β)) :
    (b.receiveAll as).data = b.data ++ bytes as := by
  induction as generalizing b with
  | nil => simp [bytes]
  | cons a as ih =>
    rw [receiveAll_cons, ih, receive_eq]
    simp [bytes]

theorem receiveAll_area (b : Streambuf β) {as : List (Arrival β)} {a : Arrival β}
    (h : as.getLast? = some a) : (b.receiveAll as).area = a.spare := by
  obtain ⟨as, rfl⟩ := List.getLast?_eq_some_iff.mp h
  rw [receiveAll, List.foldl_append, List.foldl_cons, List.foldl_nil, receive_eq]

theorem consume_commit {n : Nat} {b : Streambuf β} (h : n ≤ b.data.length) :
    ((b.commit n).consume n).data = b.data.drop n ++ b.area.take n := by
  simp [commit, consume, List.drop_append_of_le_length h]

end Streambuf

end Asio
