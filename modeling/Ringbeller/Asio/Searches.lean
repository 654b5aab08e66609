import Ringbeller.Asio.ReadUntil

/-!
# The searches of a read, and failed reads

What each search of an operation finds, and what an operation leaves when the stream fails
before the condition is met.
-/

namespace Asio
set_option autoImplicit false

variable {β : Type} {cond : MatchCondition β}

/-- The searches of the operation, each with the input sequence that it was made on. -/
def searches (cond : MatchCondition β) :
    Search → Streambuf β → List (Turn β) → List (Search × List β)
  | .found count, buf, _ => [(.found count, buf.data)]
  | .searching position, buf, [] => [(.searching position, buf.data)]
  | .searching position, buf, .failed :: _ => [(.searching position, buf.data)]
  | .searching position, buf, .received a :: turns =>
    (.searching position, buf.data) ::
      searches cond (search cond position (buf.receive a).data) (buf.receive a) turns

/-- What the operation reports when this was its last search. -/
def Search.Reported (op : Search) (o : Outcome β) : Prop :=
  match op with
  | .found count => o.ec = false ∧ o.count = count
  | .searching _ => o.ec = true ∧ o.count = 0

theorem searches_last (op : Search) (buf : Streambuf β) (turns : List (Turn β)) :
    ∃ last, (searches cond op buf turns).getLast? =
        some (last, (finish cond op buf turns).buf.data) ∧
      last.Reported (finish cond op buf turns) := by
  induction turns generalizing op buf with
  | nil =>
    cases op with
    | found count => exact ⟨.found count, rfl, rfl, rfl⟩
    | searching position => exact ⟨.searching position, rfl, rfl, rfl⟩
  | cons turn turns ih =>
    cases op with
    | found count => exact ⟨.found count, rfl, rfl, rfl⟩
    | searching position =>
      cases turn with
      | failed => exact ⟨.searching position, rfl, rfl, rfl⟩
      | received a =>
        obtain ⟨last, hlast, hreported⟩ :=
          ih (search cond position (buf.receive a).data) (buf.receive a)
        refine ⟨last, ?_, hreported⟩
        rw [searches, List.getLast?_cons, hlast]
        rfl

theorem search_goes_on (hr : Resumable cond) {data : List β} {position : Nat}
    (h : search cond 0 data = .searching position) (w : List β) :
    search cond position (data ++ w) = search cond 0 (data ++ w) := by
  cases hc : (cond data).2 with
  | true =>
    rw [search_accepted hc] at h
    cases h
  | false =>
    rw [search_rejected hc] at h
    obtain rfl := Search.searching.inj h
    exact search_resume hr hc w

/-- Every search finds what a search from the start of the buffer would. -/
theorem searches_from_start (hr : Resumable cond) {op : Search} {buf : Streambuf β}
    {turns : List (Turn β)} (hop : search cond 0 buf.data = op) :
    ∀ x ∈ searches cond op buf turns, x.1 = search cond 0 x.2 := by
  have hlast : ∀ {op : Search} {buf : Streambuf β}, search cond 0 buf.data = op →
      ∀ x ∈ [(op, buf.data)], x.1 = search cond 0 x.2 := by
    intro op buf hop x hx
    rw [List.mem_singleton.mp hx, hop]
  induction turns generalizing op buf with
  | nil => cases op <;> exact hlast hop
  | cons turn turns ih =>
    cases op with
    | found count => exact hlast hop
    | searching position =>
      cases turn with
      | failed => exact hlast hop
      | received a =>
        have hnext : search cond 0 (buf.receive a).data =
            search cond position (buf.receive a).data := by
          rw [Streambuf.receive_eq]
          exact (search_goes_on hr hop a.chunk).symm
        intro x hx
        rcases List.mem_cons.mp hx with rfl | hx
        · exact hop.symm
        · exact ih hnext x hx

/-! ## Failed reads -/

/-- The operation has ended without a match: it counts nothing, everything that it has received
is in the buffer, and no range on the way was accepted. -/
structure Unmatched (cond : MatchCondition β) (buf : Streambuf β) (o : Outcome β) : Prop where
  count_eq : o.count = 0
  buf_eq : o.buf = buf.receiveAll o.taken
  undecided : Undecided cond buf.data o.taken

theorem readUntil_unmatched (hr : Resumable cond) {buf : Streambuf β} {turns : List (Turn β)}
    (h : (readUntil cond buf turns).ec = true) : Unmatched cond buf (readUntil cond buf turns) := by
  induction turns generalizing buf with
  | nil =>
    cases hc : (cond buf.data).2 with
    | true =>
      rw [readUntil_found hc] at h
      cases h
    | false =>
      rw [readUntil_closed hc]
      exact ⟨rfl, rfl, undecided_nil⟩
  | cons turn turns ih =>
    cases hc : (cond buf.data).2 with
    | true =>
      rw [readUntil_found hc] at h
      cases h
    | false =>
      cases turn with
      | failed =>
        rw [readUntil_failed hc]
        exact ⟨rfl, rfl, undecided_nil⟩
      | received a =>
        have hdata : (buf.receive a).data = buf.data ++ a.chunk := by rw [Streambuf.receive_eq]
        rw [readUntil_received hr hc] at h ⊢
        obtain ⟨hcount, hbuf, hundecided⟩ := ih h
        rw [hdata] at hundecided
        exact ⟨hcount, hbuf, undecided_cons.mpr ⟨hc, hundecided⟩⟩

/-- A read of the buffer that a failed one has left goes on as one read of the whole would. -/
theorem Unmatched.goes_on (hr : Resumable cond) {buf : Streambuf β} {o : Outcome β}
    (h : Unmatched cond buf o) (turns : List (Turn β)) :
    readUntil cond buf (o.taken.map .received ++ turns) =
      (readUntil cond o.buf turns).took o.taken := by
  rw [readUntil_takes hr h.undecided, h.buf_eq]

end Asio
