import Mathlib.Data.List.Infix
import Ringbeller.Asio.Streambuf

/-!
# Reading until a condition accepts

`read_until` and `async_read_until` with a match condition, as documented: the buffer is
searched first, then after each read of the stream from the position that the condition
has returned.
-/

namespace Asio
set_option autoImplicit false

variable {β : Type}

/-- From a range to the iterator behind the match, or where the next search may start. -/
abbrev MatchCondition (β : Type) := List β → List β × Bool

/-- A search of the buffer: the length of the match or the position to go on from. -/
inductive Search where
  | found (count : Nat)
  | searching (position : Nat)
  deriving Repr, DecidableEq

def search (cond : MatchCondition β) (position : Nat) (data : List β) : Search :=
  let r := cond (data.drop position)
  if r.2 then .found (data.length - r.1.length) else .searching (data.length - r.1.length)

/-- How a read ends. `taken` are the arrivals that it has received, `turns` what the stream
will answer later. -/
structure Outcome (β : Type) where
  ec : Bool
  count : Nat
  buf : Streambuf β
  turns : List (Turn β)
  taken : List (Arrival β)
  deriving Repr, DecidableEq

namespace Outcome

def took (o : Outcome β) (as : List (Arrival β)) : Outcome β := { o with taken := as ++ o.taken }

end Outcome

/-- The operation from a search on. A stream that has no turn left is closed. -/
def finish (cond : MatchCondition β) : Search → Streambuf β → List (Turn β) → Outcome β
  | .found count, buf, turns => ⟨false, count, buf, turns, []⟩
  | .searching _, buf, [] => ⟨true, 0, buf, [], []⟩
  | .searching _, buf, .failed :: turns => ⟨true, 0, buf, turns, []⟩
  | .searching position, buf, .received a :: turns =>
    (finish cond (search cond position (buf.receive a).data) (buf.receive a) turns).took [a]

def readUntil (cond : MatchCondition β) (buf : Streambuf β) (turns : List (Turn β)) : Outcome β :=
  finish cond (search cond 0 buf.data) buf turns

/-! ## Resuming the search -/

/-- A condition for which the search may go on from the position it has returned. -/
structure Resumable (cond : MatchCondition β) : Prop where
  suffix : ∀ x, (cond x).1 <:+ x
  resume : ∀ x w, (cond x).2 = false → cond ((cond x).1 ++ w) = cond (x ++ w)

section Rules
variable {cond : MatchCondition β}

theorem search_accepted {data : List β} (h : (cond data).2 = true) :
    search cond 0 data = .found (data.length - (cond data).1.length) := by simp [search, h]

theorem search_rejected {data : List β} (h : (cond data).2 = false) :
    search cond 0 data = .searching (data.length - (cond data).1.length) := by simp [search, h]

theorem search_resume (hr : Resumable cond) {data : List β} (h : (cond data).2 = false)
    (w : List β) : search cond (data.length - (cond data).1.length) (data ++ w) =
      search cond 0 (data ++ w) := by
  obtain ⟨v, hv⟩ := hr.suffix data
  have hlen : data.length - (cond data).1.length = v.length := by
    have hl := congrArg List.length hv
    rw [List.length_append] at hl
    omega
  have hdrop : (data ++ w).drop v.length = (cond data).1 ++ w := by
    conv_lhs => rw [← hv, List.append_assoc, List.drop_left]
  simp only [search, hlen, hdrop, hr.resume data w h, List.drop_zero]

theorem readUntil_found {buf : Streambuf β} (h : (cond buf.data).2 = true)
    (turns : List (Turn β)) :
    readUntil cond buf turns =
      ⟨false, buf.data.length - (cond buf.data).1.length, buf, turns, []⟩ := by
  simp only [readUntil, search_accepted h, finish]

theorem readUntil_closed {buf : Streambuf β} (h : (cond buf.data).2 = false) :
    readUntil cond buf [] = ⟨true, 0, buf, [], []⟩ := by
  simp only [readUntil, search_rejected h, finish]

theorem readUntil_failed {buf : Streambuf β} (h : (cond buf.data).2 = false)
    (turns : List (Turn β)) :
    readUntil cond buf (.failed :: turns) = ⟨true, 0, buf, turns, []⟩ := by
  simp only [readUntil, search_rejected h, finish]

theorem readUntil_received (hr : Resumable cond) {buf : Streambuf β}
    (h : (cond buf.data).2 = false) (a : Arrival β) (turns : List (Turn β)) :
    readUntil cond buf (.received a :: turns) =
      (readUntil cond (buf.receive a) turns).took [a] := by
  have hdata : (buf.receive a).data = buf.data ++ a.chunk := by rw [Streambuf.receive_eq]
  simp only [readUntil, search_rejected h, finish, hdata, search_resume hr h]

/-- No range that ends with a chunk before the last one is accepted. -/
def Undecided (cond : MatchCondition β) (data : List β) (as : List (Arrival β)) : Prop :=
  ∀ as', as' <+: as → as' ≠ as → (cond (data ++ bytes as')).2 = false

theorem undecided_cons {data : List β} {a : Arrival β} {as : List (Arrival β)} :
    Undecided cond data (a :: as) ↔
      (cond data).2 = false ∧ Undecided cond (data ++ a.chunk) as := by
  constructor
  · intro h
    refine ⟨by simpa [bytes] using h [] (List.nil_prefix) (by simp), fun as' hp hne => ?_⟩
    have hcons := h (a :: as') (List.cons_prefix_cons.mpr ⟨rfl, hp⟩) (by simp [hne])
    simpa [bytes] using hcons
  · rintro ⟨h0, h⟩ as' hp hne
    cases as' with
    | nil => simpa [bytes] using h0
    | cons a' as' =>
      obtain ⟨rfl, hp'⟩ := List.cons_prefix_cons.mp hp
      simpa [bytes] using h as' hp' (fun he => hne (by rw [he]))

theorem undecided_nil {data : List β} : Undecided cond data [] := fun _ hp hne =>
  absurd (List.prefix_nil.mp hp) hne

theorem readUntil_takes (hr : Resumable cond) {buf : Streambuf β} {as : List (Arrival β)}
    (h : Undecided cond buf.data as) (turns : List (Turn β)) :
    readUntil cond buf (as.map .received ++ turns) =
      (readUntil cond (buf.receiveAll as) turns).took as := by
  induction as generalizing buf with
  | nil => rfl
  | cons a as ih =>
    obtain ⟨h0, has⟩ := undecided_cons.mp h
    rw [List.map_cons, List.cons_append, readUntil_received hr h0,
      ih (by rwa [Streambuf.receive_eq])]
    rfl

/-- The read stops at the first chunk whose end makes the range accepted. -/
theorem readUntil_stops (hr : Resumable cond) {buf : Streambuf β} {as : List (Arrival β)}
    (h : Undecided cond buf.data as) (hacc : (cond (buf.data ++ bytes as)).2 = true)
    (turns : List (Turn β)) :
    readUntil cond buf (as.map .received ++ turns) =
      ⟨false, (buf.data ++ bytes as).length - (cond (buf.data ++ bytes as)).1.length,
        buf.receiveAll as, turns, as⟩ := by
  have hdata := buf.receiveAll_data as
  rw [readUntil_takes hr h, readUntil_found (by rw [hdata]; exact hacc), hdata]
  simp [Outcome.took]

theorem readUntil_succeeded (hr : Resumable cond) {buf : Streambuf β} {turns : List (Turn β)}
    (h : (readUntil cond buf turns).ec = false) :
    ∃ as rest, turns = as.map .received ++ rest ∧ Undecided cond buf.data as ∧
      (cond (buf.data ++ bytes as)).2 = true := by
  induction turns generalizing buf with
  | nil =>
    cases hc : (cond buf.data).2 with
    | true => exact ⟨[], [], rfl, undecided_nil, by simpa [bytes] using hc⟩
    | false =>
      rw [readUntil_closed hc] at h
      cases h
  | cons turn turns ih =>
    cases hc : (cond buf.data).2 with
    | true => exact ⟨[], turn :: turns, rfl, undecided_nil, by simpa [bytes] using hc⟩
    | false =>
      cases turn with
      | failed =>
        rw [readUntil_failed hc] at h
        cases h
      | received a =>
        rw [readUntil_received hr hc] at h
        obtain ⟨as, rest, rfl, hund, hacc⟩ := ih h
        rw [Streambuf.receive_eq] at hund hacc
        refine ⟨a :: as, rest, rfl, undecided_cons.mpr ⟨hc, hund⟩, ?_⟩
        simpa [bytes] using hacc

/-- The bytes taken decide whether the read has failed, and they are all in the buffer. -/
theorem readUntil_taken (hr : Resumable cond) (buf : Streambuf β) (turns : List (Turn β)) :
    (readUntil cond buf turns).ec =
        !(cond (buf.data ++ bytes (readUntil cond buf turns).taken)).2 ∧
      (readUntil cond buf turns).buf.data = buf.data ++ bytes (readUntil cond buf turns).taken := by
  induction turns generalizing buf with
  | nil =>
    cases hc : (cond buf.data).2 with
    | true => simp [readUntil_found hc, bytes, hc]
    | false => simp [readUntil_closed hc, bytes, hc]
  | cons turn turns ih =>
    cases hc : (cond buf.data).2 with
    | true => simp [readUntil_found hc, bytes, hc]
    | false =>
      cases turn with
      | failed => simp [readUntil_failed hc, bytes, hc]
      | received a =>
        have hdata : (buf.receive a).data = buf.data ++ a.chunk := by rw [Streambuf.receive_eq]
        have htaken (o : Outcome β) : bytes (o.took [a]).taken = a.chunk ++ bytes o.taken := by
          simp [Outcome.took, bytes]
        rw [readUntil_received hr hc, htaken, ← List.append_assoc, ← hdata]
        exact ih (buf.receive a)

theorem stops_in {data : List β} {as : List (Arrival β)}
    (h : (cond (data ++ bytes as)).2 = true) :
    ∃ as' tail, as = as' ++ tail ∧ Undecided cond data as' ∧
      (cond (data ++ bytes as')).2 = true := by
  induction as generalizing data with
  | nil => exact ⟨[], [], rfl, undecided_nil, h⟩
  | cons a as ih =>
    cases hc : (cond data).2 with
    | true => exact ⟨[], a :: as, rfl, undecided_nil, by simpa [bytes] using hc⟩
    | false =>
      have h' : (cond (data ++ a.chunk ++ bytes as)).2 = true := by simpa [bytes] using h
      obtain ⟨as', tail, rfl, hund, hacc⟩ := ih h'
      exact ⟨a :: as', tail, rfl, undecided_cons.mpr ⟨hc, hund⟩, by simpa [bytes] using hacc⟩

/-! ## Conditions on the length -/

/-- The arrivals up to the first that completes `k` bytes. -/
def chunksUpTo : Nat → List (Arrival β) → List (Arrival β)
  | 0, _ => []
  | _, [] => []
  | k + 1, a :: as => a :: chunksUpTo (k + 1 - a.chunk.length) as

theorem chunksUpTo_split (k : Nat) (as : List (Arrival β)) :
    ∃ tail, as = chunksUpTo k as ++ tail := by
  fun_induction chunksUpTo k as with
  | case1 as => exact ⟨as, rfl⟩
  | case2 k => exact ⟨[], rfl⟩
  | case3 k a as ih =>
    obtain ⟨tail, htail⟩ := ih
    exact ⟨tail, congrArg (a :: ·) htail⟩

theorem chunksUpTo_begins (k : Nat) (as : List (Arrival β)) : chunksUpTo k as <+: as := by
  obtain ⟨tail, htail⟩ := chunksUpTo_split k as
  exact ⟨tail, htail.symm⟩

theorem chunksUpTo_reaches {k : Nat} {as : List (Arrival β)} (h : k ≤ (bytes as).length) :
    k ≤ (bytes (chunksUpTo k as)).length := by
  fun_induction chunksUpTo k as with
  | case1 as => exact Nat.zero_le _
  | case2 k => exact h
  | case3 k a as ih =>
    simp only [bytes, List.flatMap_cons, List.length_append] at h ih ⊢
    have hrest := ih (by omega)
    omega

theorem chunksUpTo_least {k : Nat} {as as' : List (Arrival β)} (h : as' <+: chunksUpTo k as)
    (hne : as' ≠ chunksUpTo k as) : (bytes as').length < k := by
  fun_induction chunksUpTo k as generalizing as' with
  | case1 as => exact absurd (List.prefix_nil.mp h) hne
  | case2 k => exact absurd (List.prefix_nil.mp h) hne
  | case3 k a as ih =>
    cases as' with
    | nil => exact Nat.succ_pos k
    | cons a' as' =>
      obtain ⟨rfl, h⟩ := List.cons_prefix_cons.mp h
      have hrest := ih h fun he => hne (congrArg (a' :: ·) he)
      simp only [bytes, List.flatMap_cons, List.length_append] at hrest ⊢
      omega

/-- A condition that accepts the beginnings of what arrives from a length on is met by the chunk
that completes that length. -/
theorem readUntil_completes (hr : Resumable cond) {as : List (Arrival β)} {k : Nat}
    (hcond : ∀ p, p <+: bytes as → ((cond p).2 = true ↔ k ≤ p.length))
    (hk : k ≤ (bytes as).length) (area : List β) (rest : List (Turn β)) :
    ∃ turns, readUntil cond ⟨[], area⟩ (as.map .received ++ rest) =
      ⟨false, (bytes (chunksUpTo k as)).length - (cond (bytes (chunksUpTo k as))).1.length,
        Streambuf.receiveAll ⟨[], area⟩ (chunksUpTo k as), turns, chunksUpTo k as⟩ := by
  obtain ⟨tail, htail⟩ := chunksUpTo_split k as
  have hbegins : ∀ as', as' <+: chunksUpTo k as → bytes as' <+: bytes as := by
    intro as' hp
    exact (hp.trans (chunksUpTo_begins k as)).flatMap Arrival.chunk
  have haccepted : (cond ([] ++ bytes (chunksUpTo k as))).2 = true :=
    (hcond _ (hbegins _ List.prefix_rfl)).mpr (chunksUpTo_reaches hk)
  have hundecided : Undecided cond [] (chunksUpTo k as) := by
    intro as' hp hne
    rw [List.nil_append, ← Bool.not_eq_true, hcond _ (hbegins as' hp), Nat.not_le]
    exact chunksUpTo_least hp hne
  have hturns : as.map .received ++ rest =
      (chunksUpTo k as).map .received ++ (tail.map .received ++ rest) := by
    rw [← List.append_assoc, ← List.map_append, ← htail]
  rw [hturns]
  exact ⟨_, @readUntil_stops _ _ hr ⟨[], area⟩ _ hundecided haccepted _⟩

end Rules

end Asio
