import Ringbeller.App.Session

/-!
# The event loop

What a run of the event loop leaves behind whatever the handlers are: the reads that it has
completed, the calls of the handlers, and how it ends.
-/

namespace Ringbeller
set_option autoImplicit false

open Session

variable {η : Type} {handle : η → Bool → Nat → Session η → Session η}

/-! ## The end of the loop -/

theorem run_goes_on {n : Nat} {s : Session η} (h : (run handle n s).1 = some 0)
    (hs : s.stopped = false) : (dispatch handle n s).1 = true ∧
      run handle n s = (some 0, { (dispatch handle n s).2 with stopped := true }) := by
  cases hd : (dispatch handle n s).1 with
  | true => exact ⟨rfl, by simp [run, hs, hd]⟩
  | false => simp [run, hs, hd] at h

theorem dispatch_flag (n : Nat) (s : Session η) : (dispatch handle n s).1 =
    ((dispatch handle n s).2.pending.isNone && !(dispatch handle n s).2.thrown) := by
  induction n generalizing s with
  | zero => rfl
  | succ n ih =>
    cases hp : s.pending with
    | none => simp [dispatch, hp]
    | some op => simpa only [dispatch, hp] using ih _

/-- `execute` leaves alone what belongs to the event loop and the handlers. -/
theorem execute_frame (command : Request) (s : Session η) :
    (execute command s).2.stopped = s.stopped ∧ (execute command s).2.usbCfg = s.usbCfg ∧
      (execute command s).2.thrown = s.thrown ∧ (execute command s).2.pending = s.pending := by
  cases hec : (s.write command).1 with
  | true =>
    rw [execute_unwritten hec]
    exact ⟨rfl, rfl, rfl, rfl⟩
  | false =>
    rw [execute_written hec]
    exact ⟨rfl, rfl, rfl, rfl⟩

/-! ## The reads of the loop -/

namespace Session

def waits (s : Session η) : List ReadRecord :=
  s.reads.filterMap fun x => if x.1 = .asyncRead then some x.2 else none

theorem waits_of_reads {s s' : Session η} (h : s'.reads = s.reads) : s'.waits = s.waits := by
  rw [waits, h, waits]

theorem waits_of_execute {s s' : Session η} {r : ReadRecord}
    (h : s'.reads = s.reads ++ [(.execute, r)]) : s'.waits = s.waits := by
  simp [waits, h, List.filterMap_append]

theorem waits_of_wait {s s' : Session η} {r : ReadRecord}
    (h : s'.reads = s.reads ++ [(.asyncRead, r)]) : s'.waits = s.waits ++ [r] := by
  simp [waits, h, List.filterMap_append]

end Session

theorem waits_execute (command : Request) (s : Session η) :
    (execute command s).2.waits = s.waits := by
  cases hec : (s.write command).1 with
  | true =>
    rw [execute_unwritten hec]
    exact waits_of_reads (reads_write command s)
  | false =>
    rw [execute_written hec]
    exact waits_of_execute (by rw [reads_didRead, reads_write])

/-! ## Markers -/

/-- The text begins with the marker and has no other occurrence of it. -/
def Marked (p s : List UInt8) : Prop := p.IsPrefix s ∧ ∀ i, 0 < i → ¬ p.IsPrefix (s.drop i)

theorem find_range_zero (q : Nat → Bool) (n : Nat) : (List.range n).reverse.find? q = some 0 ↔
    0 < n ∧ q 0 = true ∧ ∀ i, 0 < i → i < n → q i = false := by
  induction n with
  | zero => simp
  | succ n ih =>
    rw [List.range_succ, List.reverse_append, List.reverse_singleton, List.singleton_append,
      List.find?_cons]
    cases hq : q n with
    | true =>
      constructor
      · intro h
        obtain rfl : n = 0 := Option.some.inj h
        exact ⟨Nat.one_pos, hq, fun i hi hlt => absurd hi (by omega)⟩
      · rintro ⟨_, _, hall⟩
        cases n with
        | zero => rfl
        | succ n =>
          rw [hall (n + 1) (Nat.succ_pos n) (Nat.lt_succ_self _)] at hq
          cases hq
    | false =>
      refine ih.trans ⟨?_, ?_⟩
      · rintro ⟨hpos, h0, hall⟩
        refine ⟨Nat.succ_pos n, h0, fun i hi hlt => ?_⟩
        rcases Nat.lt_succ_iff_lt_or_eq.mp hlt with hlt | rfl
        · exact hall i hi hlt
        · exact hq
      · rintro ⟨_, h0, hall⟩
        refine ⟨Nat.pos_of_ne_zero fun hn => ?_, h0, fun i hi hlt =>
          hall i hi (Nat.lt_succ_of_lt hlt)⟩
        subst hn
        rw [h0] at hq
        cases hq

/-- `rfind` gives 0 when the marker stands at the front and nowhere else. -/
theorem rfind_zero {p : List UInt8} (hp : p ≠ []) (s : List UInt8) :
    rfind s p = some 0 ↔ Marked p s := by
  have hlen := List.length_pos_of_ne_nil hp
  rw [rfind, find_range_zero]
  simp only [List.drop_zero, List.isPrefixOf_iff_prefix, Bool.eq_false_iff, ne_eq]
  constructor
  · intro h
    obtain ⟨hpos, h0, hall⟩ := h
    refine ⟨h0, fun i hi hmem => hall i hi ?_ hmem⟩
    have hle := hmem.length_le
    rw [List.length_drop] at hle
    omega
  · intro h
    obtain ⟨h0, hall⟩ := h
    have hle := h0.length_le
    exact ⟨by omega, h0, fun i hi _ => hall i hi⟩

theorem frontMarked_iff {marker : String} (hm : ascii marker ≠ []) (response : Response) :
    frontMarked marker response = true ↔
      ∃ line, response.body.head? = some line ∧ Marked (ascii marker) line := by
  unfold frontMarked
  cases response.body with
  | nil => simp
  | cons line lines => simp [rfind_zero hm]

end Ringbeller
