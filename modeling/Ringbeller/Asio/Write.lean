import Mathlib.Data.List.Basic

/-!
# Writing all of a buffer

`write` and `async_write`: one short write after the other until everything has been
accepted. The caller keeps the buffer; an asynchronous write therefore goes on with
whatever its memory holds by then.
-/

namespace Asio
set_option autoImplicit false

variable {β : Type}

/-- How the stream answers one write. `memory` is what the place of a buffer that no longer
lives holds at that time. -/
inductive Put (β : Type) where
  | accepted (n : Nat) (memory : List β)
  | failed
  deriving Repr, DecidableEq

structure Written (β : Type) where
  ec : Bool
  count : Nat
  sent : List β
  puts : List (Put β)
  deriving Repr, DecidableEq

namespace Written

def sentBefore (w : Written β) (s : List β) : Written β :=
  { w with count := s.length + w.count, sent := s ++ w.sent }

end Written

/-- A stream that has no put left is closed. -/
def write : List β → List (Put β) → Written β
  | [], puts => ⟨false, 0, [], puts⟩
  | _ :: _, [] => ⟨true, 0, [], []⟩
  | _ :: _, .failed :: puts => ⟨true, 0, [], puts⟩
  | b :: s, .accepted n _ :: puts =>
    (write ((b :: s).drop n) puts).sentBefore ((b :: s).take n)

/-- The state of an asynchronous write: the result that it will report, or how much of the
buffer has been accepted and how long the buffer is. -/
inductive Writing where
  | ended (ec : Bool) (count : Nat)
  | writing (count total : Nat)
  deriving Repr, DecidableEq

/-- The first short write is made while the buffer still lives. -/
def asyncWrite (s : List β) : List (Put β) → Writing × List β × List (Put β)
  | [] => (.ended true 0, [], [])
  | .failed :: puts => (.ended true 0, [], puts)
  | .accepted n _ :: puts =>
    (if s.length ≤ n then .ended false s.length else .writing n s.length, s.take n, puts)

/-- The later short writes, up to the call of the handler. -/
def asyncWriteCompletes : Writing → List (Put β) → Written β
  | .ended ec count, puts => ⟨ec, count, [], puts⟩
  | .writing count _, [] => ⟨true, count, [], []⟩
  | .writing count _, .failed :: puts => ⟨true, count, [], puts⟩
  | .writing count total, .accepted n memory :: puts =>
    let piece := (memory.drop count).take (min n (total - count))
    let next := count + min n (total - count)
    let w := asyncWriteCompletes (if total ≤ next then .ended false next else .writing next total) puts
    { w with sent := piece ++ w.sent }

theorem write_sent (s : List β) (puts : List (Put β)) :
    (write s puts).sent.IsPrefix s ∧ ((write s puts).ec = false ↔ (write s puts).sent = s) := by
  fun_induction write s puts with
  | case1 puts => exact ⟨List.prefix_rfl, fun _ => rfl, fun _ => rfl⟩
  | case2 b s => exact ⟨List.nil_prefix, fun h => Bool.noConfusion h, fun h => by cases h⟩
  | case3 b s puts => exact ⟨List.nil_prefix, fun h => Bool.noConfusion h, fun h => by cases h⟩
  | case4 b s n memory puts ih =>
    obtain ⟨hbegins, hall⟩ := ih
    have hsplit := List.take_append_drop n (b :: s)
    constructor
    · have happend := List.prefix_append_right_inj ((b :: s).take n) |>.mpr hbegins
      rwa [hsplit] at happend
    · have hsent : ((write ((b :: s).drop n) puts).sentBefore ((b :: s).take n)).sent = b :: s ↔
          (write ((b :: s).drop n) puts).sent = (b :: s).drop n := by
        constructor
        · intro h
          exact List.append_cancel_left (h.trans hsplit.symm)
        · intro h
          rw [Written.sentBefore, h]
          exact hsplit
      rw [hsent, ← hall]
      rfl

/-- Each later short write finds in its memory what the buffer held. -/
def Intact (s : List β) : Writing → List (Put β) → Prop
  | .ended _ _, _ => True
  | .writing _ _, [] => True
  | .writing _ _, .failed :: _ => True
  | .writing count total, .accepted n memory :: puts =>
    let next := count + min n (total - count)
    (memory.drop count).take (min n (total - count)) =
        (s.drop count).take (min n (total - count)) ∧
      Intact s (if total ≤ next then .ended false next else .writing next total) puts

instance decidableIntact [DecidableEq β] (s : List β) :
    (op : Writing) → (puts : List (Put β)) → Decidable (Intact s op puts)
  | .ended _ _, _ => .isTrue (by rw [Intact]; trivial)
  | .writing _ _, [] => .isTrue trivial
  | .writing _ _, .failed :: _ => .isTrue trivial
  | .writing count total, .accepted n memory :: puts =>
    let next := count + min n (total - count)
    have := decidableIntact s (if total ≤ next then .ended false next else .writing next total) puts
    decidable_of_iff ((memory.drop count).take (min n (total - count)) =
        (s.drop count).take (min n (total - count)) ∧
      Intact s (if total ≤ next then .ended false next else .writing next total) puts)
      (by rw [Intact])

theorem completes_ended (ec : Bool) (count : Nat) (puts : List (Put β)) :
    asyncWriteCompletes (.ended ec count) puts = ⟨ec, count, [], puts⟩ := by
  rw [asyncWriteCompletes]

theorem completes_length (count total : Nat) (puts : List (Put β)) :
    (asyncWriteCompletes (.writing count total) puts).sent.length ≤ total - count := by
  induction puts generalizing count with
  | nil => exact Nat.zero_le _
  | cons put puts ih =>
    cases put with
    | failed => exact Nat.zero_le _
    | accepted n memory =>
      have hpiece := List.length_take_le (min n (total - count)) (memory.drop count)
      have hrest := ih (count + min n (total - count))
      simp only [asyncWriteCompletes, List.length_append]
      split
      · rw [completes_ended, List.length_nil]
        omega
      · omega

/-- A write that ends well has sent the rest of its buffer exactly when its memory was intact. -/
theorem completes_intact {s : List β} {count : Nat} {puts : List (Put β)} (hc : count ≤ s.length)
    (h : (asyncWriteCompletes (.writing count s.length) puts).ec = false) :
    (asyncWriteCompletes (.writing count s.length) puts).sent = s.drop count ↔
      Intact s (.writing count s.length) puts := by
  induction puts generalizing count with
  | nil => cases h
  | cons put puts ih =>
    cases put with
    | failed => cases h
    | accepted n memory =>
      obtain ⟨k, hk⟩ : ∃ k, min n (s.length - count) = k := ⟨_, rfl⟩
      have hsplit : (s.drop count).take k ++ s.drop (count + k) = s.drop count := by
        rw [← List.drop_drop, List.take_append_drop]
      have hown : ((s.drop count).take k).length = k := by
        rw [List.length_take, List.length_drop]
        omega
      have hpiece : ((memory.drop count).take k).length ≤ k := List.length_take_le _ _
      simp only [asyncWriteCompletes, Intact, hk] at h ⊢
      by_cases hend : s.length ≤ count + k
      · have hrest : s.drop (count + k) = [] := List.drop_eq_nil_of_le hend
        rw [hrest, List.append_nil] at hsplit
        simp only [if_pos hend, completes_ended, Intact, List.append_nil, and_true, hsplit]
      · simp only [if_neg hend] at h ⊢
        have hle := completes_length (count + k) s.length puts
        rw [← ih (by omega) h]
        constructor
        · intro hsent
          have hlen := congrArg List.length hsent
          rw [List.length_append, List.length_drop] at hlen
          have hsame : ((memory.drop count).take k).length = ((s.drop count).take k).length := by
            omega
          exact List.append_inj (hsent.trans hsplit.symm) hsame
        · rintro ⟨hsame, hsent⟩
          rw [hsame, hsent, hsplit]

theorem asyncWrite_intact {s : List β} {puts : List (Put β)}
    (h : (asyncWriteCompletes (asyncWrite s puts).1 (asyncWrite s puts).2.2).ec = false) :
    (asyncWrite s puts).2.1 ++
        (asyncWriteCompletes (asyncWrite s puts).1 (asyncWrite s puts).2.2).sent = s ↔
      Intact s (asyncWrite s puts).1 (asyncWrite s puts).2.2 := by
  cases puts with
  | nil => simp [asyncWrite, asyncWriteCompletes] at h
  | cons put puts =>
    cases put with
    | failed => simp [asyncWrite, asyncWriteCompletes] at h
    | accepted n memory =>
      by_cases hn : s.length ≤ n
      · simp only [asyncWrite, if_pos hn, completes_ended, Intact, List.append_nil,
          List.take_of_length_le hn]
      · simp only [asyncWrite, if_neg hn] at h ⊢
        rw [← completes_intact (by omega) h]
        constructor
        · intro hsent
          exact List.append_cancel_left (hsent.trans (List.take_append_drop n s).symm)
        · intro hsent
          rw [hsent, List.take_append_drop]

end Asio
