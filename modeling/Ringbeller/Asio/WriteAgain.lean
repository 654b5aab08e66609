import Ringbeller.Asio.Write

/-!
# An asynchronous write as a synchronous one

The same stream answers an asynchronous write of a buffer as it answers a synchronous one. Only what
it is given differs, where the memory of the buffer has not stayed as it was.
-/

namespace Asio
set_option autoImplicit false

variable {β : Type}

/-- An asynchronous write reports and uses up what a synchronous one does, and sends no more. -/
structure SameWrite (w v : Written β) : Prop where
  ec : w.ec = v.ec
  count : w.count = v.count
  puts : w.puts = v.puts
  sent : w.sent.length ≤ v.sent.length

/-- The part of a write that is left, as part of the whole. -/
def Written.behind (w : Written β) (count : Nat) : Written β := { w with count := count + w.count }

theorem completes_write {s : List β} {count : Nat} (hc : count < s.length) (puts : List (Put β)) :
    SameWrite (asyncWriteCompletes (.writing count s.length) puts)
        ((write (s.drop count) puts).behind count) ∧
      ((asyncWriteCompletes (.writing count s.length) puts).sent =
          (write (s.drop count) puts).sent ↔
        Intact s (.writing count s.length) puts) := by
  induction puts generalizing count with
  | nil =>
    obtain ⟨b, x, hx⟩ := List.exists_cons_of_ne_nil fun h : s.drop count = [] => by
      have hlen := List.drop_eq_nil_iff.mp h
      omega
    rw [hx]
    exact ⟨⟨rfl, rfl, rfl, Nat.le_refl _⟩, fun _ => trivial, fun _ => rfl⟩
  | cons put puts ih =>
    obtain ⟨b, x, hx⟩ := List.exists_cons_of_ne_nil fun h : s.drop count = [] => by
      have hlen := List.drop_eq_nil_iff.mp h
      omega
    cases put with
    | failed =>
      rw [hx]
      exact ⟨⟨rfl, rfl, rfl, Nat.le_refl _⟩, fun _ => trivial, fun _ => rfl⟩
    | accepted n memory =>
      have hwrite : write (s.drop count) (.accepted n memory :: puts) =
          (write (s.drop (count + n)) puts).sentBefore ((s.drop count).take n) := by
        rw [← List.drop_drop, hx]
        rfl
      obtain ⟨k, hk⟩ : ∃ k, min n (s.length - count) = k := ⟨_, rfl⟩
      have htake : (s.drop count).take n = (s.drop count).take k := by
        rw [← hk, ← List.length_drop, List.take_eq_take_min]
      have hown : ((s.drop count).take k).length = k := by
        rw [List.length_take, List.length_drop]
        omega
      have hpiece : ((memory.drop count).take k).length ≤ k := List.length_take_le _ _
      rw [hwrite, htake]
      simp only [asyncWriteCompletes, Intact, hk, Written.sentBefore, Written.behind, hown]
      by_cases hend : s.length ≤ count + k
      · have hall : s.drop (count + n) = [] := List.drop_eq_nil_of_le (by omega)
        simp only [if_pos hend, completes_ended, Intact, hall, write, List.append_nil, and_true]
        refine ⟨rfl, rfl, rfl, ?_⟩
        rw [hown]
        exact hpiece
      · have hn : n = k := by omega
        rw [hn]
        simp only [if_neg hend]
        obtain ⟨⟨hec, hcount, hputs, hsent⟩, hintact⟩ := @ih (count + k) (by omega)
        simp only [Written.behind] at hec hcount hputs hsent
        refine ⟨⟨hec, hcount.trans (Nat.add_assoc count k _), hputs, ?_⟩, ?_⟩
        · rw [List.length_append, List.length_append, hown]
          omega
        · rw [← hintact]
          constructor
          · intro h
            have hlen := congrArg List.length h
            rw [List.length_append, List.length_append, hown] at hlen
            exact List.append_inj h (by omega)
          · rintro ⟨hsame, hrest⟩
            rw [hsame, hrest]

/-- The write of a whole buffer. -/
theorem asyncWrite_write {s : List β} (hne : s ≠ []) (puts : List (Put β)) :
    let started := asyncWrite s puts
    let w := asyncWriteCompletes started.1 started.2.2
    w.ec = (write s puts).ec ∧ w.count = (write s puts).count ∧ w.puts = (write s puts).puts ∧
      (started.2.1 ++ w.sent = (write s puts).sent ↔ Intact s started.1 started.2.2) := by
  obtain ⟨b, x, rfl⟩ := List.exists_cons_of_ne_nil hne
  cases puts with
  | nil => simp [asyncWrite, asyncWriteCompletes, write, Intact]
  | cons put puts =>
    cases put with
    | failed => simp [asyncWrite, asyncWriteCompletes, write, Intact]
    | accepted n memory =>
      by_cases hn : (b :: x).length ≤ n
      · have hall : (b :: x).drop n = [] := List.drop_eq_nil_of_le hn
        simp only [asyncWrite, if_pos hn, completes_ended, Intact, write, hall,
          Written.sentBefore, List.append_nil, List.take_of_length_le hn]
        exact ⟨trivial, rfl, trivial, trivial⟩
      · obtain ⟨⟨hec, hcount, hputs, _⟩, hintact⟩ := completes_write (Nat.lt_of_not_le hn) puts
        have hlen : ((b :: x).take n).length = n := by
          rw [List.length_take]
          omega
        simp only [asyncWrite, if_neg hn, write, Written.sentBefore, hlen]
        simp only [Written.behind] at hec hcount hputs
        refine ⟨hec, hcount, hputs, ?_⟩
        rw [List.append_cancel_left_eq]
        exact hintact

end Asio
