import Ringbeller.Framing.Cut

/-!
# Taking a stream apart at a delimiter

All the pieces of a sequence that are ended by a delimiter, and what has come of the next one.
-/

namespace Framing
set_option autoImplicit false

variable {α : Type} [DecidableEq α]

def pieces (d : List α) : Nat → List α → List (List α) × List α
  | 0, x => ([], x)
  | n + 1, x =>
    match cut d x with
    | none => ([], x)
    | some (f, r) => (f :: (pieces d n r).1, (pieces d n r).2)

/-- Every piece takes its delimiter at least, so the length is fuel enough. -/
def lines (d x : List α) : List (List α) × List α := pieces d x.length x

section Lines
variable {d : List α}

theorem pieces_framed (hne : d ≠ []) (hd : Unbordered d) (fs : List (List α)) {r : List α}
    (hfs : ∀ f ∈ fs, ¬ d <:+: f) (hr : cut d r = none) {n : Nat} (hn : fs.length ≤ n) :
    pieces d n (fs.flatMap (· ++ d) ++ r) = (fs, r) := by
  induction fs generalizing n with
  | nil =>
    cases n with
    | zero => rfl
    | succ n => simp [pieces, hr]
  | cons f fs ih =>
    obtain ⟨hf, hfs⟩ := List.forall_mem_cons.mp hfs
    cases n with
    | zero => simp at hn
    | succ n =>
      have hcut := (cut_append_iff hne hd f (fs.flatMap (· ++ d) ++ r)).mpr hf
      rw [List.flatMap_cons, List.append_assoc, pieces, hcut]
      simp only [ih hfs (Nat.le_of_succ_le_succ hn)]

/-- What has been written piece by piece is read back piece by piece. -/
theorem lines_framed (hne : d ≠ []) (hd : Unbordered d) (fs : List (List α)) {r : List α}
    (hfs : ∀ f ∈ fs, ¬ d <:+: f) (hr : cut d r = none) :
    lines d (fs.flatMap (· ++ d) ++ r) = (fs, r) := by
  apply pieces_framed hne hd fs hfs hr
  have hpos := List.length_pos_of_ne_nil hne
  induction fs with
  | nil => exact Nat.zero_le _
  | cons f fs ih =>
    have hlen := ih (List.forall_mem_cons.mp hfs).2
    simp only [List.flatMap_cons, List.length_append, List.length_cons] at hlen ⊢
    omega

theorem pieces_free (hne : d ≠ []) (hd : Unbordered d) (n : Nat) (x : List α) :
    ∀ f ∈ (pieces d n x).1, ¬ d <:+: f := by
  induction n generalizing x with
  | zero => exact List.forall_mem_nil _
  | succ n ih =>
    rw [pieces]
    split
    · exact List.forall_mem_nil _
    · next f r hcut =>
      have hf : cut d (f ++ d ++ r) = some (f, r) := by rw [← cut_some hcut, hcut]
      exact List.forall_mem_cons.mpr ⟨(cut_append_iff hne hd f r).mp hf, ih r⟩

theorem lines_free (hne : d ≠ []) (hd : Unbordered d) {x : List α} :
    ∀ f ∈ (lines d x).1, ¬ d <:+: f := pieces_free hne hd x.length x

theorem pieces_rest (hne : d ≠ []) {n : Nat} {x : List α} (hn : x.length ≤ n) :
    ¬ d <:+: (pieces d n x).2 := by
  induction n generalizing x with
  | zero =>
    rw [List.length_eq_zero_iff.mp (Nat.le_zero.mp hn)]
    exact fun h => hne (List.infix_nil.mp h)
  | succ n ih =>
    rw [pieces]
    split
    · next hcut => exact cut_eq_none_iff.mp hcut
    · next f r hcut =>
      apply ih
      have hpos := List.length_pos_of_ne_nil hne
      rw [cut_some hcut] at hn
      simp only [List.length_append] at hn
      omega

/-- What has been written piece by piece is read back so exactly when no piece holds the delimiter,
nor what has been written of the next one. -/
theorem lines_framed_iff (hne : d ≠ []) (hd : Unbordered d) (fs : List (List α)) (r : List α) :
    lines d (fs.flatMap (· ++ d) ++ r) = (fs, r) ↔ (∀ f ∈ fs, ¬ d <:+: f) ∧ ¬ d <:+: r := by
  constructor
  · intro h
    have hfree := lines_free hne hd (x := fs.flatMap (· ++ d) ++ r)
    have hrest := pieces_rest hne (Nat.le_refl (fs.flatMap (· ++ d) ++ r).length)
    rw [h] at hfree
    rw [← lines, h] at hrest
    exact ⟨hfree, hrest⟩
  · rintro ⟨hfs, hr⟩
    exact lines_framed hne hd fs hfs (cut_eq_none_iff.mpr hr)

end Lines

end Framing
