import Mathlib.Data.List.Infix

/-!
# Cutting at a delimiter

A sequence is cut at the first occurrence of a delimiter. What is written in front of a delimiter
is read back exactly when the delimiter does not occur in it, provided that no end of the delimiter
is also a beginning of it.
-/

namespace Framing
set_option autoImplicit false

variable {α : Type}

/-- No beginning of the word is an end of it, but the word itself. -/
def Unbordered (d : List α) : Prop := ∀ s, s ≠ [] → s <+: d → s <:+ d → s = d

theorem unbordered_singleton (a : α) : Unbordered [a] := by
  intro s hne hprefix _
  exact hprefix.eq_of_length_le (List.length_pos_of_ne_nil hne)

theorem unbordered_pair {a b : α} (h : a ≠ b) : Unbordered [a, b] := by
  intro s hne hprefix hsuffix
  match s, hne, hprefix, hsuffix with
  | [c], _, hprefix, hsuffix =>
    obtain ⟨rfl, _⟩ := List.cons_prefix_cons.mp hprefix
    obtain ⟨t, ht⟩ := hsuffix
    have hlast := congrArg List.getLast? ht
    simp at hlast
    exact absurd hlast h
  | [c, e], _, hprefix, _ => exact hprefix.eq_of_length rfl
  | _ :: _ :: _ :: _, _, hprefix, _ =>
    have hle := hprefix.length_le
    simp at hle

/-- An occurrence of the delimiter that begins in front of it lies in front of it. -/
theorem prefix_unbordered {d g r : List α} (hd : Unbordered d) (hg : g ≠ []) :
    d <+: g ++ d ++ r ↔ d <+: g := by
  refine ⟨fun h => ?_, fun h => by
    rw [List.append_assoc]
    exact h.trans (List.prefix_append g _)⟩
  have hgd : d <+: g ++ d :=
    List.prefix_of_prefix_length_le h (List.prefix_append _ r) (by simp)
  rcases List.prefix_or_prefix_of_prefix hgd (List.prefix_append g d) with h | ⟨s, hs⟩
  · exact h
  · have hsd : s <+: d := by
      have hgs : g ++ s <+: g ++ d := by rw [hs]; exact hgd
      exact (List.prefix_append_right_inj g).mp hgs
    by_cases hnil : s = []
    · rw [← hs, hnil, List.append_nil]
    · have heq := hd s hnil hsd ⟨g, hs⟩
      rw [heq] at hs
      exact absurd (List.append_left_eq_self.mp hs) hg

variable [DecidableEq α]

/-- What stands in front of the first occurrence of the delimiter, and what stands behind it. -/
def cut (d : List α) : List α → Option (List α × List α)
  | [] => if d = [] then some ([], []) else none
  | a :: x =>
    if d <+: a :: x then some ([], (a :: x).drop d.length)
    else (cut d x).map fun r => (a :: r.1, r.2)

theorem cut_some {d x f r : List α} (h : cut d x = some (f, r)) : x = f ++ d ++ r := by
  induction x generalizing f with
  | nil =>
    by_cases hd : d = []
    · simp only [cut, if_pos hd, Option.some.injEq, Prod.mk.injEq] at h
      rw [← h.1, ← h.2, hd]
      rfl
    · simp [cut, hd] at h
  | cons a x ih =>
    rw [cut] at h
    split at h
    · next hprefix =>
      obtain ⟨w, hw⟩ := hprefix
      obtain ⟨rfl, rfl⟩ := Prod.mk.inj (Option.some.inj h)
      rw [← hw, List.drop_left, List.nil_append]
    · obtain ⟨⟨f', r'⟩, hcut, hr⟩ := Option.map_eq_some_iff.mp h
      obtain ⟨rfl, rfl⟩ := Prod.mk.inj hr
      rw [ih hcut]
      rfl

theorem cut_eq_none_iff {d x : List α} : cut d x = none ↔ ¬ d <:+: x := by
  induction x with
  | nil =>
    rw [cut, List.infix_nil]
    split <;> simp_all
  | cons a x ih =>
    rw [List.infix_cons_iff, not_or, ← ih, cut]
    split
    · next h => simp [h]
    · next h => simp [h]

theorem cut_append_iff {d : List α} (hne : d ≠ []) (hd : Unbordered d) (f r : List α) :
    cut d (f ++ d ++ r) = some (f, r) ↔ ¬ d <:+: f := by
  induction f with
  | nil =>
    have hcut : cut d ([] ++ d ++ r) = some ([], r) := by
      obtain ⟨a, d', rfl⟩ := List.exists_cons_of_ne_nil hne
      have hprefix : a :: d' <+: a :: (d' ++ r) := List.prefix_append (a :: d') r
      rw [List.nil_append, List.cons_append, cut, if_pos hprefix, ← List.cons_append,
        List.drop_left]
    exact ⟨fun _ h => hne (List.infix_nil.mp h), fun _ => hcut⟩
  | cons a f ih =>
    have hprefix : d <+: a :: (f ++ d ++ r) ↔ d <+: a :: f :=
      prefix_unbordered (g := a :: f) hd (List.cons_ne_nil a f)
    rw [List.infix_cons_iff, not_or, ← hprefix, ← ih]
    change cut d (a :: (f ++ d ++ r)) = _ ↔ _
    rw [cut]
    split
    · next h =>
      refine ⟨fun hcut => ?_, fun hno => absurd h hno.1⟩
      cases (Prod.mk.inj (Option.some.inj hcut)).1
    · next h =>
      rw [Option.map_eq_some_iff]
      constructor
      · rintro ⟨⟨f', r'⟩, hcut, hr⟩
        obtain ⟨hf, hr⟩ := Prod.mk.inj hr
        have hf : f' = f := (List.cons.inj hf).2
        have hr : r' = r := hr
        rw [hf, hr] at hcut
        exact ⟨h, hcut⟩
      · exact fun hno => ⟨(f, r), hno.2, rfl⟩

end Framing
