import Mathlib.Data.List.Basic
import Mathlib.Data.List.DropRight
import Ringbeller.X3.Parser

/-!
# Text up to a delimiter

`raw[+(char_ - d)]` under a skipper that does not skip `d`: the longest run of
tokens other than `d`, reported without the skippable tokens at its two ends. Only
a run that reaches the end of the range keeps the skippable tokens at its right end.
-/

namespace X3
set_option autoImplicit false

variable {α ε : Type} (skip : α → Bool)

def trimLeft (t : List α) : List α := t.dropWhile skip

def trimRight (t : List α) : List α := t.rdropWhile skip

def trim (t : List α) : List α := trimRight skip (trimLeft skip t)

/-- A run of tokens other than `d`, not all of them skippable. -/
structure IsText (d : α) (t : List α) : Prop where
  undelimited : d ∉ t
  visible : ∃ b ∈ t, skip b = false

section Trim
variable {skip}

theorem trimRight_split (t : List α) :
    ∃ s, (∀ b ∈ s, skip b = true) ∧ t = trimRight skip t ++ s :=
  ⟨t.rtakeWhile skip, fun _ hb => List.mem_rtakeWhile_imp hb,
    List.rdropWhile_append_rtakeWhile.symm⟩

theorem trimRight_last (t : List α) (h : trimRight skip t ≠ []) :
    skip ((trimRight skip t).getLast h) = false := by
  have hl := List.rdropWhile_last_not skip t h
  rwa [Bool.not_eq_true] at hl

theorem trimRight_visible {t : List α} :
    (∃ b ∈ trimRight skip t, skip b = false) ↔ ∃ b ∈ t, skip b = false := by
  constructor
  · rintro ⟨b, hb, hv⟩
    exact ⟨b, (List.rdropWhile_prefix skip t).subset hb, hv⟩
  · rintro ⟨b, hb, hv⟩
    have hne : trimRight skip t ≠ [] := by
      intro h
      simp [List.rdropWhile_eq_nil_iff.mp h b hb] at hv
    exact ⟨_, List.getLast_mem hne, trimRight_last t hne⟩

theorem trimLeft_append {d : α} {t : List α} (ht : IsText skip d t) (x : List α) :
    skipOver skip (t ++ x) = trimLeft skip t ++ x := by
  obtain ⟨b, hb, hv⟩ := ht.visible
  have hne : t.dropWhile skip ≠ [] := by
    intro h
    simp [List.dropWhile_eq_nil_iff.mp h b hb] at hv
  simp [skipOver, trimLeft, List.dropWhile_append, hne]

theorem trimLeft_visible {d : α} {t : List α} (ht : IsText skip d t) :
    ∃ c w, trimLeft skip t = c :: w ∧ c ≠ d ∧ skip c = false := by
  obtain ⟨b, hb, hv⟩ := ht.visible
  cases h : trimLeft skip t with
  | nil =>
    have hall := skipOver_eq_nil.mp (show skipOver skip t = [] from h) b hb
    simp [hv] at hall
  | cons c w =>
    have hc : c ∈ t :=
      mem_of_mem_skipOver (by rw [show skipOver skip t = c :: w from h]; exact List.mem_cons_self)
    exact ⟨c, w, rfl, fun he => ht.undelimited (he ▸ hc), skipOver_head h⟩

theorem trimRight_append {t : List α} (ht : ∃ b ∈ t, skip b = false) (x : List α) :
    trimRight skip (x ++ t) = x ++ trimRight skip t := by
  obtain ⟨b, hb, hv⟩ := ht
  have hne : t.reverse.dropWhile skip ≠ [] := by
    intro h
    simp [List.dropWhile_eq_nil_iff.mp h b (List.mem_reverse.mpr hb)] at hv
  simp [trimRight, List.rdropWhile, List.dropWhile_append, hne]

theorem trimRight_append_skippable {s : List α} (hs : ∀ b ∈ s, skip b = true) (x : List α) :
    trimRight skip (x ++ s) = trimRight skip x := by
  have hs' : ∀ b ∈ s.reverse, skip b = true := fun b hb => hs b (List.mem_reverse.mp hb)
  have h := skipOver_append hs' x.reverse
  simp only [skipOver] at h
  simp [trimRight, List.rdropWhile, h]

theorem trim_eq_nil {t : List α} : trim skip t = [] ↔ ∀ b ∈ t, skip b = true := by
  rw [← skipOver_eq_nil, trim, trimRight, List.rdropWhile_eq_nil_iff]
  refine ⟨fun h => ?_, fun h => ?_⟩
  · cases hl : skipOver skip t with
    | nil => rfl
    | cons c w =>
      have hc := h c (by rw [show trimLeft skip t = c :: w from hl]; exact List.mem_cons_self)
      simp [skipOver_head hl] at hc
  · rw [show trimLeft skip t = [] from h]
    simp

/-- How a range starts, seen from a delimiter: without a visible token before the first
delimiter, with text that the delimiter ends, or with text that nothing ends. -/
inductive Run (skip : α → Bool) (d : α) : List α → Prop where
  | blank {x : List α} (h : skipOver skip x = [] ∨ ∃ w, skipOver skip x = d :: w) : Run skip d x
  | closed {t w : List α} (ht : IsText skip d t) : Run skip d (t ++ d :: w)
  | unended {t : List α} (ht : IsText skip d t) : Run skip d t

theorem run_cases {d : α} (hskip : skip d = false) (x : List α) : Run skip d x := by
  by_cases hd : d ∈ x
  · obtain ⟨t, w, rfl, ht⟩ := List.eq_append_cons_of_mem hd
    by_cases hv : ∃ b ∈ t, skip b = false
    · exact .closed ⟨ht, hv⟩
    · have hs : ∀ b ∈ t, skip b = true := by simpa using hv
      exact .blank (Or.inr ⟨w, by rw [skipOver_append hs, skipOver_cons_of_neg hskip]⟩)
  · by_cases hv : ∃ b ∈ x, skip b = false
    · exact .unended ⟨hd, hv⟩
    · exact .blank (Or.inl (skipOver_eq_nil.mpr (by simpa using hv)))

end Trim

variable [DecidableEq α]

def charExcept (d : α) : Parser α ε α := diff (char skip) (lit skip [d])

def upTo (d : α) : Parser α ε (List α) := raw skip (plus (charExcept skip d))

variable {skip} {d : α}

theorem charExcept_end {x : List α} (h : skipOver skip x = []) :
    (charExcept skip d x : Reply α ε α) = .fail [] [] := by
  have hl : (lit skip [d] x : Reply α ε Unit) = .fail [] [] := by
    rw [← h]
    exact lit_fail (by simp [h])
  simp [charExcept, diff, hl, char, Reply.fail]

theorem charExcept_delimiter {x w : List α} (h : skipOver skip x = d :: w) :
    (charExcept skip d x : Reply α ε α) = .fail x [] := by
  have hl : (lit skip [d] x : Reply α ε Unit) = ⟨some ((), []), w, []⟩ := lit_ok h
  simp [charExcept, diff, hl, Reply.fail]

theorem charExcept_ok {x w : List α} {c : α} (h : skipOver skip x = c :: w) (hc : c ≠ d) :
    (charExcept skip d x : Reply α ε α) = ⟨some (c, []), w, []⟩ := by
  have hl : (lit skip [d] x : Reply α ε Unit) = .fail (c :: w) [] := by
    rw [← h]
    exact lit_fail (by rw [h]; simpa using hc.symm)
  have hw : skipOver skip (c :: w) = c :: w := by rw [← h, skipOver_skipOver]
  simp [charExcept, diff, hl, char, hw, Reply.fail, Reply.after]

theorem charExcept_consumes : Consumes (charExcept skip d : Parser α ε α) := by
  intro x y b k r hr
  have hle : (skipOver skip x).length ≤ x.length := (skipOver_suffix x).length_le
  cases h : skipOver skip x with
  | nil => simp [charExcept_end h, Reply.fail] at hr
  | cons c w =>
    by_cases hc : c = d
    · subst c
      simp [charExcept_delimiter h, Reply.fail] at hr
    · rw [charExcept_ok h hc] at hr
      have hy : w = y := congrArg Reply.first hr
      simp only [h, List.length_cons] at hle
      rw [← hy]
      omega

theorem star_charExcept_skip {x w : List α} {a c : α} (ha : skip a = true)
    (h : skipOver skip x = c :: w) (hc : c ≠ d) :
    (star (charExcept skip d) (a :: x) : Reply α ε Unit) = star (charExcept skip d) x := by
  have hx := star_step charExcept_consumes (charExcept_ok (ε := ε) h hc)
  have hax := star_step charExcept_consumes
    (charExcept_ok (ε := ε) ((skipOver_cons_of_pos ha x).trans h) hc)
  rw [hx, hax]

theorem star_charExcept_delimiter {core s : List α} (hd : d ∉ core)
    (hlast : ∀ h : core ≠ [], skip (core.getLast h) = false) (hs : ∀ b ∈ s, skip b = true)
    (hskip : skip d = false) (w : List α) :
    (star (charExcept skip d) (core ++ (s ++ d :: w)) : Reply α ε Unit) =
      ⟨some ((), []), s ++ d :: w, []⟩ := by
  induction core with
  | nil =>
    refine star_stop (charExcept_delimiter (w := w) ?_)
    rw [List.nil_append, skipOver_append hs, skipOver_cons_of_neg hskip]
  | cons a core ih =>
    have hd' : d ∉ core := fun h => hd (List.mem_cons_of_mem a h)
    have hlast' : ∀ h : core ≠ [], skip (core.getLast h) = false := by
      intro h
      simpa [List.getLast_cons h] using hlast (List.cons_ne_nil a core)
    rw [List.cons_append]
    by_cases ha : skip a = true
    · have hne : core ≠ [] := by
        rintro rfl
        simp [ha] at hlast
      have ht : IsText skip d core := ⟨hd', _, List.getLast_mem hne, hlast' hne⟩
      obtain ⟨c, v, hc, hcd, _⟩ := trimLeft_visible ht
      have hv : skipOver skip (core ++ (s ++ d :: w)) = c :: (v ++ (s ++ d :: w)) := by
        rw [trimLeft_append ht, hc, List.cons_append]
      rw [star_charExcept_skip ha hv hcd]
      exact ih hd' hlast'
    · have had : a ≠ d := fun h => hd (h ▸ List.mem_cons_self)
      have hstep := charExcept_ok (ε := ε)
        (skipOver_cons_of_neg (by simpa using ha) (core ++ (s ++ d :: w))) had
      rw [star_step charExcept_consumes hstep, ih hd' hlast']
      rfl

theorem star_charExcept_end {t : List α} (hd : d ∉ t) :
    (star (charExcept skip d) t : Reply α ε Unit) = ⟨some ((), []), [], []⟩ := by
  induction t with
  | nil => exact star_stop (charExcept_end skipOver_nil)
  | cons a t ih =>
    have hd' : d ∉ t := fun h => hd (List.mem_cons_of_mem a h)
    by_cases ha : skip a = true
    · cases h : skipOver skip t with
      | nil => exact star_stop (charExcept_end ((skipOver_cons_of_pos ha t).trans h))
      | cons c w =>
        have hc : c ∈ t := mem_of_mem_skipOver (by rw [h]; simp)
        have hcd : c ≠ d := fun he => hd' (he ▸ hc)
        rw [star_charExcept_skip ha h hcd]
        exact ih hd'
    · have had : a ≠ d := fun h => hd (h ▸ List.mem_cons_self)
      have hstep := charExcept_ok (ε := ε) (skipOver_cons_of_neg (by simpa using ha) t) had
      rw [star_step charExcept_consumes hstep, ih hd']
      rfl

theorem upTo_fail {x : List α} (h : skipOver skip x = [] ∨ ∃ w, skipOver skip x = d :: w) :
    (upTo skip d x : Reply α ε (List α)) = .fail (skipOver skip x) [] := by
  have hp : (plus (charExcept skip d) (skipOver skip x) : Reply α ε Unit) =
      .fail (skipOver skip x) [] := by
    rcases h with h | ⟨w, h⟩
    · rw [h]
      exact plus_fail (charExcept_end skipOver_nil)
    · exact plus_fail (charExcept_delimiter (w := w) (by rw [skipOver_skipOver, h]))
  simp only [upTo, raw, hp, Reply.fail]

/-- The delimited run is reported trimmed; the iterator stands before its trailing
skippable tokens. -/
theorem upTo_ok {t : List α} (ht : IsText skip d t) (hskip : skip d = false) (w : List α) :
    ∃ s, (∀ b ∈ s, skip b = true) ∧
      (upTo skip d (t ++ d :: w) : Reply α ε (List α)) =
        ⟨some (trim skip t, []), s ++ d :: w, []⟩ := by
  obtain ⟨s, hs, hsplit⟩ : ∃ s, (∀ b ∈ s, skip b = true) ∧ trimLeft skip t = trim skip t ++ s :=
    trimRight_split (trimLeft skip t)
  obtain ⟨c, v, hc, hcd, hcv⟩ := trimLeft_visible ht
  refine ⟨s, hs, ?_⟩
  have hi : skipOver skip (t ++ d :: w) = trim skip t ++ (s ++ d :: w) := by
    rw [trimLeft_append ht, ← List.append_assoc]
    exact congrArg (· ++ d :: w) hsplit
  have hnd : d ∉ trim skip t := by
    intro h
    have hl : d ∈ trimLeft skip t := by
      rw [hsplit]
      exact List.mem_append_left s h
    exact ht.undelimited (mem_of_mem_skipOver hl)
  have hfirst : skipOver skip (trim skip t ++ (s ++ d :: w)) = c :: (v ++ d :: w) := by
    rw [← hi, skipOver_skipOver, trimLeft_append ht, hc, List.cons_append]
  have hp : (plus (charExcept skip d) (trim skip t ++ (s ++ d :: w)) : Reply α ε Unit) =
      ⟨some ((), []), s ++ d :: w, []⟩ := by
    rw [plus_eq_star charExcept_consumes (charExcept_ok hfirst hcd)]
    exact star_charExcept_delimiter hnd (fun h => trimRight_last _ h) hs hskip w
  simp only [upTo, raw, hi, hp]
  simp

theorem upTo_end {t : List α} (ht : IsText skip d t) :
    (upTo skip d t : Reply α ε (List α)) = ⟨some (trimLeft skip t, []), [], []⟩ := by
  obtain ⟨c, v, hc, hcd, hcv⟩ := trimLeft_visible ht
  have hi : skipOver skip t = trimLeft skip t := rfl
  have hnd : d ∉ trimLeft skip t := fun h => ht.undelimited (mem_of_mem_skipOver h)
  have hp : (plus (charExcept skip d) (trimLeft skip t) : Reply α ε Unit) =
      ⟨some ((), []), [], []⟩ := by
    have hfirst : skipOver skip (trimLeft skip t) = c :: v := (skipOver_skipOver t).trans hc
    rw [plus_eq_star charExcept_consumes (charExcept_ok hfirst hcd)]
    exact star_charExcept_end hnd
  simp only [upTo, raw, hi, hp]
  simp

end X3
