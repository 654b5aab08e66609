import Ringbeller.Lib.GrammarSpec

/-!
# What match_condition accepts

The grammar with idle setters decides the response language of `ResponseLanguage` and
stops at the end of it.
-/

namespace Ringbeller
set_option autoImplicit false

open X3 Grammar

theorem matchCondition_ok {b w : List UInt8} {k r : List Unit}
    (h : response nop1 nop2 nop2 b = ⟨some ((), k), w, r⟩) :
    matchCondition b = (skipBlanks w, true) := by
  simp only [matchCondition, phraseParse, grammarSpec, h]
  rfl

theorem matchCondition_fail {b : List UInt8} {r : List Unit}
    (h : response nop1 nop2 nop2 b = .fail b r) :
    matchCondition b = (skipBlanks b, false) := by
  simp only [matchCondition, phraseParse, grammarSpec, h]
  rfl

theorem matchCondition_of_readsTo {b rest : List UInt8} (h : ReadsTo b rest) :
    matchCondition b = (rest, true) := by
  cases h with
  | @code s w l hs hl =>
    obtain ⟨c, u, hc⟩ := (l.isResultCode_iff w).mp hl
    exact matchCondition_ok (response_code _ _ _ (y := l.bytes ++ w)
      (by simpa using skipBlanks_crlf hs (lf :: (l.bytes ++ w))) hc)
  | @report s s' w l l' ls hs hl hs' hl' =>
    obtain ⟨c, u, hc⟩ := (l'.isResultCode_iff w).mp hl'
    have hw : skipBlanks (s' ++ [cr, lf] ++ l'.bytes ++ w) = cr :: lf :: (l'.bytes ++ w) := by
      simpa using skipBlanks_crlf hs' (lf :: (l'.bytes ++ w))
    generalize s' ++ [cr, lf] ++ l'.bytes ++ w = v at hw ⊢
    have hb : skipBlanks (s ++ [cr, lf] ++ render (l :: ls) ++ v) =
        cr :: lf :: (render (l :: ls) ++ v) := by
      simpa using skipBlanks_crlf hs (lf :: (render (l :: ls) ++ v))
    have hfirst : ¬ StartsFinal (s ++ [cr, lf] ++ render (l :: ls) ++ v) := fun hf =>
      hl ((startsFinal_iff (w := render ls ++ v) (by rw [hb]; simp [render])).mp hf)
    obtain ⟨_, _, hr⟩ := response_report nop1 nop2 nop2 hb hfirst hw hc
    exact matchCondition_ok hr
  | @lines s w l ls hs hl hw hfinal =>
    have hb : skipBlanks (s ++ [cr, lf] ++ render (l :: ls) ++ w) =
        cr :: lf :: (render (l :: ls) ++ w) := by
      simpa using skipBlanks_crlf hs (lf :: (render (l :: ls) ++ w))
    have hfirst : ¬ StartsFinal (s ++ [cr, lf] ++ render (l :: ls) ++ w) := fun hf =>
      hl ((startsFinal_iff (w := render ls ++ w) (by rw [hb]; simp [render])).mp hf)
    have hfinal' : ¬ StartsFinal w := by
      rintro ⟨y, c, u, w', hy, hc⟩
      obtain ⟨l', rfl, hl'⟩ := hc.startsLine
      obtain ⟨s', hs', hsplit⟩ := skipBlanks_split w
      exact hfinal s' l' w' hs' hl' (by rw [hsplit, hy]; simp)
    obtain ⟨_, _, _, _, hr⟩ := response_lines nop1 nop2 nop2 hb hfirst hw hfinal'
    exact matchCondition_ok hr
  | @prompt s s' w hs hs' hline =>
    have hb : skipBlanks (s ++ [cr, lf] ++ (s' ++ ascii "> " ++ w)) =
        cr :: lf :: (s' ++ ascii "> " ++ w) := by
      simpa using skipBlanks_crlf hs (lf :: (s' ++ ascii "> " ++ w))
    have hprompt : skipBlanks (s' ++ ascii "> " ++ w) = ascii "> " ++ w := by
      rw [List.append_assoc, skipBlanks, skipOver_append hs']
      exact skipOver_cons_of_neg (by decide) _
    have hr := response_prompt nop1 nop2 nop2 hb hline hprompt
    exact matchCondition_ok hr

theorem readsTo_or_rejected (b : List UInt8) :
    (∃ rest, ReadsTo b rest) ∨ ∀ y, skipBlanks b = cr :: lf :: y →
      ¬ StartsLine y ∧ ∀ w, skipBlanks y ≠ ascii "> " ++ w := by
  obtain ⟨s, hs, hsplit⟩ := skipBlanks_split b
  cases reading_cases b with
  | @code y u w c hb hc =>
    obtain ⟨l, rfl, hl⟩ := hc.startsLine
    refine Or.inl ⟨skipBlanks w, ?_⟩
    rw [hsplit, hb]
    simpa using ReadsTo.code (w := w) hs hl
  | @report l ls w y u w' c hb hfirst hw hc =>
    have hl : ¬ l.IsResultCode := fun h =>
      hfirst ((startsFinal_iff (w := render ls ++ w) (by rw [hb]; simp [render])).mpr h)
    obtain ⟨l', rfl, hl'⟩ := hc.startsLine
    obtain ⟨s', hs', hsplit'⟩ := skipBlanks_split w
    refine Or.inl ⟨skipBlanks w', ?_⟩
    rw [hsplit, hb, hsplit', hw]
    simpa using @ReadsTo.report s s' w' l l' ls hs hl hs' hl'
  | @lines l ls w hb hfirst hw hfinal =>
    have hl : ¬ l.IsResultCode := fun h =>
      hfirst ((startsFinal_iff (w := render ls ++ w) (by rw [hb]; simp [render])).mpr h)
    refine Or.inl ⟨skipBlanks w, ?_⟩
    rw [hsplit, hb]
    have hno : ∀ s' (l' : ContentLine) w', AllBlank s' → l'.IsResultCode →
        w ≠ s' ++ [cr, lf] ++ l'.bytes ++ w' := by
      rintro s' l' w' hs' hl' rfl
      have hw' := skipBlanks_crlf hs' (lf :: (l'.bytes ++ w'))
      exact hfinal ((startsFinal_iff (by simpa using hw')).mpr hl')
    simpa using @ReadsTo.lines s w l ls hs hl hw hno
  | @prompt y w hb hy hw =>
    obtain ⟨s', hs', hsplit'⟩ := skipBlanks_split y
    refine Or.inl ⟨skipBlanks w, ?_⟩
    rw [hsplit, hb, hsplit', hw]
    have hline : ¬ StartsLine (s' ++ ascii "> " ++ w) := by
      rwa [List.append_assoc, ← hw, ← hsplit']
    simpa using ReadsTo.prompt hs hs' hline
  | rejected h => exact Or.inr h

theorem matchCondition_rejected {b : List UInt8} (h : ∀ y, skipBlanks b = cr :: lf :: y →
    ¬ StartsLine y ∧ ∀ w, skipBlanks y ≠ ascii "> " ++ w) :
    matchCondition b = (skipBlanks b, false) := by
  obtain ⟨r, hr⟩ := response_rejected nop1 nop2 nop2 h
  exact matchCondition_fail hr

/-- No range that begins with anything but blanks and a CR is accepted. -/
theorem matchCondition_foreign {c : UInt8} (hblank : blank c = false) (hc : c ≠ cr)
    (v : List UInt8) : (matchCondition (c :: v)).2 = false := by
  rw [matchCondition_rejected]
  intro y hy
  rw [skipBlanks, skipOver_cons_of_neg hblank] at hy
  exact absurd (List.cons.inj hy).1 hc

theorem matchCondition_eq_true_iff {b rest : List UInt8} :
    matchCondition b = (rest, true) ↔ ReadsTo b rest := by
  refine ⟨fun h => ?_, matchCondition_of_readsTo⟩
  rcases readsTo_or_rejected b with ⟨rest', hr⟩ | hno
  · rw [matchCondition_of_readsTo hr] at h
    cases h
    exact hr
  · rw [matchCondition_rejected hno] at h
    cases h

theorem accepts_iff {b : List UInt8} :
    (matchCondition b).2 = true ↔ ∃ y, skipBlanks b = cr :: lf :: y ∧
      (StartsLine y ∨ ∃ w, skipBlanks y = ascii "> " ++ w) := by
  constructor
  · intro h
    by_contra hno
    have hrej := matchCondition_rejected (b := b) (fun y hy =>
      ⟨fun hl => hno ⟨y, hy, Or.inl hl⟩, fun w hw => hno ⟨y, hy, Or.inr ⟨w, hw⟩⟩⟩)
    rw [hrej] at h
    cases h
  · rintro ⟨y, hy, h⟩
    rcases readsTo_or_rejected b with ⟨rest, hr⟩ | hno
    · rw [matchCondition_of_readsTo hr]
    · rcases h with h | ⟨w, hw⟩
      · exact absurd h (hno y hy).1
      · exact absurd hw ((hno y hy).2 w)

/-- What follows does not take an acceptance back. -/
theorem accepts_append {b : List UInt8} (h : (matchCondition b).2 = true) (w : List UInt8) :
    (matchCondition (b ++ w)).2 = true := by
  obtain ⟨y, hy, h⟩ := accepts_iff.mp h
  refine accepts_iff.mpr ⟨y ++ w, skipBlanks_append hy w, ?_⟩
  rcases h with ⟨l, v, rfl⟩ | ⟨v, hv⟩
  · exact Or.inl ⟨l, v ++ w, List.append_assoc _ _ _⟩
  · exact Or.inr ⟨v ++ w, skipBlanks_append hv w⟩

/-- match_condition accepts exactly the response language and returns exactly its end. -/
theorem matchCondition_reads (b : List UInt8) :
    ((matchCondition b).2 = true ↔ ∃ s r, AllBlank s ∧ b = s ++ [cr, lf] ++ r ∧
      (StartsLine r ∨ ∃ s' w, AllBlank s' ∧ r = s' ++ ascii "> " ++ w)) ∧
    ∀ rest, matchCondition b = (rest, true) ↔ ReadsTo b rest := by
  refine ⟨accepts_iff.trans ⟨?_, ?_⟩, fun rest => matchCondition_eq_true_iff⟩
  · rintro ⟨y, hy, h⟩
    obtain ⟨s, hs, hsplit⟩ := skipBlanks_split b
    refine ⟨s, y, hs, by rw [hsplit, hy]; simp, h.imp_right ?_⟩
    rintro ⟨w, hw⟩
    obtain ⟨s', hs', hsplit'⟩ := skipBlanks_split y
    exact ⟨s', w, hs', by rw [hsplit', hw, List.append_assoc]⟩
  · rintro ⟨s, r, hs, rfl, h⟩
    refine ⟨r, by simpa using skipBlanks_crlf hs (lf :: r), h.imp_right ?_⟩
    rintro ⟨s', w, hs', rfl⟩
    refine ⟨w, ?_⟩
    rw [List.append_assoc, skipBlanks, skipOver_append hs']
    exact skipOver_cons_of_neg (by decide) _

end Ringbeller
