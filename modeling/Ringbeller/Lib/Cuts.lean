import Ringbeller.Lib.MatchCondition

/-!
# Cut messages

What `match_condition` says about a range that ends inside a message, and how it goes on
when the rest has come.
-/

namespace Ringbeller
set_option autoImplicit false

open X3 Grammar

/-! ## The returned iterator -/

theorem matchCondition_congr {b b' : List UInt8} (h : skipBlanks b = skipBlanks b') :
    matchCondition b = matchCondition b' := by
  have hfinal : ∀ {x x' : List UInt8}, skipBlanks x = skipBlanks x' → StartsFinal x' →
      StartsFinal x := fun hx ⟨y, c, u, w, hy, hc⟩ => ⟨y, c, u, w, hx.trans hy, hc⟩
  cases reading_cases b with
  | code hb hc =>
    rw [matchCondition_ok (response_code _ _ _ hb hc),
      matchCondition_ok (response_code _ _ _ (h ▸ hb) hc)]
  | report hb hfirst hw hc =>
    obtain ⟨_, _, hr⟩ := response_report nop1 nop2 nop2 hb hfirst hw hc
    obtain ⟨_, _, hr'⟩ := response_report nop1 nop2 nop2 (h ▸ hb)
      (fun hf => hfirst (hfinal h hf)) hw hc
    rw [matchCondition_ok hr, matchCondition_ok hr']
  | lines hb hfirst hw hno =>
    obtain ⟨_, _, _, _, hr⟩ := response_lines nop1 nop2 nop2 hb hfirst hw hno
    obtain ⟨_, _, _, _, hr'⟩ := response_lines nop1 nop2 nop2 (h ▸ hb)
      (fun hf => hfirst (hfinal h hf)) hw hno
    rw [matchCondition_ok hr, matchCondition_ok hr']
  | prompt hb hy hw =>
    have hr := response_prompt nop1 nop2 nop2 hb hy hw
    have hr' := response_prompt nop1 nop2 nop2 (h ▸ hb) hy hw
    rw [matchCondition_ok hr, matchCondition_ok hr']
  | rejected hno =>
    rw [matchCondition_rejected hno, matchCondition_rejected (fun y hy => hno y (h.trans hy)), h]

theorem matchCondition_of_false {b : List UInt8} (h : (matchCondition b).2 = false) :
    matchCondition b = (skipBlanks b, false) := by
  rcases readsTo_or_rejected b with ⟨rest, hr⟩ | hno
  · rw [matchCondition_of_readsTo hr] at h
    cases h
  · exact matchCondition_rejected hno

/-- After a rejection the search may go on from the returned iterator. -/
theorem matchCondition_resume {b : List UInt8} (h : (matchCondition b).2 = false)
    (w : List UInt8) : matchCondition ((matchCondition b).1 ++ w) = matchCondition (b ++ w) := by
  rw [matchCondition_of_false h]
  obtain ⟨s, hs, hsplit⟩ := skipBlanks_split b
  apply matchCondition_congr
  conv_rhs => rw [hsplit, List.append_assoc]
  exact (skipOver_append hs _).symm

theorem readsTo_suffix {b rest : List UInt8} (h : ReadsTo b rest) :
    ∃ v, v ≠ [] ∧ b = v ++ rest := by
  have hend : ∀ (v w : List UInt8), v ≠ [] → ∃ v', v' ≠ [] ∧ v ++ w = v' ++ skipBlanks w := by
    intro v w hv
    obtain ⟨s, _, hsplit⟩ := skipBlanks_split w
    refine ⟨v ++ s, by simp [hv], ?_⟩
    conv_lhs => rw [hsplit]
    simp
  cases h with
  | code hs hl => exact hend _ _ (by simp)
  | report hs hl hs' hl' =>
    rw [← List.append_assoc]
    exact hend _ _ (by simp)
  | lines hs hl hw hno => exact hend _ _ (by simp)
  | prompt hs hs' hline =>
    rw [← List.append_assoc]
    exact hend _ _ (by simp)

theorem matchCondition_suffix (b : List UInt8) : (matchCondition b).1 <:+ b := by
  rcases readsTo_or_rejected b with ⟨rest, hr⟩ | hno
  · obtain ⟨v, _, hv⟩ := readsTo_suffix hr
    rw [matchCondition_of_readsTo hr]
    exact ⟨v, hv.symm⟩
  · rw [matchCondition_rejected hno]
    exact skipOver_suffix b

theorem matchCondition_consumes {b : List UInt8} (h : (matchCondition b).2 = true) :
    (matchCondition b).1.length < b.length := by
  rcases readsTo_or_rejected b with ⟨rest, hr⟩ | hno
  · obtain ⟨v, hne, hv⟩ := readsTo_suffix hr
    have hpos := List.length_pos_iff.mpr hne
    rw [matchCondition_of_readsTo hr]
    simp only [hv, List.length_append]
    omega
  · rw [matchCondition_rejected hno] at h
    cases h

/-! ## Ranges that end inside a message -/

/-- Where a range that a first content line opens is accepted for the first time: behind a
prompt, if the line begins with one, and else behind the line. -/
def ContentLine.stop (l : ContentLine) : Nat :=
  if ascii "> " <+: skipBlanks l.content then l.content.length - (skipBlanks l.content).length + 2
  else l.bytes.length

theorem startsLine_cut {l : ContentLine} {z q : List UInt8} (hq : q <+: l.bytes ++ z) :
    StartsLine q ↔ l.bytes.length ≤ q.length := by
  obtain ⟨r, hr⟩ := hq
  constructor
  · rintro ⟨l', w, rfl⟩
    rw [List.append_assoc] at hr
    rw [(ContentLine.bytes_inj hr).1, List.length_append]
    omega
  · intro hle
    obtain ⟨w, hw⟩ := List.prefix_of_prefix_length_le (List.prefix_append l.bytes z) ⟨r, hr⟩ hle
    exact ⟨l, w, hw.symm⟩

/-- What is delimited ends the comparison with a word that lacks the delimiter. -/
theorem prefix_delimited {p a w : List UInt8} {d : UInt8} (hp : d ∉ p) :
    p <+: a ++ d :: w ↔ p <+: a := by
  refine ⟨fun h => ?_, fun h => h.trans (List.prefix_append a _)⟩
  rcases List.prefix_or_prefix_of_prefix h (List.prefix_append a _) with h' | ⟨r, rfl⟩
  · exact h'
  · rw [List.prefix_append_right_inj] at h
    cases r with
    | nil => simp
    | cons c r =>
      obtain ⟨rfl, _⟩ := List.cons_prefix_cons.mp h
      exact absurd (List.mem_append_right a List.mem_cons_self) hp

theorem prefix_cut {p q t : List UInt8} (hq : q <+: t) :
    p <+: q ↔ p <+: t ∧ p.length ≤ q.length :=
  ⟨fun h => ⟨h.trans hq, h.length_le⟩, fun h => List.prefix_of_prefix_length_le h.1 hq h.2⟩

theorem prompt_cut {l : ContentLine} {z q : List UInt8} (hq : q <+: l.bytes ++ z) :
    ascii "> " <+: skipBlanks q ↔ ascii "> " <+: skipBlanks l.content ∧
      l.content.length - (skipBlanks l.content).length + 2 ≤ q.length := by
  obtain ⟨s, hs, hsplit⟩ := skipBlanks_split l.content
  obtain ⟨c, v, hv, _, hcv⟩ := trimLeft_visible l.isText
  have hlen : l.content.length - (skipBlanks l.content).length = s.length := by
    have h := congrArg List.length hsplit
    rw [List.length_append] at h
    omega
  have hbytes : l.bytes ++ z = s ++ (skipBlanks l.content ++ cr :: lf :: z) := by
    conv_lhs => rw [ContentLine.bytes, hsplit]
    simp
  rw [hlen]
  rw [hbytes] at hq
  rcases List.prefix_or_prefix_of_prefix hq (List.prefix_append s _) with hshort | ⟨q', rfl⟩
  · -- the range ends among the blanks in front of the line
    have hnil : skipBlanks q = [] := skipOver_eq_nil.mpr (fun b hb => hs b (hshort.subset hb))
    have hle := hshort.length_le
    rw [hnil]
    exact ⟨fun h => by simp [ascii] at h, fun h => absurd h.2 (by omega)⟩
  · rw [List.prefix_append_right_inj] at hq
    have hskip : skipBlanks (s ++ q') = q' := by
      rw [skipBlanks, skipOver_append hs]
      cases q' with
      | nil => rfl
      | cons c' q'' =>
        rw [show skipBlanks l.content = c :: v from hv] at hq
        rw [(List.cons_prefix_cons.mp hq).1]
        exact skipOver_cons_of_neg hcv q''
    rw [hskip, prefix_cut hq, prefix_delimited (by decide), List.length_append]
    exact and_congr_right (fun _ => by simp [ascii])

theorem accepts_cut {l : ContentLine} {z p : List UInt8} (hp : p <+: cr :: lf :: (l.bytes ++ z)) :
    (matchCondition p).2 = true ↔ 2 + l.stop ≤ p.length := by
  rw [accepts_iff]
  by_cases hlong : ∃ q, p = cr :: lf :: q
  swap
  · have hshort : p.length < 2 := by
      by_contra hlen
      obtain ⟨a, b, q, rfl⟩ : ∃ a b q, p = a :: b :: q := by
        match p, hlen with
        | a :: b :: q, _ => exact ⟨a, b, q, rfl⟩
      simp only [List.cons_prefix_cons] at hp
      exact hlong ⟨q, by rw [hp.1, hp.2.1]⟩
    refine ⟨fun ⟨y, hy, _⟩ => ?_, fun h => absurd h (by omega)⟩
    have hle : (skipBlanks p).length ≤ p.length := (skipOver_suffix p).length_le
    rw [hy] at hle
    simp at hle
    omega
  obtain ⟨q, rfl⟩ := hlong
  simp only [List.cons_prefix_cons, true_and] at hp
  have hskip : skipBlanks (cr :: lf :: q) = cr :: lf :: q := skipOver_cons_of_neg blank_cr _
  have hprompt : (∃ w, skipBlanks q = ascii "> " ++ w) ↔ ascii "> " <+: skipBlanks q :=
    exists_congr (fun w => eq_comm)
  have hle : l.content.length - (skipBlanks l.content).length + 2 ≤ l.bytes.length := by
    simp only [ContentLine.bytes, List.length_append, List.length_cons, List.length_nil]
    omega
  rw [hskip]
  simp only [List.cons.injEq, true_and, exists_eq_left', hprompt, startsLine_cut hp, prompt_cut hp,
    ContentLine.stop, List.length_cons]
  split
  · next h =>
    simp only [h, true_and]
    omega
  · next h =>
    simp only [h, false_and, or_false]
    omega

/-! ## Complete messages -/

def FinalCode.line (f : FinalCode) : ContentLine :=
  ⟨f.bytes, literal_isText (ResultCode.mem_resultCodes.mpr f.coded) f.crFree⟩

theorem FinalCode.line_isResultCode (f : FinalCode) : f.line.IsResultCode :=
  (f.line.isResultCode_iff []).mpr ⟨f.code, f.text, by
    simpa [FinalCode.line, ContentLine.bytes] using f.codeLine []⟩

theorem FinalCode.line_stop (f : FinalCode) : f.line.stop = f.line.bytes.length := by
  refine if_neg (fun h => ?_)
  have hc := ResultCode.mem_resultCodes.mpr f.coded
  have hline : skipBlanks f.line.content = f.code.literal ++ f.text := skipBlanks_literal hc _
  obtain ⟨a, v, hl, ha⟩ := literal_not_prompt hc
  rw [hline, hl] at h
  exact ha (List.cons_prefix_cons.mp h).1.symm

namespace CompleteMessage

def firstLine (m : CompleteMessage) : ContentLine := m.lines.headD m.final.line

/-- The least number of its bytes that `match_condition` takes for a message. -/
def firstStop (m : CompleteMessage) : Nat := 2 + m.firstLine.stop

theorem bytes_split (m : CompleteMessage) :
    ∃ z, m.bytes = cr :: lf :: (m.firstLine.bytes ++ z) ∧ (m.lines = [] → z = []) := by
  obtain ⟨lines, f, hinforms⟩ := m
  cases lines with
  | nil =>
    exact ⟨[], by simp [CompleteMessage.bytes, firstLine, FinalCode.line, ContentLine.bytes],
      fun _ => rfl⟩
  | cons l ls =>
    refine ⟨render ls ++ [cr, lf] ++ f.bytes ++ [cr, lf], ?_, fun h => by cases h⟩
    simp [CompleteMessage.bytes, firstLine, render]

theorem accepts_cut (m : CompleteMessage) {p : List UInt8} (hp : p <+: m.bytes) :
    (matchCondition p).2 = true ↔ m.firstStop ≤ p.length := by
  obtain ⟨z, hz, _⟩ := m.bytes_split
  exact Ringbeller.accepts_cut (hz ▸ hp)

theorem firstStop_code {m : CompleteMessage} (h : m.lines = []) : m.firstStop = m.bytes.length := by
  obtain ⟨z, hz, hnil⟩ := m.bytes_split
  have hline : m.firstLine = m.final.line := by rw [firstLine, h]; rfl
  rw [hz, hnil h, firstStop, hline, m.final.line_stop]
  simp only [List.append_nil, List.length_cons]
  omega

theorem readsTo (m : CompleteMessage) (w : List UInt8) : ReadsTo (m.bytes ++ w) (skipBlanks w) := by
  obtain ⟨lines, f, hinforms⟩ := m
  cases lines with
  | nil =>
    have h := ReadsTo.code (s := []) (w := w) (by simp [AllBlank]) f.line_isResultCode
    simpa [CompleteMessage.bytes, FinalCode.line, ContentLine.bytes] using h
  | cons l ls =>
    have h := @ReadsTo.report [] [] w l f.line ls (by simp [AllBlank]) (hinforms l rfl)
      (by simp [AllBlank]) f.line_isResultCode
    simpa [CompleteMessage.bytes, FinalCode.line, ContentLine.bytes] using h

theorem matchCondition_eq (m : CompleteMessage) (w : List UInt8) :
    matchCondition (m.bytes ++ w) = (skipBlanks w, true) := matchCondition_of_readsTo (m.readsTo w)

theorem bytes_ne_nil (m : CompleteMessage) : m.bytes ≠ [] := by
  obtain ⟨z, hz, _⟩ := m.bytes_split
  simp [hz]

end CompleteMessage

end Ringbeller
