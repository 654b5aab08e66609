import Ringbeller.Lib.Outputs

/-!
# Rendering what has been read

The message that says what a reading has given, with nothing that the reading drops: no blanks
around a line or a text, and nothing in front of or behind the message.
-/

namespace Ringbeller
set_option autoImplicit false

open X3 Grammar Outputs

namespace Outputs

def onlyPrompt : Outputs := ⟨.none, [], [ascii "> "]⟩

def renderedCode (o : Outputs) : List UInt8 :=
  if o.resultCode = .none then []
  else [cr, lf] ++ (o.resultCode.literal ++ o.resultText) ++ [cr, lf]

def rendered (o : Outputs) : List UInt8 :=
  if o = onlyPrompt then [cr, lf] ++ ascii "> "
  else if o.body = [] then o.renderedCode
  else [cr, lf] ++ (o.body.flatMap fun line => line ++ [cr, lf]) ++ o.renderedCode

end Outputs

theorem trimLeft_content {t : List UInt8} (h : Content t) : trimLeft blank t = t := by
  obtain ⟨_, a, u, rfl, ha⟩ := h
  exact skipOver_cons_of_neg ha u

theorem trimBlanks_trimBlanks (t : List UInt8) (ht : cr ∉ t) :
    trimBlanks (trimBlanks t) = trimBlanks t := by
  by_cases hv : ∃ b ∈ t, blank b = false
  · have hleft : trimLeft blank (trimBlanks t) = trimBlanks t :=
      trimLeft_content (content_trimBlanks ⟨ht, hv⟩)
    have hright : trimRight blank (trimBlanks t) = trimBlanks t :=
      List.rdropWhile_idempotent blank _
    rw [trimBlanks, trim, hleft, hright]
  · have hnil : trimBlanks t = [] := trim_eq_nil.mpr (by simpa using hv)
    rw [hnil]
    rfl

theorem takes_trimBlanks {c : ResultCode} {u : List UInt8} (h : c.Takes (trimRight blank u)) :
    c.Takes (trimBlanks u) := by
  have hvisible : (∃ b ∈ trimRight blank u, blank b = false) →
      ∃ b ∈ trimBlanks u, blank b = false := by
    intro hv
    apply trimRight_visible.mpr
    obtain ⟨b, hb, hblank⟩ := trimRight_visible.mp hv
    obtain ⟨s, hs, hsplit⟩ := skipBlanks_split u
    rw [hsplit] at hb
    rcases List.mem_append.mp hb with hb | hb
    · rw [hs b hb] at hblank
      cases hblank
    · exact ⟨b, hb, hblank⟩
  have hnil : trimRight blank u = [] → trimBlanks u = [] := fun h =>
    trim_eq_nil.mpr (List.rdropWhile_eq_nil_iff.mp h)
  cases c with
  | connect => trivial
  | cmeError => exact hvisible h
  | cmsError => exact hvisible h
  | _ => exact hnil h

/-- The code of a line, with its text trimmed. -/
def CodeLine.final {y u w : List UInt8} {c : ResultCode} (h : CodeLine y c u w) : FinalCode :=
  ⟨c, trimBlanks u, ResultCode.mem_resultCodes.mp h.coded,
    fun hm => trimLeft_crFree h.crFree ((List.rdropWhile_prefix blank _).subset hm),
    takes_trimBlanks h.takes⟩

namespace ContentLine

/-- The line without the blanks around it. -/
def core (l : ContentLine) : ContentLine :=
  ⟨l.trimmed, (content_trimBlanks l.isText).1, by
    obtain ⟨_, a, u, hl, ha⟩ := content_trimBlanks l.isText
    rw [trimmed, hl]
    exact ⟨a, List.mem_cons_self, ha⟩⟩

theorem trimmed_core (l : ContentLine) : l.core.trimmed = l.trimmed :=
  trimBlanks_trimBlanks l.content l.isText.undelimited

theorem isResultCode_core (l : ContentLine) : l.core.IsResultCode ↔ l.IsResultCode := by
  rw [IsResultCode, IsResultCode, trimmed_core]

/-- No trimmed line is the prompt, which ends in a blank. -/
theorem trimmed_ne_prompt (l : ContentLine) : l.trimmed ≠ ascii "> " := by
  intro h
  have hlast := @trimRight_last _ blank (trimLeft blank l.content)
  have heq : trimRight blank (trimLeft blank l.content) = ascii "> " := h
  rw [heq] at hlast
  exact absurd (hlast (by decide)) (by decide)

end ContentLine

theorem map_trimmed_core (ls : List ContentLine) :
    (ls.map ContentLine.core).map ContentLine.trimmed = ls.map ContentLine.trimmed := by
  simp [ContentLine.trimmed_core]

theorem render_core (ls : List ContentLine) :
    render (ls.map ContentLine.core) =
      (ls.map ContentLine.trimmed).flatMap fun line => line ++ [cr, lf] := by
  rw [render, List.flatMap_map, List.flatMap_map]
  rfl

/-! ## Messages with a code -/

theorem derived_message (m : CompleteMessage) (w : List UInt8) :
    derivedOutputs (m.bytes ++ w) fresh =
      ⟨m.final.code, trimBlanks m.final.text, m.lines.map ContentLine.trimmed⟩ := by
  obtain ⟨lines, f, hinforms⟩ := m
  have hcode := f.codeLine_crlf w
  cases lines with
  | nil =>
    have hopen : skipBlanks ([cr, lf] ++ f.bytes ++ [cr, lf] ++ w) =
        cr :: lf :: (f.bytes ++ [cr, lf] ++ w) := skipOver_cons_of_neg blank_cr _
    exact derived_code hopen hcode
  | cons l ls =>
    obtain ⟨v, hv⟩ : ∃ v, v = cr :: lf :: (f.bytes ++ [cr, lf] ++ w) := ⟨_, rfl⟩
    have hbehind : skipBlanks v = cr :: lf :: (f.bytes ++ [cr, lf] ++ w) := by
      rw [hv]
      exact skipOver_cons_of_neg blank_cr _
    have hbytes : [cr, lf] ++ render (l :: ls) ++ [cr, lf] ++ f.bytes ++ [cr, lf] ++ w =
        cr :: lf :: (render (l :: ls) ++ v) := by
      rw [hv]
      simp
    have hopen : skipBlanks (cr :: lf :: (render (l :: ls) ++ v)) =
        cr :: lf :: (render (l :: ls) ++ v) := skipOver_cons_of_neg blank_cr _
    have hfirst : ¬ StartsFinal (cr :: lf :: (render (l :: ls) ++ v)) := fun h =>
      hinforms l rfl ((startsFinal_iff (w := render ls ++ v) (by rw [hopen]; simp [render])).mp h)
    rw [show (CompleteMessage.mk (l :: ls) f hinforms).bytes ++ w =
      cr :: lf :: (render (l :: ls) ++ v) from hbytes]
    exact derived_report hopen hfirst hbehind hcode

/-- The rendering is read to its end and gives the same. -/
structure Rereads (o : Outputs) : Prop where
  whole : matchCondition o.rendered = ([], true)
  derived : derivedOutputs o.rendered fresh = o

theorem rendered_message {lines : List ContentLine}
    (hinforms : ∀ l, lines.head? = some l → ¬ l.IsResultCode) {y u w : List UInt8} {c : ResultCode}
    (h : CodeLine y c u w) :
    ∃ m : CompleteMessage, m.lines = lines.map ContentLine.core ∧ m.final = h.final ∧
      (⟨c, trimBlanks u, lines.map ContentLine.trimmed⟩ : Outputs).rendered = m.bytes := by
  have hcores : ∀ l, (lines.map ContentLine.core).head? = some l → ¬ l.IsResultCode := by
    intro l hl
    rw [List.head?_map, Option.map_eq_some_iff] at hl
    obtain ⟨l', hl', rfl⟩ := hl
    rw [l'.isResultCode_core]
    exact hinforms l' hl'
  have hcode : c ≠ .none := ResultCode.mem_resultCodes.mp h.coded
  have hprompt : (⟨c, trimBlanks u, lines.map ContentLine.trimmed⟩ : Outputs) ≠ onlyPrompt :=
    fun heq => hcode (congrArg Outputs.resultCode heq)
  refine ⟨⟨lines.map ContentLine.core, h.final, hcores⟩, rfl, rfl, ?_⟩
  rw [rendered, if_neg hprompt]
  cases lines with
  | nil =>
    rw [List.map_nil, if_pos rfl, renderedCode, if_neg hcode]
    rfl
  | cons l ls =>
    have hbody : (l :: ls).map ContentLine.trimmed ≠ [] := List.cons_ne_nil _ _
    rw [if_neg hbody, renderedCode, if_neg hcode, ← render_core]
    simp only [CompleteMessage.bytes, List.map_cons, CodeLine.final, FinalCode.bytes,
      List.append_assoc]

theorem rereads_message {lines : List ContentLine}
    (hinforms : ∀ l, lines.head? = some l → ¬ l.IsResultCode) {y u w : List UInt8} {c : ResultCode}
    (h : CodeLine y c u w) :
    let o : Outputs := ⟨c, trimBlanks u, lines.map ContentLine.trimmed⟩
    Rereads o ∧ (parseResponse o.rendered fresh).2 = o := by
  intro o
  obtain ⟨m, hlines, hfinal, hbytes⟩ := rendered_message hinforms h
  have hsame : (⟨m.final.code, trimBlanks m.final.text,
      m.lines.map ContentLine.trimmed⟩ : Outputs) =
      o := by
    have htext : trimBlanks h.final.text = trimBlanks u := trimBlanks_trimBlanks u h.crFree
    rw [hlines, hfinal, htext, map_trimmed_core]
    rfl
  have hmatch := m.matchCondition_eq []
  have hderived := derived_message m []
  have hparse := parse_message m []
  rw [List.append_nil, ← hbytes] at hmatch hderived hparse
  rw [hsame] at hderived hparse
  exact ⟨⟨hmatch, hderived⟩, congrArg Prod.snd hparse⟩

/-! ## Messages without one -/

/-- A literal that begins a line begins its text. -/
theorem literal_in_text {c : ResultCode} {t z : List UInt8} (h : c.literal <+: t ++ cr :: z) :
    c.literal <+: t := by
  rcases List.prefix_or_prefix_of_prefix h (List.prefix_append t (cr :: z)) with h' | ⟨s, hs⟩
  · exact h'
  · rw [← hs, List.prefix_append_right_inj] at h
    cases s with
    | nil => rw [← hs, List.append_nil]
    | cons a s =>
      obtain ⟨rfl, _⟩ := List.cons_prefix_cons.mp h
      exact absurd (hs ▸ List.mem_append_right t List.mem_cons_self) (literal_crFree c)

theorem beginsCode_core {b w z : List UInt8} {l : ContentLine}
    (hb : skipBlanks b = cr :: lf :: (l.bytes ++ w))
    (hcore : BeginsCode (cr :: lf :: (l.core.bytes ++ z))) :
    BeginsCode b := by
  obtain ⟨y, hy, c, hc, hprefix⟩ := hcore
  have hopen : skipBlanks (cr :: lf :: (l.core.bytes ++ z)) = cr :: lf :: (l.core.bytes ++ z) :=
    skipOver_cons_of_neg blank_cr _
  obtain rfl := opened_unique hopen hy
  have hleft : trimLeft blank l.core.content = l.trimmed :=
    trimLeft_content (content_trimBlanks l.isText)
  rw [l.core.skipBlanks_bytes, hleft] at hprefix
  refine ⟨_, hb, c, hc, ?_⟩
  rw [l.skipBlanks_bytes]
  have hbegins : l.trimmed <+: trimLeft blank l.content := List.rdropWhile_prefix blank _
  exact (literal_in_text hprefix).trans (hbegins.trans (List.prefix_append _ _))

theorem rendered_lines (l : ContentLine) (ls : List ContentLine) :
    (⟨.none, [], (l :: ls).map ContentLine.trimmed⟩ : Outputs).rendered =
      cr :: lf :: (render ((l :: ls).map ContentLine.core) ++ []) := by
  have hprompt : (⟨.none, [], (l :: ls).map ContentLine.trimmed⟩ : Outputs) ≠ onlyPrompt := by
    intro heq
    have hbody : l.trimmed :: ls.map ContentLine.trimmed = [ascii "> "] :=
      congrArg Outputs.body heq
    exact l.trimmed_ne_prompt (List.cons.inj hbody).1
  have hbody : (l :: ls).map ContentLine.trimmed ≠ [] := List.cons_ne_nil _ _
  rw [rendered, if_neg hprompt, if_neg hbody, renderedCode, if_pos rfl, render_core]
  rfl

theorem rereads_lines {l : ContentLine} {ls : List ContentLine} (hl : ¬ l.IsResultCode) :
    let o : Outputs := ⟨.none, [], (l :: ls).map ContentLine.trimmed⟩
    Rereads o ∧ (¬ BeginsCode o.rendered → (parseResponse o.rendered fresh).2 = o) := by
  intro o
  have hb : skipBlanks o.rendered =
      cr :: lf :: (render (l.core :: ls.map ContentLine.core) ++ []) := by
    rw [rendered_lines]
    exact skipOver_cons_of_neg blank_cr _
  have hline : ¬ StartsLine [] := not_startsLine_of_cr (Or.inl rfl)
  have hcode : ¬ BeginsCode [] := by
    rintro ⟨y, hy, _⟩
    cases hy
  have hfinal : ¬ StartsFinal [] := by
    rintro ⟨y, _, _, _, hy, _⟩
    cases hy
  have hfirst : ¬ StartsFinal o.rendered := by
    rw [startsFinal_iff (l := l.core) (w := render (ls.map ContentLine.core))
      (by rw [hb]; simp [render]), l.isResultCode_core]
    exact hl
  obtain ⟨hderived, c, t, hparse, hc, ht⟩ := parse_lines hb hfirst hline hfinal
  have hsame : (l.core :: ls.map ContentLine.core).map ContentLine.trimmed = o.body :=
    map_trimmed_core (l :: ls)
  rw [hsame] at hderived hparse
  refine ⟨⟨?_, hderived⟩, fun hno => ?_⟩
  · rw [← parseResponse_position o.rendered fresh, hparse]
    rfl
  · have hnone : c = .none := hc.mpr ⟨hno, hcode⟩
    rw [hparse, hnone, ht hnone, begun_blank (Or.inl rfl), List.append_nil]

theorem rereads_prompt : Rereads onlyPrompt := by
  constructor <;> decide

/-- Rendering what an accepted range has been read to gives a message that is read to its end, to
the same code, text and lines. It also sets the outputs to them if reading the range itself has
left no trace of an abandoned path. -/
theorem rendered_rereads (b : List UInt8) (h : (matchCondition b).2 = true) :
    Rereads (derivedOutputs b fresh) ∧
      (LeavesNoTrace b → (parseResponse (derivedOutputs b fresh).rendered fresh).2 =
        (parseResponse b fresh).2) := by
  cases reading_cases b with
  | @code y u w c hb hc =>
    have hnone : ∀ l, ([] : List ContentLine).head? = some l → ¬ l.IsResultCode := by
      rintro l ⟨⟩
    obtain ⟨hreads, hparse⟩ := rereads_message hnone hc
    rw [derived_code hb hc, parse_code hb hc]
    exact ⟨hreads, fun _ => hparse⟩
  | @report l ls w y u w' c hb hfirst hw hc =>
    have hl : ¬ l.IsResultCode := fun hl =>
      hfirst ((startsFinal_iff (w := render ls ++ w) (by rw [hb]; simp [render])).mpr hl)
    have hhead : ∀ l', (l :: ls).head? = some l' → ¬ l'.IsResultCode := by
      rintro l' ⟨⟩
      exact hl
    obtain ⟨hreads, hparse⟩ := rereads_message hhead hc
    rw [derived_report hb hfirst hw hc, parse_report hb hfirst hw hc]
    exact ⟨hreads, fun _ => hparse⟩
  | @lines l ls w hb hfirst hw hfinal =>
    have hb' : skipBlanks b = cr :: lf :: (l.bytes ++ (render ls ++ w)) := by
      rw [hb]
      simp [render]
    have hl : ¬ l.IsResultCode := fun hl => hfirst ((startsFinal_iff hb').mpr hl)
    obtain ⟨hreads, hparse⟩ := @rereads_lines l ls hl
    obtain ⟨hderived, c, t, hp, hc, ht⟩ := parse_lines hb hfirst hw hfinal
    rw [hderived]
    refine ⟨hreads, fun hno => ?_⟩
    obtain ⟨hbegins, hopen, hbehind⟩ := (leavesNoTrace_lines hb hfirst hw hfinal).mp hno
    have hnone : c = .none := hc.mpr ⟨hbegins, hbehind⟩
    rw [hp, hnone, ht hnone, begun_blank hopen, List.append_nil]
    apply hparse
    intro hcore
    apply hbegins
    rw [rendered_lines] at hcore
    apply beginsCode_core (z := render (ls.map ContentLine.core)) hb'
    simpa [render] using hcore
  | @prompt y w hb hy hw =>
    obtain ⟨hderived, hp⟩ := parse_prompt hb hy hw
    rw [hderived]
    refine ⟨rereads_prompt, fun hno => absurd ?_ hy⟩
    rcases hno with hfinal | ⟨l, ls, v, hb', _⟩
    · exact hfinal.startsLine hb
    · exact ⟨l, render ls ++ v, by rw [opened_unique hb hb']; simp [render]⟩
  | rejected hno =>
    rw [matchCondition_rejected hno] at h
    cases h

/-- The blanks around the lines are gone, and nothing else. -/
theorem rendered_rereads_blanks :
    let b := ascii " \r\n +CSQ: 7 \r\n \r\nOK \r\n"
    (derivedOutputs b fresh).rendered = ascii "\r\n+CSQ: 7\r\n\r\nOK\r\n" ∧
      Rereads (derivedOutputs b fresh) := by
  intro b
  exact ⟨by decide, (rendered_rereads b (by decide)).1⟩

end Ringbeller
