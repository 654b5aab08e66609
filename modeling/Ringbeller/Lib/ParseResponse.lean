import Ringbeller.Lib.MatchCondition

/-!
# What parse_response writes to its outputs

The actions of the derivation give the code, the text and the lines of the message. An
abandoned path may have written to the outputs as well; `LeavesNoTrace` is exactly when
none has.
-/

namespace Ringbeller
set_option autoImplicit false

open X3 Grammar Outputs

/-! ## Effects of the actions -/

theorem perform_bodies (vals : List (List UInt8)) (o : Outputs) :
    perform (vals.map bodyAppender) o = { o with body := o.body ++ vals } := by
  induction vals generalizing o with
  | nil => simp [perform]
  | cons v vals ih =>
    rw [List.map_cons, show perform (bodyAppender v :: vals.map bodyAppender) o =
      perform (vals.map bodyAppender) (bodyAppender v o) from rfl, ih]
    simp [bodyAppender]

theorem perform_lines (ls : List ContentLine) (o : Outputs) :
    perform (lineActions bodyAppender ls) o =
      { o with body := o.body ++ ls.map ContentLine.trimmed } := by
  rw [← perform_bodies, lineActions, List.map_map]
  rfl

theorem perform_code (c : ResultCode) (u : List UInt8) (o : Outputs) (ho : o.resultText = []) :
    perform (codeActions rcSetter rcTextSetter c u) o =
      { o with resultCode := c, resultText := trimBlanks u } := by
  by_cases h : trimBlanks u = []
  · simp [codeActions, h, perform, rcSetter, ← ho]
  · simp [codeActions, h, perform, rcSetter, rcTextSetter]

theorem perform_texts (texts : List (List UInt8)) (o : Outputs) :
    ∃ t, perform (texts.map rcTextSetter) o = { o with resultText := t } := by
  induction texts generalizing o with
  | nil => exact ⟨o.resultText, rfl⟩
  | cons v texts ih => exact ih (rcTextSetter v o)

/-- An abandoned result code leaves the outputs alone or has put a code into them. -/
theorem perform_leftover {x : List UInt8} {ran : List (Outputs → Outputs)}
    (h : Leftover rcSetter rcTextSetter x ran) (o : Outputs) :
    (ran = [] ∧ ¬ BeginsCode x) ∨
      (BeginsCode x ∧ ∃ c t, c ≠ .none ∧
        perform ran o = { o with resultCode := c, resultText := t }) := by
  rcases h with h | ⟨y, hy, c, hc, hp, texts, rfl, _⟩
  · exact Or.inl h
  · obtain ⟨t, ht⟩ := perform_texts texts (rcSetter c o)
    exact Or.inr ⟨⟨y, hy, c, hc, hp⟩, c, t, ResultCode.mem_resultCodes.mp hc, ht⟩

theorem perform_lead {x y : List UInt8} {ran : List (Outputs → Outputs)}
    (hx : skipBlanks x = cr :: lf :: y) (hy : StartsLine y)
    (h : Leftover rcSetter rcTextSetter x ran) (o : Outputs) :
    ∃ c, perform ran o = { o with resultCode := c } := by
  rcases h with ⟨rfl, _⟩ | ⟨y', hy', c, _, _, texts, rfl, htexts⟩
  · exact ⟨o.resultCode, rfl⟩
  · obtain rfl := opened_unique hx hy'
    exact ⟨c, by rw [htexts hy]; rfl⟩

/-! ## Readings of parse_response -/

theorem outputReply_ok {b w : List UInt8} {k r : List (Outputs → Outputs)}
    (h : response rcSetter rcTextSetter bodyAppender b = ⟨some ((), k), w, r⟩) :
    outputReply b = ⟨some ((), k), skipBlanks w, r⟩ := by
  simp only [outputReply, phraseParse, grammarSpec, h]

theorem parse_code {b y u w : List UInt8} {c : ResultCode} (hb : skipBlanks b = cr :: lf :: y)
    (hc : CodeLine y c u w) :
    parseResponse b fresh = ((skipBlanks w, true), ⟨c, trimBlanks u, []⟩) := by
  simp only [parseResponse, outputReply_ok (response_code _ _ _ hb hc), perform_code c u fresh rfl]
  rfl

theorem parse_report {b w y u w' : List UInt8} {l : ContentLine} {ls : List ContentLine}
    {c : ResultCode} (hb : skipBlanks b = cr :: lf :: (render (l :: ls) ++ w))
    (hfirst : ¬ StartsFinal b) (hw : skipBlanks w = cr :: lf :: y) (hc : CodeLine y c u w') :
    parseResponse b fresh =
      ((skipBlanks w', true), ⟨c, trimBlanks u, (l :: ls).map ContentLine.trimmed⟩) := by
  obtain ⟨lead, hlead, hr⟩ := response_report rcSetter rcTextSetter bodyAppender hb hfirst hw hc
  have hline : StartsLine (render (l :: ls) ++ w) := ⟨l, render ls ++ w, by simp [render]⟩
  obtain ⟨c', hc'⟩ := perform_lead hb hline hlead fresh
  simp only [parseResponse, outputReply_ok hr, perform_append, hc', perform_lines]
  rw [perform_code c u _ rfl]
  rfl

/-! ## Traces of abandoned paths -/

theorem derived_code {b y u w : List UInt8} {c : ResultCode} (hb : skipBlanks b = cr :: lf :: y)
    (hc : CodeLine y c u w) : derivedOutputs b fresh = ⟨c, trimBlanks u, []⟩ := by
  simp only [derivedOutputs, outputReply_ok (response_code _ _ _ hb hc), Reply.kept_mk_some,
    perform_code c u fresh rfl]
  rfl

theorem derived_report {b w y u w' : List UInt8} {l : ContentLine} {ls : List ContentLine}
    {c : ResultCode} (hb : skipBlanks b = cr :: lf :: (render (l :: ls) ++ w))
    (hfirst : ¬ StartsFinal b) (hw : skipBlanks w = cr :: lf :: y) (hc : CodeLine y c u w') :
    derivedOutputs b fresh = ⟨c, trimBlanks u, (l :: ls).map ContentLine.trimmed⟩ := by
  obtain ⟨lead, hlead, hr⟩ := response_report rcSetter rcTextSetter bodyAppender hb hfirst hw hc
  simp only [derivedOutputs, outputReply_ok hr, Reply.kept_mk_some, perform_append, perform_lines]
  rw [perform_code c u _ rfl]
  rfl

theorem parse_lines {b w : List UInt8} {l : ContentLine} {ls : List ContentLine}
    (hb : skipBlanks b = cr :: lf :: (render (l :: ls) ++ w)) (hfirst : ¬ StartsFinal b)
    (hw : ¬ StartsLine w) (hfinal : ¬ StartsFinal w) :
    derivedOutputs b fresh = ⟨.none, [], (l :: ls).map ContentLine.trimmed⟩ ∧
      ∃ c t, parseResponse b fresh =
          ((skipBlanks w, true), ⟨c, t, (l :: ls).map ContentLine.trimmed ++ begun w⟩) ∧
        (c = .none ↔ ¬ BeginsCode b ∧ ¬ BeginsCode w) ∧
        (c = .none → t = []) := by
  obtain ⟨lead, tail, hlead, htail, hr⟩ :=
    response_lines rcSetter rcTextSetter bodyAppender hb hfirst hw hfinal
  have hline : StartsLine (render (l :: ls) ++ w) := ⟨l, render ls ++ w, by simp [render]⟩
  constructor
  · simp only [derivedOutputs, outputReply_ok hr, Reply.kept_mk_some, perform_lines]
    rfl
  · have hstart : ∃ c, perform lead fresh = { fresh with resultCode := c } ∧
        (c = .none ↔ ¬ BeginsCode b) := by
      rcases perform_leftover hlead fresh with ⟨rfl, hno⟩ | ⟨hbegins, c, t, hne, hp⟩
      · exact ⟨.none, rfl, ⟨fun _ => hno, fun _ => rfl⟩⟩
      · obtain ⟨c', hc'⟩ := perform_lead hb hline hlead fresh
        have hcc : c = c' := congrArg Outputs.resultCode (hp.symm.trans hc')
        exact ⟨c', hc', ⟨fun h => absurd (hcc.trans h) hne, fun h => absurd hbegins h⟩⟩
    obtain ⟨c, hc, hcnone⟩ := hstart
    simp only [parseResponse, outputReply_ok hr, perform_append, hc, perform_lines, perform_bodies]
    have htrace := perform_leftover htail ⟨c, [], (l :: ls).map ContentLine.trimmed ++ begun w⟩
    rcases htrace with ⟨rfl, hno⟩ | ⟨hbegins, c', t, hne, hp⟩
    · exact ⟨c, [], rfl, ⟨fun h => ⟨hcnone.mp h, hno⟩, fun h => hcnone.mpr h.1⟩,
        fun _ => rfl⟩
    · refine ⟨c', t, ?_, ⟨fun h => absurd h hne, fun h => absurd hbegins h.2⟩,
        fun h => absurd h hne⟩
      simp only [fresh, List.nil_append]
      rw [hp]
      rfl

theorem parse_prompt {b y w : List UInt8} (hb : skipBlanks b = cr :: lf :: y)
    (hy : ¬ StartsLine y) (hw : skipBlanks y = ascii "> " ++ w) :
    derivedOutputs b fresh = ⟨.none, [], [ascii "> "]⟩ ∧
      parseResponse b fresh =
        ((skipBlanks w, true), ⟨.none, [], begun y ++ [ascii "> "]⟩) := by
  have hr := response_prompt rcSetter rcTextSetter bodyAppender hb hy hw
  constructor
  · simp only [derivedOutputs, outputReply_ok hr, Reply.kept_mk_some]
    rfl
  · simp only [parseResponse, outputReply_ok hr, perform_append, perform_bodies]
    rfl

theorem parse_rejected {b : List UInt8} (h : ∀ y, skipBlanks b = cr :: lf :: y →
    ¬ StartsLine y ∧ ∀ w, skipBlanks y ≠ ascii "> " ++ w) (o : Outputs) :
    (parseResponse b o).1.2 = false := by
  obtain ⟨r, hr⟩ := response_rejected rcSetter rcTextSetter bodyAppender h
  simp [parseResponse, outputReply, phraseParse, grammarSpec, hr, Reply.ok, Reply.fail]

theorem parse_unopened {b : List UInt8} (h : ∀ w, skipBlanks b ≠ cr :: lf :: w) (o : Outputs) :
    (parseResponse b o).2 = o := by
  simp only [parseResponse, outputReply, phraseParse, grammarSpec, response_unopened _ _ _ h,
    Reply.fail]
  rfl

theorem leavesNoTrace_lines {b w : List UInt8} {l : ContentLine} {ls : List ContentLine}
    (hb : skipBlanks b = cr :: lf :: (render (l :: ls) ++ w)) (hfirst : ¬ StartsFinal b)
    (hw : ¬ StartsLine w) (hfinal : ¬ StartsFinal w) :
    LeavesNoTrace b ↔ ¬ BeginsCode b ∧ NoOpenLine w ∧ ¬ BeginsCode w := by
  constructor
  · rintro (h | ⟨l', ls', w', hb', hw', h⟩)
    · exact absurd h hfirst
    · obtain ⟨_, rfl⟩ := maximal_run_unique hw hw' (opened_unique hb hb')
      exact h.resolve_left hfinal
  · exact fun h => Or.inr ⟨l, ls, w, hb, hw, Or.inr h⟩

/-- The outputs are those of the accepted derivation exactly when no path was abandoned
after it had written. -/
theorem parseResponse_derived_iff (b : List UInt8) (h : (parseResponse b fresh).1.2 = true) :
    (parseResponse b fresh).2 = derivedOutputs b fresh ↔ LeavesNoTrace b := by
  cases reading_cases b with
  | @code y u w c hb hc =>
    rw [parse_code hb hc, derived_code hb hc]
    exact ⟨fun _ => Or.inl ⟨y, c, u, w, hb, hc⟩, fun _ => rfl⟩
  | @report l ls w y u w' c hb hfirst hw hc =>
    rw [parse_report hb hfirst hw hc, derived_report hb hfirst hw hc]
    exact ⟨fun _ => Or.inr ⟨l, ls, w, hb, not_startsLine_of_cr (Or.inr ⟨_, hw⟩),
      Or.inl ⟨y, c, u, w', hw, hc⟩⟩, fun _ => rfl⟩
  | @lines l ls w hb hfirst hw hfinal =>
    obtain ⟨hd, c, t, hp, hc, ht⟩ := parse_lines hb hfirst hw hfinal
    rw [leavesNoTrace_lines hb hfirst hw hfinal, hp, hd, Outputs.mk.injEq]
    constructor
    · rintro ⟨rfl, _, hbody⟩
      have hnil : begun w = [] := List.append_right_eq_self.mp hbody
      exact ⟨(hc.mp rfl).1, begun_nil_iff.mp hnil, (hc.mp rfl).2⟩
    · rintro ⟨hno, hopen, hno'⟩
      have hcn := hc.mpr ⟨hno, hno'⟩
      exact ⟨hcn, ht hcn, by rw [begun_blank hopen, List.append_nil]⟩
  | @prompt y w hb hy hw =>
    obtain ⟨hd, hp⟩ := parse_prompt hb hy hw
    have hne : begun y ≠ [] := by
      intro h
      rcases begun_nil_iff.mp h with hn | ⟨v, hn⟩
      · rw [hw] at hn
        cases hn
      · rw [hw] at hn
        exact absurd (List.cons.inj hn).1 (by decide)
    rw [hp, hd, Outputs.mk.injEq]
    constructor
    · rintro ⟨_, _, hbody⟩
      exact absurd (List.append_left_eq_self.mp hbody) hne
    · rintro (hf | ⟨l, ls, v, hb', _⟩)
      · exact absurd (hf.startsLine hb) hy
      · have hl : StartsLine y := ⟨l, render ls ++ v, by rw [opened_unique hb hb']; simp [render]⟩
        exact absurd hl hy
  | rejected hno =>
    rw [parse_rejected hno] at h
    cases h

/-- Behind a first line that is no result code the body holds the other complete lines, and the
text of the line that is begun behind them. -/
theorem parse_body {b x : List UInt8} {l : ContentLine}
    (hb : skipBlanks b = cr :: lf :: (l.bytes ++ x)) (hl : ¬ l.IsResultCode) :
    ∃ ls w, x = render ls ++ w ∧ ¬ StartsLine w ∧
      (parseResponse b fresh).2.body = l.trimmed :: (ls.map ContentLine.trimmed ++ begun w) := by
  have hline : StartsLine (l.bytes ++ x) := ⟨l, x, rfl⟩
  have hrun {l' : ContentLine} {ls : List ContentLine} {w : List UInt8}
      (hb' : skipBlanks b = cr :: lf :: (render (l' :: ls) ++ w)) :
      l' = l ∧ x = render ls ++ w := by
    have hy := opened_unique hb' hb
    rw [render, List.flatMap_cons, List.append_assoc] at hy
    obtain ⟨hl', hx⟩ := ContentLine.bytes_inj hy
    exact ⟨hl', hx.symm⟩
  cases reading_cases b with
  | @code y u w c hb' hc => exact absurd ((startsFinal_iff hb).mp ⟨y, c, u, w, hb', hc⟩) hl
  | @report l' ls w y u w' c hb' hfirst hw hc =>
    obtain ⟨rfl, rfl⟩ := hrun hb'
    have hopen : NoOpenLine w := Or.inr ⟨_, hw⟩
    refine ⟨ls, w, rfl, not_startsLine_of_cr hopen, ?_⟩
    rw [parse_report hb' hfirst hw hc, begun_blank hopen, List.append_nil]
    rfl
  | @lines l' ls w hb' hfirst hw hfinal =>
    obtain ⟨rfl, rfl⟩ := hrun hb'
    obtain ⟨_, c, t, hp, _⟩ := parse_lines hb' hfirst hw hfinal
    exact ⟨ls, w, rfl, hw, by rw [hp]; rfl⟩
  | prompt hb' hy => exact absurd (opened_unique hb' hb ▸ hline) hy
  | rejected hno => exact absurd hline (hno _ hb).1

theorem CodeLine.begins {x y u w : List UInt8} {c : ResultCode} (hx : skipBlanks x = cr :: lf :: y)
    (hc : CodeLine y c u w) : BeginsCode x :=
  ⟨y, hx, c, hc.coded, by rw [hc.split]; exact List.prefix_append _ _⟩

/-- A range that is accepted is read without a code exactly when none has been begun. -/
theorem parseResponse_codeless {b : List UInt8} (h : (matchCondition b).2 = true) :
    (parseResponse b fresh).2.resultCode = .none ↔ Codeless b := by
  cases reading_cases b with
  | @code y u w c hb hc =>
    rw [parse_code hb hc]
    exact ⟨fun hnone => absurd hnone (ResultCode.mem_resultCodes.mp hc.coded),
      fun hno => absurd (hc.begins hb) hno.1⟩
  | @report l ls w y u w' c hb hfirst hw hc =>
    rw [parse_report hb hfirst hw hc]
    exact ⟨fun hnone => absurd hnone (ResultCode.mem_resultCodes.mp hc.coded),
      fun hno => absurd (hc.begins hw)
        (hno.2 l ls w hb (not_startsLine_of_cr (Or.inr ⟨_, hw⟩)))⟩
  | @lines l ls w hb hfirst hw hfinal =>
    obtain ⟨_, c, t, hp, hc, _⟩ := parse_lines hb hfirst hw hfinal
    rw [hp]
    refine hc.trans (and_congr_right fun _ => ⟨fun hno l' ls' w' hb' hw' => ?_, fun hall => ?_⟩)
    · obtain ⟨_, rfl⟩ := maximal_run_unique hw hw' (opened_unique hb hb')
      exact hno
    · exact hall l ls w hb hw
  | @prompt y w hb hy hw =>
    rw [(parse_prompt hb hy hw).2]
    refine ⟨fun _ => ⟨?_, fun l ls v hb' _ => ?_⟩, fun _ => rfl⟩
    · rintro ⟨y', hy', c, hc, hprefix⟩
      obtain ⟨a, v, hl, ha⟩ := literal_not_prompt hc
      rw [opened_unique hy' hb, hw, hl] at hprefix
      exact ha (List.cons_prefix_cons.mp hprefix).1
    · exact absurd ⟨l, render ls ++ v, by rw [opened_unique hb hb']; simp [render]⟩ hy
  | rejected hno =>
    rw [matchCondition_rejected hno] at h
    cases h

/-- A line that merely begins with OK sets the code, although its derivation has none. -/
theorem parseResponse_okay :
    (parseResponse (ascii "\r\nOKAY\r\n") fresh).1.2 = true ∧
      (parseResponse (ascii "\r\nOKAY\r\n") fresh).2 ≠
        derivedOutputs (ascii "\r\nOKAY\r\n") fresh := by
  decide

theorem parseResponse_derived_ready :
    (parseResponse (ascii "\r\nREADY\r\n") fresh).2 =
        derivedOutputs (ascii "\r\nREADY\r\n") fresh ↔
      LeavesNoTrace (ascii "\r\nREADY\r\n") :=
  parseResponse_derived_iff (ascii "\r\nREADY\r\n") (by decide)

/-! ## Messages that end in a final result code -/

theorem FinalCode.codeLine_crlf (f : FinalCode) (w : List UInt8) :
    CodeLine (f.bytes ++ [cr, lf] ++ w) f.code f.text w := by
  simpa using f.codeLine w

theorem parse_finalCode (f : FinalCode) (w : List UInt8) :
    parseResponse ([cr, lf] ++ f.bytes ++ [cr, lf] ++ w) fresh =
      ((skipBlanks w, true), ⟨f.code, trimBlanks f.text, []⟩) :=
  parse_code (y := f.bytes ++ [cr, lf] ++ w) (skipOver_cons_of_neg blank_cr _)
    (f.codeLine_crlf w)

theorem parse_information {l : ContentLine} {ls : List ContentLine} (f : FinalCode)
    (hl : ¬ l.IsResultCode) (w : List UInt8) :
    parseResponse ([cr, lf] ++ render (l :: ls) ++ [cr, lf] ++ f.bytes ++ [cr, lf] ++ w) fresh =
      ((skipBlanks w, true),
        ⟨f.code, trimBlanks f.text, (l :: ls).map ContentLine.trimmed⟩) := by
  have hb : ([cr, lf] ++ render (l :: ls) ++ [cr, lf] ++ f.bytes ++ [cr, lf] ++ w) =
      cr :: lf :: (render (l :: ls) ++ cr :: lf :: (f.bytes ++ [cr, lf] ++ w)) := by simp
  rw [hb]
  obtain ⟨v, hv, hw⟩ : ∃ v, v = cr :: lf :: (f.bytes ++ [cr, lf] ++ w) ∧
      skipBlanks v = cr :: lf :: (f.bytes ++ [cr, lf] ++ w) :=
    ⟨_, rfl, skipOver_cons_of_neg blank_cr _⟩
  rw [← hv]
  have hskip : skipBlanks (cr :: lf :: (render (l :: ls) ++ v)) =
      cr :: lf :: (render (l :: ls) ++ v) := skipOver_cons_of_neg blank_cr _
  have hfirst : ¬ StartsFinal (cr :: lf :: (render (l :: ls) ++ v)) := fun h =>
    hl ((startsFinal_iff (w := render ls ++ v) (by rw [hskip]; simp [render])).mp h)
  exact parse_report hskip hfirst hw (f.codeLine_crlf w)

theorem parse_message (m : CompleteMessage) (w : List UInt8) :
    parseResponse (m.bytes ++ w) fresh = ((skipBlanks w, true),
      ⟨m.final.code, trimBlanks m.final.text, m.lines.map ContentLine.trimmed⟩) := by
  obtain ⟨lines, f, hinforms⟩ := m
  cases lines with
  | nil => exact parse_finalCode f w
  | cons l ls => exact parse_information f (hinforms l rfl) w

theorem parseResponse_information (l : ContentLine) (ls : List ContentLine) (f : FinalCode)
    (hl : ¬ l.IsResultCode) (w : List UInt8) :
    parseResponse ([cr, lf] ++ render (l :: ls) ++ [cr, lf] ++ f.bytes ++ [cr, lf] ++ w) fresh =
      ((skipBlanks w, true),
        ⟨f.code, trimBlanks f.text, (l :: ls).map ContentLine.trimmed⟩) :=
  parse_message ⟨l :: ls, f, by rintro _ ⟨⟩; exact hl⟩ w

theorem parseResponse_information_ati :
    parseResponse (ascii "\r\nQuectel\r\nEC25\r\n\r\nOK\r\n  ") fresh =
      (([], true), ⟨.ok, [], [ascii "Quectel", ascii "EC25"]⟩) :=
  parseResponse_information
    ⟨ascii "Quectel", by decide, 81, by decide, by decide⟩
    [⟨ascii "EC25", by decide, 69, by decide, by decide⟩]
    ⟨.ok, [], by decide, by decide, by decide⟩ (by decide) (ascii "  ")

end Ringbeller
