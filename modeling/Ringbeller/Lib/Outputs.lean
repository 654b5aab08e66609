import Ringbeller.Lib.Positions
import Ringbeller.X3.Actions

/-!
# What parse_response may write

The actions of the grammar as data, and what they are on any range whatever, accepted or not:
`populate_response_from_buffer` does not look at the result of `parse_response`.
-/

namespace Ringbeller
set_option autoImplicit false

open Asio X3 Grammar Outputs

/-- What an action does to the outputs. -/
inductive Setting where
  | code (rc : ResultCode)
  | text (val : List UInt8)
  | line (val : List UInt8)
  deriving Repr, DecidableEq

def Setting.perform : Setting → Outputs → Outputs
  | .code rc => rcSetter rc
  | .text val => rcTextSetter val
  | .line val => bodyAppender val

/-- The actions that run on a range, in order. -/
def settings (range : List UInt8) : List Setting :=
  (grammarSpec Setting.code Setting.text Setting.line range).ran

/-! ## One grammar for all setters -/

section Renames
variable {ε δ : Type} (f : ε → δ) (rc : ResultCode → ε) (text line : List UInt8 → ε)

theorem renames_text : Renames f (Grammar.text : Parser UInt8 ε (List UInt8)) Grammar.text :=
  renames_raw blank (renames_plus (renames_diff (renames_char blank) (renames_lit blank [cr])))

theorem renames_set (s : String) (c : ResultCode) :
    Renames f (Grammar.set rc s c) (Grammar.set (fun c => f (rc c)) s c) :=
  renames_act (renames_lit blank (ascii s)) fun _ => rfl

theorem renames_textSetter :
    Renames f (act Grammar.text text) (act Grammar.text fun v => f (text v)) :=
  renames_act (renames_text f) fun _ => rfl

theorem renames_codes :
    List.Forall₂ (Renames f) (codes rc text) (codes (fun c => f (rc c)) fun v => f (text v)) := by
  have hset := renames_set f rc
  have htext := renames_textSetter f text
  exact .cons (hset _ _) (.cons (renames_seq (hset _ _) (renames_opt htext)) (.cons (hset _ _)
    (.cons (hset _ _) (.cons (hset _ _) (.cons (hset _ _) (.cons (hset _ _) (.cons (hset _ _)
      (.cons (renames_seq (hset _ _) htext) (.cons (renames_seq (hset _ _) htext)
        (.cons (hset _ _) (.cons (hset _ _) .nil)))))))))))

theorem renames_finalResultCode : Renames f (finalResultCode rc text)
    (finalResultCode (fun c => f (rc c)) fun v => f (text v)) := by
  have hcrlf : Renames f crlf crlf := renames_lit blank [cr, lf]
  exact renames_seq (renames_seq hcrlf (renames_alts (renames_codes f rc text))) hcrlf

theorem grammarSpec_renames : Renames f (grammarSpec rc text line)
    (grammarSpec (fun c => f (rc c)) (fun v => f (text v)) fun v => f (line v)) := by
  have hcrlf : Renames f crlf crlf := renames_lit blank [cr, lf]
  have hfinal := renames_finalResultCode f rc text
  have hline : Renames f (responseLine line) (responseLine fun v => f (line v)) :=
    renames_seq (renames_textSetter f line) hcrlf
  have hprompt : Renames f (prompt line) (prompt fun v => f (line v)) :=
    renames_seq hcrlf
      (renames_act (renames_raw blank (renames_lit blank (ascii "> "))) fun _ => rfl)
  exact renames_alts (.cons hfinal (.cons
    (renames_seq (renames_seq hcrlf (renames_plus hline)) (renames_opt hfinal))
    (.cons hprompt .nil)))

end Renames

theorem outputReply_eq (b : List UInt8) : outputReply b =
    (phraseParse blank (grammarSpec Setting.code .text .line) b).rename Setting.perform :=
  renames_phraseParse blank (grammarSpec_renames Setting.perform .code .text .line) b

theorem parseResponse_settings (b : List UInt8) (o : Outputs) :
    (parseResponse b o).2 = perform ((settings b).map Setting.perform) o := by
  rw [parseResponse, outputReply_eq]
  rfl

theorem parseResponse_position (b : List UInt8) (o : Outputs) :
    (parseResponse b o).1 = matchCondition b := by
  have hmatch := renames_phraseParse blank
    (grammarSpec_renames (fun _ => ()) Setting.code Setting.text Setting.line) b
  have hcondition : matchCondition b =
      (((phraseParse blank (grammarSpec Setting.code Setting.text Setting.line) b).rename
        fun _ => ()).first,
        ((phraseParse blank (grammarSpec Setting.code Setting.text Setting.line) b).rename
        fun _ => ()).ok) := by
    rw [← hmatch]
    rfl
  rw [parseResponse, outputReply_eq, hcondition, Reply.rename_ok, Reply.rename_ok]
  rfl

/-! ## What the actions write -/

/-- A run of bytes without CR that begins with something visible. -/
def Content (v : List UInt8) : Prop := cr ∉ v ∧ ∃ a u, v = a :: u ∧ blank a = false

theorem Content.append {v v' : List UInt8} (h : Content v) (h' : Content v') :
    Content (v ++ v') := by
  obtain ⟨hv, a, u, rfl, ha⟩ := h
  constructor
  · intro hm
    exact (List.mem_append.mp hm).elim hv h'.1
  · exact ⟨a, u ++ v', rfl, ha⟩

theorem content_trimLeft {t : List UInt8} (ht : IsText blank cr t) :
    Content (trimLeft blank t) := by
  obtain ⟨a, u, hl, _, ha⟩ := trimLeft_visible ht
  exact ⟨trimLeft_crFree ht.undelimited, a, u, hl, ha⟩

theorem content_trimBlanks {t : List UInt8} (ht : IsText blank cr t) : Content (trimBlanks t) := by
  obtain ⟨hcr, a, u, hl, ha⟩ := content_trimLeft ht
  have hbegins : trimBlanks t <+: trimLeft blank t := List.rdropWhile_prefix blank _
  constructor
  · intro hm
    exact hcr (hbegins.subset hm)
  · obtain ⟨b, v, hv⟩ := List.exists_cons_of_ne_nil (trimBlanks_text ht)
    rw [hl, hv] at hbegins
    obtain ⟨rfl, _⟩ := List.cons_prefix_cons.mp hbegins
    exact ⟨b, v, hv, ha⟩

theorem yields_text {ε : Type} :
    Yields Content (Grammar.text : Parser UInt8 ε (List UInt8)) := by
  intro x y v k ran h
  have hx := text_reply (ε := ε) x
  rw [h] at hx
  cases hx with
  | closed ht => exact content_trimBlanks ht
  | unended ht => exact content_trimLeft ht

theorem yields_prompt {ε : Type} :
    Yields Content (raw blank (lit blank (ascii "> ")) : Parser UInt8 ε (List UInt8)) := by
  intro x y v k ran h
  by_cases hp : ascii "> " <+: skipBlanks x
  · obtain ⟨w, hw⟩ := hp
    have hl : (lit blank (ascii "> ") (skipBlanks x) : Reply UInt8 ε Unit) =
        ⟨some ((), []), w, []⟩ := lit_ok ((skipOver_skipOver x).trans hw.symm)
    have hv : (raw blank (lit blank (ascii "> ")) x : Reply UInt8 ε (List UInt8)) =
        ⟨some (ascii "> ", []), w, []⟩ := by
      simp only [raw, show skipOver blank x = skipBlanks x from rfl, hl]
      rw [← hw]
      simp
    rw [h] at hv
    injection hv with hhit
    injection hhit with hpair
    rw [(Prod.mk.inj hpair).1]
    exact ⟨by decide, 62, [32], rfl, rfl⟩
  · have hl : (lit blank (ascii "> ") (skipBlanks x) : Reply UInt8 ε Unit) =
        .fail (skipBlanks (skipBlanks x)) [] :=
      lit_fail (by rwa [show skipOver blank (skipBlanks x) = skipBlanks x from skipOver_skipOver x])
    simp only [raw, show skipOver blank x = skipBlanks x from rfl, hl, Reply.fail] at h
    cases h

def Setting.Legal : Setting → Prop
  | .code c => c ∈ resultCodes
  | .text v => Content v
  | .line v => Content v

theorem runs_set {s : String} {c : ResultCode} (hc : c ∈ resultCodes) :
    Runs Setting.Legal (Grammar.set Setting.code s c) :=
  runs_act (runs_lit blank (ascii s)) (yields_unit _) fun _ _ => hc

theorem runs_textSetter {g : List UInt8 → Setting} (hg : ∀ v, Content v → (g v).Legal) :
    Runs Setting.Legal (act Grammar.text g) := by
  have htext : Runs Setting.Legal Grammar.text :=
    runs_raw blank (runs_plus (runs_diff (runs_char blank) (runs_lit blank [cr])))
  exact runs_act htext yields_text hg

theorem runs_codes : ∀ p ∈ codes Setting.code Setting.text, Runs Setting.Legal p := by
  have htext : Runs Setting.Legal (act Grammar.text Setting.text) := runs_textSetter fun _ h => h
  simp only [codes, List.forall_mem_cons]
  exact ⟨runs_set (by decide), runs_seq (runs_set (by decide)) (runs_opt htext),
    runs_set (by decide), runs_set (by decide), runs_set (by decide), runs_set (by decide),
    runs_set (by decide), runs_set (by decide), runs_seq (runs_set (by decide)) htext,
    runs_seq (runs_set (by decide)) htext, runs_set (by decide), runs_set (by decide),
    fun _ h => (List.not_mem_nil h).elim⟩

theorem runs_grammarSpec :
    Runs Setting.Legal (grammarSpec Setting.code Setting.text Setting.line) := by
  have hcrlf : Runs Setting.Legal crlf := runs_lit blank [cr, lf]
  have hfinal : Runs Setting.Legal (finalResultCode Setting.code Setting.text) :=
    runs_seq (runs_seq hcrlf (runs_alts runs_codes)) hcrlf
  have hline : Runs Setting.Legal (responseLine Setting.line) :=
    runs_seq (runs_textSetter fun _ h => h) hcrlf
  have hprompt : Runs Setting.Legal (prompt Setting.line) :=
    runs_seq hcrlf (runs_act (runs_raw blank (runs_lit blank (ascii "> "))) yields_prompt
      fun _ h => h)
  apply runs_alts
  simp only [List.forall_mem_cons]
  exact ⟨hfinal, runs_seq (runs_seq hcrlf (runs_plus hline)) (runs_opt hfinal), hprompt,
    fun _ h => (List.not_mem_nil h).elim⟩

theorem settings_legal (b : List UInt8) : ∀ e ∈ settings b, e.Legal := runs_grammarSpec b

/-- Every line, and the text if there is one, is a run of bytes without CR that begins with
something visible. -/
structure Outputs.Clean (o : Outputs) : Prop where
  lines : ∀ line ∈ o.body, Content line
  text : o.resultText ≠ [] → Content o.resultText

theorem clean_perform {es : List Setting} (h : ∀ e ∈ es, e.Legal) {o : Outputs} (ho : o.Clean) :
    (perform (es.map Setting.perform) o).Clean := by
  induction es generalizing o with
  | nil => exact ho
  | cons e es ih =>
    obtain ⟨he, hes⟩ := List.forall_mem_cons.mp h
    apply ih (o := e.perform o) hes
    cases e with
    | code c => exact ⟨ho.lines, ho.text⟩
    | text v => exact ⟨ho.lines, fun _ => he⟩
    | line v =>
      refine ⟨fun line hline => ?_, ho.text⟩
      rcases List.mem_append.mp hline with hline | hline
      · exact ho.lines line hline
      · rw [List.mem_singleton.mp hline]
        exact he

/-! ## The text of a result code -/

/-- The codes that carry a text. -/
def speaking : List ResultCode := [.connect, .cmeError, .cmsError]

/-- The actions of one attempt at a final result code. -/
def Said (es : List Setting) : Prop :=
  es = [] ∨ ∃ c texts, es = .code c :: texts.map .text ∧ (texts ≠ [] → c ∈ speaking)

theorem said_codeRule {c : ResultCode} (hc : c ∈ resultCodes) {z v : List UInt8}
    (hz : skipBlanks z = c.literal ++ v) : Said (codeRule .code .text c z).ran := by
  by_cases hs : c ∈ speaking
  · obtain ⟨texts, hran⟩ := codeRule_ran Setting.code Setting.text hc hz
    exact Or.inr ⟨c, texts, hran, fun _ => hs⟩
  · obtain ⟨s, hl, hr⟩ := codeRule_cases Setting.code Setting.text hc
    have hset : codeRule Setting.code Setting.text c = Grammar.set .code s c := by
      rcases hr with ⟨hr, _⟩ | ⟨_, hall⟩ | ⟨_, hvisible⟩
      · exact hr
      · cases c <;> first | exact absurd (by decide) hs | exact absurd (hall [0]) (by decide)
      · cases c <;> first
          | exact absurd (by decide) hs
          | exact absurd ((hvisible [0]).mpr ⟨0, by decide, by decide⟩) (by decide)
    rw [hset, set_ok (by rw [hz, hl])]
    exact Or.inr ⟨c, [], rfl, fun h => absurd rfl h⟩

theorem said_finalResultCode (x : List UInt8) :
    Said (finalResultCode Setting.code Setting.text x).ran := by
  rcases crlf_cases (ε := Setting) x with ⟨y, hx⟩ | hx
  swap
  · rw [finalResultCode, seq_fail_left (seq_fail_left hx)]
    exact Or.inl rfl
  have hsaid : Said (alts (codes Setting.code Setting.text) y).ran := by
    by_cases hc : ∃ c ∈ resultCodes, c.literal <+: skipBlanks y
    · obtain ⟨c, hc, v, hv⟩ := hc
      rw [alts_codes _ _ hc hv.symm]
      exact said_codeRule hc ((skipOver_skipOver y).trans hv.symm)
    · have hnone : ∀ c ∈ resultCodes, ¬ c.literal <+: skipBlanks y := by simpa using hc
      rw [alts_codes_fail _ _ hnone]
      exact Or.inl rfl
  rcases halts : alts (codes Setting.code Setting.text) y with ⟨_ | ⟨b, k⟩, z, ran⟩
  · rw [halts] at hsaid
    rw [finalResultCode, seq_fail_left (seq_fail_right (crlf_ok hx) halts)]
    exact hsaid
  · rw [halts] at hsaid
    have hfirst := seq_ok (crlf_ok hx) halts
    rcases crlf_cases (ε := Setting) z with ⟨w, hz⟩ | hz
    · rw [finalResultCode, seq_ok hfirst (crlf_ok hz)]
      simpa using hsaid
    · rw [finalResultCode, seq_fail_right hfirst hz]
      simpa [Reply.fail] using hsaid

/-- An attempt at a code in front of the lines, the lines, and an attempt behind them. The second
attempt is made behind complete lines only, where the first one has set no text. -/
structure Attempts (es : List Setting) (lead : List Setting) (lines : List (List UInt8))
    (tail : List Setting) : Prop where
  split : es = lead ++ (lines.map .line ++ tail)
  before : Said lead
  behind : Said tail
  untold : tail = [] ∨ ∀ v, Setting.text v ∉ lead

theorem settings_attempts (b : List UInt8) :
    ∃ lead lines tail, Attempts (settings b) lead lines tail := by
  have hsettings : settings b = (response Setting.code Setting.text Setting.line b).ran := rfl
  have hsaid := said_finalResultCode b
  have hnone : Said [] := Or.inl rfl
  by_cases hfirst : StartsFinal b
  · obtain ⟨y, c, u, w, hb, hc⟩ := hfirst
    have hfinal := finalResultCode_ok Setting.code Setting.text hb hc
    rw [hfinal] at hsaid
    rw [response_code _ _ _ hb hc] at hsettings
    exact ⟨_, [], [], by rw [hsettings]; simp, hsaid, hnone, Or.inl rfl⟩
  obtain ⟨lead, hlead, hleft⟩ := finalResultCode_fail Setting.code Setting.text hfirst
  rw [hlead] at hsaid
  rw [response, alts, alt_right hlead, alts] at hsettings
  rcases crlf_cases (ε := Setting) b with ⟨y, hb⟩ | hb
  swap
  · have hlines : seq (seq crlf (plus (responseLine Setting.line)))
        (opt (finalResultCode Setting.code Setting.text)) b = .fail b [] :=
      seq_fail_left (seq_fail_left hb)
    have hprompt : prompt Setting.line b = .fail b [] := seq_fail_left hb
    rw [alt_right hlines, alts, alt_right hprompt] at hsettings
    exact ⟨lead, [], [], by rw [hsettings]; simp [alts, Reply.after, Reply.fail], hsaid, hnone,
      Or.inl rfl⟩
  by_cases hy : StartsLine y
  · obtain ⟨l, ls, w, rfl, hw⟩ := maximal_run hy
    have hlines := seq_ok (crlf_ok hb) (lines_ok Setting.line (List.cons_ne_nil l ls) hw)
    have huntold : ∀ v, Setting.text v ∉ lead := by
      rcases hleft with ⟨rfl, _⟩ | ⟨y', hy', c, _, _, texts, rfl, htexts⟩
      · exact fun v hv => (List.not_mem_nil hv).elim
      · obtain rfl := opened_unique hb hy'
        rw [htexts hy]
        intro v hv
        rw [List.map_nil, List.mem_singleton] at hv
        cases hv
    have hopt : ∃ k z, opt (finalResultCode Setting.code Setting.text) w =
        ⟨some ((), k), z, (finalResultCode Setting.code Setting.text w).ran⟩ := by
      rcases hf : finalResultCode Setting.code Setting.text w with ⟨_ | ⟨b', k⟩, z, ran⟩
      · exact ⟨_, _, opt_fail hf⟩
      · exact ⟨_, _, opt_ok hf⟩
    obtain ⟨k, z, hopt⟩ := hopt
    have hseq := seq_ok hlines hopt
    rw [alt_left (by rw [hseq]; rfl), hseq] at hsettings
    refine ⟨lead, (l :: ls).map ContentLine.trimmed ++ begun w, _, ?_, hsaid,
      said_finalResultCode w, Or.inr huntold⟩
    rw [hsettings]
    simp [Reply.after]
  · have hlines : seq (seq crlf (plus (responseLine Setting.line)))
        (opt (finalResultCode Setting.code Setting.text)) b =
          .fail b ((begun y).map Setting.line) :=
      seq_fail_left (seq_fail_right (crlf_ok hb) (plus_fail (responseLine_fail Setting.line hy)))
    rw [alt_right hlines, alts] at hsettings
    by_cases hp : ∃ w, skipBlanks y = ascii "> " ++ w
    · obtain ⟨w, hw⟩ := hp
      have hprompt := prompt_ok Setting.line hb hw
      rw [alt_left (by rw [hprompt]; rfl), hprompt] at hsettings
      exact ⟨lead, begun y ++ [ascii "> "], [], by rw [hsettings]; simp [Reply.after], hsaid,
        hnone, Or.inl rfl⟩
    · have hprompt : prompt Setting.line b = .fail b [] := by
        apply prompt_fail
        intro y' w hy' hw
        obtain rfl := opened_unique hb hy'
        exact hp ⟨w, hw⟩
      rw [alt_right hprompt] at hsettings
      exact ⟨lead, begun y, [], by rw [hsettings]; simp [alts, Reply.after, Reply.fail], hsaid,
        hnone, Or.inl rfl⟩

theorem perform_said {lead : List Setting} (h : Said lead) {o : Outputs} (ho : o.resultText = []) :
    (perform (lead.map Setting.perform) o).resultText ≠ [] →
      (perform (lead.map Setting.perform) o).resultCode ∈ speaking := by
  rcases h with rfl | ⟨c, texts, rfl, hspeaking⟩
  · intro htext
    exact absurd ho htext
  · have hmap : (Setting.code c :: texts.map Setting.text).map Setting.perform =
        rcSetter c :: texts.map rcTextSetter := by
      rw [List.map_cons, List.map_map]
      rfl
    obtain ⟨t, ht⟩ := perform_texts texts (rcSetter c o)
    have hperform : perform (rcSetter c :: texts.map rcTextSetter) o =
        { rcSetter c o with resultText := t } := ht
    rw [hmap, hperform]
    intro htext
    apply hspeaking
    rintro rfl
    have hnone : t = o.resultText := (congrArg Outputs.resultText ht).symm
    exact htext (hnone.trans ho)

theorem perform_untold {es : List Setting} (h : ∀ v, Setting.text v ∉ es) (o : Outputs) :
    (perform (es.map Setting.perform) o).resultText = o.resultText := by
  induction es generalizing o with
  | nil => rfl
  | cons e es ih =>
    have hes := ih (fun v hv => h v (List.mem_cons_of_mem e hv)) (e.perform o)
    refine hes.trans ?_
    cases e with
    | code c => rfl
    | text v => exact absurd List.mem_cons_self (h v)
    | line v => rfl

theorem parse_clean (b : List UInt8) : (parseResponse b fresh).2.Clean := by
  rw [parseResponse_settings]
  exact clean_perform (settings_legal b)
    ⟨fun _ h => (List.not_mem_nil h).elim, fun h => absurd rfl h⟩

/-- Whatever the range, and whether or not it is accepted: what parse_response leaves in new
outputs is free of CR, no line is empty or begins with a blank, and a text stands only beside
a code that carries one. -/
theorem parseResponse_clean (b : List UInt8) :
    (parseResponse b fresh).2.Clean ∧
      ((parseResponse b fresh).2.resultText ≠ [] →
        (parseResponse b fresh).2.resultCode ∈ speaking) := by
  refine ⟨parse_clean b, ?_⟩
  rw [parseResponse_settings]
  obtain ⟨lead, lines, tail, h⟩ := settings_attempts b
  have hlines (o : Outputs) : perform ((lines.map Setting.line).map Setting.perform) o =
      { o with body := o.body ++ lines } := by
    rw [List.map_map]
    exact perform_bodies lines o
  rw [h.split, List.map_append, List.map_append, perform_append, perform_append, hlines]
  rcases h.untold with rfl | huntold
  · exact perform_said h.before rfl
  · exact perform_said h.behind (perform_untold huntold fresh)

/-! ## The result that is not looked at -/

theorem endPosition_le_append {b : List UInt8} (h : (matchCondition b).2 = true) (w : List UInt8) :
    endPosition b ≤ endPosition (b ++ w) := by
  have hread : ReadsTo b (matchCondition b).1 := matchCondition_eq_true_iff.mp (by rw [← h])
  have hread' : ReadsTo (b ++ w) (matchCondition (b ++ w)).1 :=
    matchCondition_eq_true_iff.mp (by rw [← accepts_append h w])
  have hrest := readsTo_append hread hread'
  have hb := endPosition_add b
  have hw := endPosition_add (b ++ w)
  rw [List.length_append] at hw
  omega

/-- The parser and the condition of the read agree on every range, whatever the outputs held. So
behind a read that has succeeded the message is parsed with success and not before its count,
although the parsed buffer may hold more than the read has received. -/
theorem parseResponse_agrees :
    (∀ b o, (parseResponse b o).1 = matchCondition b) ∧
    ∀ s, (read s).1.ec = false →
      (parseResponse (read s).1.parsed fresh).1.2 = true ∧
        (read s).1.count = endPosition (s.buffer.data ++ (read s).1.received) ∧
        (read s).1.count ≤ endPosition (read s).1.parsed := by
  refine ⟨parseResponse_position, fun s h => ?_⟩
  obtain ⟨as, left, rest, hnext⟩ := read_ok h
  have hreceived : (read s).1.received = bytes as := by
    simp only [ReadRecord.received, read, deliver, hnext.readUntil]
  have hcount : (read s).1.count = endPosition (s.buffer.data ++ bytes as) := by
    rw [endPosition, hnext.accepted]
    simp only [read, deliver, hnext.readUntil]
  have haccepted : (matchCondition (s.buffer.data ++ bytes as)).2 = true := by
    rw [hnext.accepted]
  obtain ⟨w, hw⟩ := firstAsyncRead_parsed s
  rw [← read_record, hreceived] at hw
  rw [parseResponse_position, hreceived, hcount, ← hw]
  exact ⟨accepts_append haccepted w, rfl, endPosition_le_append haccepted w⟩

/-- The second commit has put a stale line behind the line that was received. -/
theorem parseResponse_agrees_stale :
    let hi : Arrival UInt8 := ⟨ascii "\r\nHi\r\n", ascii "Ho\r\n", by decide⟩
    let r := (read ⟨[.received hi], .new, .new⟩).1
    r.count = 6 ∧ endPosition r.parsed = 10 ∧ (parseResponse r.parsed fresh).1.2 = true := by
  intro hi r
  have h := parseResponse_agrees.2 ⟨[.received hi], .new, .new⟩ (by decide)
  exact ⟨by decide, by decide, h.1⟩

end Ringbeller
