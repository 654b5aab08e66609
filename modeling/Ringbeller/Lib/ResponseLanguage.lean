import Ringbeller.Lib.Grammar

/-!
# The response language, line by line

What a modem sends, described without the grammar: content lines, result-code lines,
and messages made of them. Nothing here mentions a parser; `GrammarSpec` connects the
two descriptions.
-/

namespace Ringbeller
set_option autoImplicit false

open X3

def AllBlank (s : List UInt8) : Prop := ∀ b ∈ s, blank b = true

instance (s : List UInt8) : Decidable (AllBlank s) := inferInstanceAs (Decidable (∀ b ∈ s, _))

abbrev skipBlanks : List UInt8 → List UInt8 := skipOver blank

abbrev trimBlanks : List UInt8 → List UInt8 := trim blank

/-- A run of CR-free bytes with at least one that is not blank; CR LF follows it on the wire. -/
structure ContentLine where
  content : List UInt8
  isText : IsText blank cr content

namespace ContentLine

def bytes (l : ContentLine) : List UInt8 := l.content ++ [cr, lf]

def trimmed (l : ContentLine) : List UInt8 := trimBlanks l.content

end ContentLine

def render (ls : List ContentLine) : List UInt8 := ls.flatMap ContentLine.bytes

def StartsLine (x : List UInt8) : Prop := ∃ (l : ContentLine) (w : List UInt8), x = l.bytes ++ w

/-- The twelve final result codes in the order of the grammar. -/
def resultCodes : List ResultCode :=
  [.ok, .connect, .ring, .noCarrier, .error, .noDialtone, .busy, .noAnswer, .cmeError, .cmsError,
    .commandNotSupport, .tooMayParameters]

namespace ResultCode

def literal : ResultCode → List UInt8
  | .none => []
  | .ok => ascii "OK"
  | .connect => ascii "CONNECT"
  | .ring => ascii "RING"
  | .noCarrier => ascii "NO CARRIER"
  | .error => ascii "ERROR"
  | .noDialtone => ascii "NO DIALTONE"
  | .busy => ascii "BUSY"
  | .noAnswer => ascii "NO ANSWER"
  | .cmeError => ascii "+CME ERROR: "
  | .cmsError => ascii "+CMS ERROR: "
  | .commandNotSupport => ascii "COMMAND NOT SUPPORT"
  | .tooMayParameters => ascii "TOO MANY PARAMETERS"

/-- What may follow the literal: anything after CONNECT, something visible after the two
error prefixes, nothing otherwise. -/
def Takes (c : ResultCode) (t : List UInt8) : Prop :=
  match c with
  | .connect => True
  | .cmeError | .cmsError => ∃ b ∈ t, blank b = false
  | _ => t = []

instance (c : ResultCode) (t : List UInt8) : Decidable (c.Takes t) := by
  cases c <;> unfold Takes <;> infer_instance

theorem mem_resultCodes {c : ResultCode} : c ∈ resultCodes ↔ c ≠ .none := by
  cases c <;> decide

end ResultCode

namespace ContentLine

/-- The trimmed content is the literal of a result code and what the code takes. -/
def IsResultCode (l : ContentLine) : Prop :=
  ∃ c ∈ resultCodes, ∃ t, l.trimmed = c.literal ++ t ∧ c.Takes t

end ContentLine

/-- A final result code with the text that the modem sends after it. -/
structure FinalCode where
  code : ResultCode
  text : List UInt8
  coded : code ≠ .none
  crFree : cr ∉ text
  takes : code.Takes text

namespace FinalCode

def bytes (f : FinalCode) : List UInt8 := f.code.literal ++ f.text

end FinalCode

/-- A message that ends in a final result code: information lines, if any, then the code. -/
structure CompleteMessage where
  lines : List ContentLine
  final : FinalCode
  informs : ∀ l, lines.head? = some l → ¬ l.IsResultCode

namespace CompleteMessage

def bytes (m : CompleteMessage) : List UInt8 :=
  match m.lines with
  | [] => [cr, lf] ++ m.final.bytes ++ [cr, lf]
  | ls => [cr, lf] ++ render ls ++ [cr, lf] ++ m.final.bytes ++ [cr, lf]

/-- Its code, and what its text and lines add to the contents of a response. -/
def addTo (m : CompleteMessage) (msg : Response) : Response :=
  ⟨m.final.code, msg.rcText ++ trimBlanks m.final.text,
    msg.body ++ m.lines.map ContentLine.trimmed⟩

def response (m : CompleteMessage) : Response :=
  ⟨m.final.code, trimBlanks m.final.text, m.lines.map ContentLine.trimmed⟩

end CompleteMessage

/-- `y` begins with the result-code line of `c`: `u` is what stands between the literal and
CR LF, `w` what comes after the line. -/
structure CodeLine (y : List UInt8) (c : ResultCode) (u w : List UInt8) : Prop where
  coded : c ∈ resultCodes
  crFree : cr ∉ u
  takes : c.Takes (trimRight blank u)
  split : skipBlanks y = c.literal ++ (u ++ cr :: lf :: w)

/-- After blanks and CR LF, `x` goes on with the literal of a result code, complete line or not. -/
def BeginsCode (x : List UInt8) : Prop :=
  ∃ y, skipBlanks x = cr :: lf :: y ∧ ∃ c ∈ resultCodes, c.literal <+: skipBlanks y

/-- After its blanks the range is over or goes on with a CR: no line has been begun. -/
def NoOpenLine (x : List UInt8) : Prop := skipBlanks x = [] ∨ ∃ w, skipBlanks x = cr :: w

/-- The text of the line that a range has begun, as it is read: only a CR ends it, and blanks are
trimmed from its right end only before one. -/
def begun (x : List UInt8) : List (List UInt8) :=
  let t := x.takeWhile (· != cr)
  if trimBlanks t = [] then [] else if cr ∈ x then [trimBlanks t] else [trimLeft blank t]

def StartsFinal (x : List UInt8) : Prop :=
  ∃ y c u w, skipBlanks x = cr :: lf :: y ∧ CodeLine y c u w

/-- A range whose reading leaves nothing of an abandoned path: its first line is a result-code
line, or its content lines end in one, or no line and no literal of a result code has been
begun in vain, neither at the first line nor behind the last one. -/
def LeavesNoTrace (b : List UInt8) : Prop :=
  StartsFinal b ∨
    ∃ l ls w, skipBlanks b = cr :: lf :: (render (l :: ls) ++ w) ∧ ¬ StartsLine w ∧
      (StartsFinal w ∨ (¬ BeginsCode b ∧ NoOpenLine w ∧ ¬ BeginsCode w))

/-- No result code has been begun, neither at the first line nor behind the content lines. -/
def Codeless (b : List UInt8) : Prop :=
  ¬ BeginsCode b ∧ ∀ l ls w, skipBlanks b = cr :: lf :: (render (l :: ls) ++ w) →
    ¬ StartsLine w → ¬ BeginsCode w

/-- The described language together with what a reading of it leaves. Blanks may stand
before the opening CR LF and before a second one; the blanks after the end are passed. -/
inductive ReadsTo : List UInt8 → List UInt8 → Prop where
  | code {s w : List UInt8} {l : ContentLine} (hs : AllBlank s) (hl : l.IsResultCode) :
      ReadsTo (s ++ [cr, lf] ++ l.bytes ++ w) (skipBlanks w)
  | report {s s' w : List UInt8} {l l' : ContentLine} {ls : List ContentLine} (hs : AllBlank s)
      (hl : ¬ l.IsResultCode) (hs' : AllBlank s') (hl' : l'.IsResultCode) :
      ReadsTo (s ++ [cr, lf] ++ render (l :: ls) ++ (s' ++ [cr, lf] ++ l'.bytes ++ w)) (skipBlanks w)
  | lines {s w : List UInt8} {l : ContentLine} {ls : List ContentLine} (hs : AllBlank s)
      (hl : ¬ l.IsResultCode) (hw : ¬ StartsLine w)
      (hfinal : ∀ s' (l' : ContentLine) w', AllBlank s' → l'.IsResultCode →
        w ≠ s' ++ [cr, lf] ++ l'.bytes ++ w') :
      ReadsTo (s ++ [cr, lf] ++ render (l :: ls) ++ w) (skipBlanks w)
  | prompt {s s' w : List UInt8} (hs : AllBlank s) (hs' : AllBlank s')
      (hline : ¬ StartsLine (s' ++ ascii "> " ++ w)) :
      ReadsTo (s ++ [cr, lf] ++ (s' ++ ascii "> " ++ w)) (skipBlanks w)

/-! ## Literals -/

theorem blank_cr : blank cr = false := by decide

theorem literal_crFree (c : ResultCode) : cr ∉ c.literal := by cases c <;> decide

instance (l : ContentLine) : Decidable l.IsResultCode :=
  decidable_of_iff (∃ c ∈ resultCodes,
      c.literal <+: l.trimmed ∧ c.Takes (l.trimmed.drop c.literal.length)) <| by
    refine exists_congr (fun c => and_congr_right (fun _ => ⟨?_, ?_⟩))
    · intro h
      obtain ⟨⟨t, ht⟩, htakes⟩ := h
      rw [← ht, List.drop_left] at htakes
      exact ⟨t, ht.symm, htakes⟩
    · intro h
      obtain ⟨t, ht, htakes⟩ := h
      rw [ht, List.drop_left]
      exact ⟨List.prefix_append _ _, htakes⟩

theorem literal_visible {c : ResultCode} (hc : c ∈ resultCodes) :
    ∃ a v, c.literal = a :: v ∧ blank a = false := by
  revert hc
  cases c <;> intro hc <;> first
    | exact absurd hc (by decide)
    | exact ⟨_, _, rfl, by decide⟩

theorem literal_begins {c c' : ResultCode} (hc : c ∈ resultCodes) (hc' : c' ∈ resultCodes)
    (h : c.literal <+: c'.literal) : c = c' := by
  have hall : ∀ c ∈ resultCodes, ∀ c' ∈ resultCodes, c.literal <+: c'.literal → c = c' := by
    decide
  exact hall c hc c' hc' h

theorem literal_unique {c c' : ResultCode} (hc : c ∈ resultCodes) (hc' : c' ∈ resultCodes)
    {v : List UInt8} (h : c.literal <+: c'.literal ++ v) : c = c' := by
  rcases List.prefix_or_prefix_of_prefix h (List.prefix_append c'.literal v) with h | h
  · exact literal_begins hc hc' h
  · exact (literal_begins hc' hc h).symm

/-- No literal begins like the prompt. -/
theorem literal_not_prompt {c : ResultCode} (hc : c ∈ resultCodes) :
    ∃ a v, c.literal = a :: v ∧ a ≠ 62 := by
  revert hc
  cases c <;> intro hc <;> first
    | exact absurd hc (by decide)
    | exact ⟨_, _, rfl, by decide⟩

/-! ## Result-code lines as content lines -/

theorem literal_isText {c : ResultCode} (hc : c ∈ resultCodes) {u : List UInt8} (hu : cr ∉ u) :
    IsText blank cr (c.literal ++ u) := by
  obtain ⟨a, v, hl, ha⟩ := literal_visible hc
  refine ⟨fun h => ?_, a, by rw [hl]; simp, ha⟩
  rcases List.mem_append.mp h with h | h
  · exact literal_crFree c h
  · exact hu h

theorem skipBlanks_literal {c : ResultCode} (hc : c ∈ resultCodes) (v : List UInt8) :
    skipBlanks (c.literal ++ v) = c.literal ++ v := by
  obtain ⟨a, v', hl, ha⟩ := literal_visible hc
  rw [hl, List.cons_append]
  exact skipOver_cons_of_neg ha _

/-- Trimming behind a literal trims what follows it: only the two error prefixes end in a
blank, and something visible follows those. -/
theorem trimRight_literal {c : ResultCode} {u : List UInt8} (ht : c.Takes (trimRight blank u)) :
    trimRight blank (c.literal ++ u) = c.literal ++ trimRight blank u := by
  by_cases hv : ∃ b ∈ u, blank b = false
  · exact trimRight_append hv c.literal
  · have hu : ∀ b ∈ u, blank b = true := by simpa using hv
    have hnil : trimRight blank u = [] := List.rdropWhile_eq_nil_iff.mpr hu
    rw [trimRight_append_skippable hu, hnil, List.append_nil]
    rw [hnil] at ht
    revert ht
    cases c <;> decide

theorem trim_split (t : List UInt8) :
    ∃ s, AllBlank s ∧ trimLeft blank t = trimBlanks t ++ s := trimRight_split (trimLeft blank t)

theorem crFree_append_inj {t t' w w' : List UInt8} (ht : cr ∉ t) (ht' : cr ∉ t')
    (h : t ++ cr :: w = t' ++ cr :: w') : t = t' ∧ w = w' := by
  induction t generalizing t' with
  | nil =>
    cases t' with
    | nil => exact ⟨rfl, (List.cons.inj h).2⟩
    | cons a t' =>
      have ha : cr = a := (List.cons.inj h).1
      exact absurd (by rw [ha]; exact List.mem_cons_self) ht'
  | cons a t ih =>
    cases t' with
    | nil =>
      have ha : a = cr := (List.cons.inj h).1
      exact absurd (by rw [ha]; exact List.mem_cons_self) ht
    | cons a' t' =>
      obtain ⟨ha, h⟩ := List.cons.inj h
      obtain ⟨rfl, hw⟩ := ih (fun hm => ht (List.mem_cons_of_mem a hm))
        (fun hm => ht' (List.mem_cons_of_mem a' hm)) h
      exact ⟨by rw [ha], hw⟩

theorem ContentLine.skipBlanks_bytes (l : ContentLine) (w : List UInt8) :
    skipBlanks (l.bytes ++ w) = trimLeft blank l.content ++ cr :: lf :: w := by
  rw [ContentLine.bytes, List.append_assoc]
  exact trimLeft_append l.isText _

theorem trimLeft_crFree {t : List UInt8} (ht : cr ∉ t) : cr ∉ trimLeft blank t := fun h =>
  ht (mem_of_mem_skipOver h)

theorem ContentLine.isResultCode_iff (l : ContentLine) (w : List UInt8) :
    l.IsResultCode ↔ ∃ c u, CodeLine (l.bytes ++ w) c u w := by
  obtain ⟨s, hs, hsplit⟩ := trim_split l.content
  have hcr := trimLeft_crFree l.isText.undelimited
  constructor
  · rintro ⟨c, hc, t, ht, htakes⟩
    have hl : trimLeft blank l.content = c.literal ++ (t ++ s) := by
      rw [hsplit, ← List.append_assoc, ← ht]
      rfl
    have hts : cr ∉ t ++ s := fun h => hcr (by rw [hl]; exact List.mem_append_right _ h)
    have hright : c.literal ++ trimRight blank (t ++ s) = c.literal ++ t := by
      rw [trimRight_append_skippable hs]
      have hidem : trimRight blank (trimBlanks l.content) = trimBlanks l.content :=
        List.rdropWhile_idempotent blank _
      rw [show trimBlanks l.content = c.literal ++ t from ht] at hidem
      by_cases hv : ∃ b ∈ t, blank b = false
      · rwa [trimRight_append hv] at hidem
      · have ht' : ∀ b ∈ t, blank b = true := by simpa using hv
        have hnil : trimRight blank t = [] := List.rdropWhile_eq_nil_iff.mpr ht'
        rw [trimRight_append_skippable ht'] at hidem
        rw [hnil, List.append_nil]
        have hle : (trimRight blank c.literal).length ≤ c.literal.length :=
          (List.rdropWhile_prefix blank c.literal).length_le
        rw [hidem, List.length_append] at hle
        have h0 : t = [] := List.length_eq_zero_iff.mp (by omega)
        rw [h0, List.append_nil]
    refine ⟨c, t ++ s, hc, hts, ?_, ?_⟩
    · rwa [List.append_cancel_left hright]
    · rw [l.skipBlanks_bytes, hl, List.append_assoc]
  · rintro ⟨c, u, hc, hu, htakes, hy⟩
    rw [l.skipBlanks_bytes, ← List.append_assoc] at hy
    have hl := (crFree_append_inj hcr (literal_isText hc hu).undelimited hy).1
    refine ⟨c, hc, trimRight blank u, ?_, htakes⟩
    rw [← trimRight_literal htakes, ← hl]
    rfl

theorem CodeLine.startsLine {y : List UInt8} {c : ResultCode} {u w : List UInt8}
    (h : CodeLine y c u w) :
    ∃ l : ContentLine, y = l.bytes ++ w ∧ l.IsResultCode := by
  obtain ⟨s, hs, hy⟩ : ∃ s, AllBlank s ∧ y = s ++ skipBlanks y := skipOver_split y
  have ht := literal_isText h.coded h.crFree
  have hcr : cr ∉ s ++ (c.literal ++ u) := by
    intro hm
    rcases List.mem_append.mp hm with hm | hm
    · exact absurd (hs cr hm) (by decide)
    · exact ht.undelimited hm
  obtain ⟨b, hb, hv⟩ := ht.visible
  let l : ContentLine := ⟨s ++ (c.literal ++ u), hcr, b, List.mem_append_right s hb, hv⟩
  have hl : y = l.bytes ++ w := by
    rw [hy, h.split]
    simp [l, ContentLine.bytes]
  exact ⟨l, hl, (l.isResultCode_iff w).mpr ⟨c, u, hl ▸ h⟩⟩

theorem skipBlanks_crlf {s : List UInt8} (hs : AllBlank s) (y : List UInt8) :
    skipBlanks (s ++ cr :: y) = cr :: y := by
  rw [skipBlanks, skipOver_append hs, skipOver_cons_of_neg blank_cr]

theorem skipBlanks_split (x : List UInt8) : ∃ s, AllBlank s ∧ x = s ++ skipBlanks x :=
  skipOver_split x

theorem skipBlanks_append {x y : List UInt8} {a : UInt8} (h : skipBlanks x = a :: y)
    (w : List UInt8) : skipBlanks (x ++ w) = a :: (y ++ w) := by
  obtain ⟨s, hs, hx⟩ := skipBlanks_split x
  have hax : skipBlanks (s ++ (a :: (y ++ w))) = a :: (y ++ w) := by
    rw [skipBlanks, skipOver_append hs, skipOver_cons_of_neg (skipOver_head h)]
  rw [hx, h, List.append_assoc]
  exact hax

theorem opened_unique {x y y' : List UInt8} (h : skipBlanks x = cr :: lf :: y)
    (h' : skipBlanks x = cr :: lf :: y') : y = y' := by
  rw [h] at h'
  exact (List.cons.inj (List.cons.inj h').2).2

theorem StartsFinal.startsLine {x y : List UInt8} (hx : skipBlanks x = cr :: lf :: y)
    (h : StartsFinal x) : StartsLine y := by
  obtain ⟨y', c, u, w, hx', hc⟩ := h
  obtain ⟨l, hl, _⟩ := hc.startsLine
  exact ⟨l, w, opened_unique hx' hx ▸ hl⟩

theorem not_startsLine_of_cr {w : List UInt8} (h : NoOpenLine w) : ¬ StartsLine w := by
  rintro ⟨l, w', rfl⟩
  obtain ⟨a, v, hl, ha, _⟩ := trimLeft_visible l.isText
  rw [NoOpenLine, l.skipBlanks_bytes, hl, List.cons_append] at h
  rcases h with h | ⟨w, h⟩
  · cases h
  · exact ha (List.cons.inj h).1

theorem takeWhile_crFree {t : List UInt8} (ht : cr ∉ t) (w : List UInt8) :
    (t ++ cr :: w).takeWhile (· != cr) = t := by
  have hall : ∀ b ∈ t, (b != cr) = true := by
    intro b hb
    rw [bne_iff_ne]
    exact fun he => ht (he ▸ hb)
  rw [List.takeWhile_append_of_pos hall, List.takeWhile_cons_of_neg (by simp), List.append_nil]

theorem begun_blank {x : List UInt8} (h : NoOpenLine x) : begun x = [] := by
  obtain ⟨s, hs, hx⟩ := skipBlanks_split x
  have hcr : cr ∉ s := fun hmem => by simpa [blank_cr] using hs cr hmem
  have htake : x.takeWhile (· != cr) = s := by
    rcases h with h | ⟨w, h⟩
    · rw [hx, h, List.append_nil, List.takeWhile_eq_self_iff]
      intro b hb
      rw [bne_iff_ne]
      exact fun he => hcr (he ▸ hb)
    · rw [hx, h, takeWhile_crFree hcr]
  rw [begun, htake, if_pos (trim_eq_nil.mpr hs)]

theorem trimBlanks_text {t : List UInt8} (ht : IsText blank cr t) : trimBlanks t ≠ [] := by
  intro h
  obtain ⟨b, hb, hv⟩ := ht.visible
  simp [trim_eq_nil.mp h b hb] at hv

theorem begun_closed {t : List UInt8} (ht : IsText blank cr t) (w : List UInt8) :
    begun (t ++ cr :: w) = [trimBlanks t] := by
  rw [begun, takeWhile_crFree ht.undelimited, if_neg (trimBlanks_text ht), if_pos (by simp)]

theorem begun_unended {t : List UInt8} (ht : IsText blank cr t) :
    begun t = [trimLeft blank t] := by
  have htake : t.takeWhile (· != cr) = t := by
    rw [List.takeWhile_eq_self_iff]
    intro b hb
    rw [bne_iff_ne]
    exact fun he => ht.undelimited (he ▸ hb)
  rw [begun, htake, if_neg (trimBlanks_text ht), if_neg ht.undelimited]

theorem begun_nil_iff {x : List UInt8} : begun x = [] ↔ NoOpenLine x := by
  refine ⟨fun h => ?_, begun_blank⟩
  cases run_cases blank_cr x with
  | blank hx => exact hx
  | closed ht =>
    rw [begun_closed ht] at h
    cases h
  | unended ht =>
    rw [begun_unended ht] at h
    cases h

theorem maximal_run {y : List UInt8} (h : StartsLine y) :
    ∃ l ls w, y = render (l :: ls) ++ w ∧ ¬ StartsLine w := by
  induction hn : y.length using Nat.strong_induction_on generalizing y with
  | _ n ih =>
    obtain ⟨l, w, rfl⟩ := h
    by_cases hw : StartsLine w
    · have hlt : w.length < n := by
        rw [← hn, List.length_append, ContentLine.bytes, List.length_append]
        simp
      obtain ⟨l', ls, v, rfl, hv⟩ := ih w.length hlt hw rfl
      exact ⟨l, l' :: ls, v, by simp [render], hv⟩
    · exact ⟨l, [], w, by simp [render], hw⟩

theorem ContentLine.bytes_inj {l l' : ContentLine} {w w' : List UInt8}
    (h : l.bytes ++ w = l'.bytes ++ w') : l = l' ∧ w = w' := by
  simp only [ContentLine.bytes, List.append_assoc, List.cons_append, List.nil_append] at h
  obtain ⟨hc, hw⟩ := crFree_append_inj l.isText.undelimited l'.isText.undelimited h
  refine ⟨?_, (List.cons.inj hw).2⟩
  cases l
  cases l'
  cases hc
  rfl

theorem maximal_run_unique {ls ls' : List ContentLine} {w w' : List UInt8} (hw : ¬ StartsLine w)
    (hw' : ¬ StartsLine w') (h : render ls ++ w = render ls' ++ w') : ls = ls' ∧ w = w' := by
  induction ls generalizing ls' with
  | nil =>
    cases ls' with
    | nil => exact ⟨rfl, h⟩
    | cons l' ls' => exact absurd ⟨l', render ls' ++ w', by simpa [render] using h⟩ hw
  | cons l ls ih =>
    cases ls' with
    | nil => exact absurd ⟨l, render ls ++ w, by simpa [render] using h.symm⟩ hw'
    | cons l' ls' =>
      simp only [render, List.flatMap_cons, List.append_assoc] at h
      obtain ⟨hl, hrest⟩ := ContentLine.bytes_inj h
      obtain ⟨hls, hww⟩ := ih hrest
      exact ⟨by rw [hl, hls], hww⟩

theorem startsFinal_iff {b w : List UInt8} {l : ContentLine}
    (hb : skipBlanks b = cr :: lf :: (l.bytes ++ w)) : StartsFinal b ↔ l.IsResultCode := by
  constructor
  · rintro ⟨y, c, u, w', hy, hc⟩
    obtain ⟨l', hl', hcode⟩ := hc.startsLine
    have hll : l.bytes ++ w = l'.bytes ++ w' := (opened_unique hb hy).trans hl'
    exact (ContentLine.bytes_inj hll).1 ▸ hcode
  · intro h
    obtain ⟨c, u, hc⟩ := (l.isResultCode_iff w).mp h
    exact ⟨_, c, u, w, hb, hc⟩

theorem ResultCode.Takes.trimRight {c : ResultCode} {t : List UInt8} (h : c.Takes t) :
    c.Takes (trimRight blank t) := by
  cases c with
  | connect => trivial
  | cmeError => exact trimRight_visible.mpr h
  | cmsError => exact trimRight_visible.mpr h
  | _ =>
    have ht : t = [] := h
    subst t
    rfl

theorem FinalCode.codeLine (f : FinalCode) (w : List UInt8) :
    CodeLine (f.bytes ++ cr :: lf :: w) f.code f.text w := by
  have hc := ResultCode.mem_resultCodes.mpr f.coded
  refine ⟨hc, f.crFree, f.takes.trimRight, ?_⟩
  rw [FinalCode.bytes, List.append_assoc]
  exact skipBlanks_literal hc _

end Ringbeller
