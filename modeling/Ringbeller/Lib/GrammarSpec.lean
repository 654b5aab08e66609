import Ringbeller.Lib.ResponseLanguage

/-!
# The grammar reads the response language

One statement for each rule: what it matches, where it stops, which actions belong to
the match and which ones have run. The setters stay arbitrary, so `match_condition` and
`parse_response` are two instances of the same facts.
-/

namespace Ringbeller.Grammar
set_option autoImplicit false

open X3

variable {ε : Type}

theorem text_eq : (text : Parser UInt8 ε (List UInt8)) = upTo blank cr := rfl

theorem crlf_ok {x w : List UInt8} (h : skipBlanks x = cr :: lf :: w) :
    (crlf x : Reply UInt8 ε Unit) = ⟨some ((), []), w, []⟩ := lit_ok h

theorem crlf_fail {x : List UInt8} (h : ∀ w, skipBlanks x ≠ cr :: lf :: w) :
    (crlf x : Reply UInt8 ε Unit) = .fail (skipBlanks x) [] :=
  lit_fail (fun ⟨w, hw⟩ => h w hw.symm)

theorem crlf_cases (x : List UInt8) :
    (∃ w, skipBlanks x = cr :: lf :: w) ∨
      (crlf x : Reply UInt8 ε Unit) = .fail (skipBlanks x) [] := by
  by_cases h : ∃ w, skipBlanks x = cr :: lf :: w
  · exact Or.inl h
  · exact Or.inr (crlf_fail (fun w hw => h ⟨w, hw⟩))

/-- The reply of `text` to each kind of run; no action runs inside it. -/
inductive TextReply (ε : Type) : List UInt8 → Reply UInt8 ε (List UInt8) → Prop where
  | blank {x : List UInt8} (h : skipBlanks x = [] ∨ ∃ w, skipBlanks x = cr :: w) :
      TextReply ε x (.fail (skipBlanks x) [])
  | closed {t w s : List UInt8} (ht : IsText blank cr t) (hs : AllBlank s) :
      TextReply ε (t ++ cr :: w) ⟨some (trimBlanks t, []), s ++ cr :: w, []⟩
  | unended {t : List UInt8} (ht : IsText blank cr t) :
      TextReply ε t ⟨some (trimLeft blank t, []), [], []⟩

theorem text_reply (x : List UInt8) : TextReply ε x (text x) := by
  rw [text_eq]
  cases run_cases blank_cr x with
  | blank h =>
    rw [upTo_fail h]
    exact .blank h
  | closed ht =>
    obtain ⟨s, hs, hr⟩ := upTo_ok (ε := ε) ht blank_cr _
    rw [hr]
    exact .closed ht hs
  | unended ht =>
    rw [upTo_end ht]
    exact .unended ht

theorem text_shape (x : List UInt8) :
    (text x : Reply UInt8 ε (List UInt8)) = .fail (skipBlanks x) [] ∨
      ∃ t y, (text x : Reply UInt8 ε (List UInt8)) = ⟨some (t, []), y, []⟩ := by
  have h := text_reply (ε := ε) x
  cases h' : (text x : Reply UInt8 ε (List UInt8)) with
  | mk hit first ran =>
    rw [h'] at h
    cases h with
    | blank _ => exact Or.inl rfl
    | closed _ _ => exact Or.inr ⟨_, _, rfl⟩
    | unended _ => exact Or.inr ⟨_, _, rfl⟩

theorem text_closed {t : List UInt8} (ht : IsText blank cr t) (w : List UInt8) :
    ∃ s, AllBlank s ∧ (text (t ++ cr :: w) : Reply UInt8 ε (List UInt8)) =
      ⟨some (trimBlanks t, []), s ++ cr :: w, []⟩ := upTo_ok ht blank_cr w

theorem text_blank {x w : List UInt8} (h : skipBlanks x = cr :: w) :
    (text x : Reply UInt8 ε (List UInt8)) = .fail (cr :: w) [] :=
  (upTo_fail (Or.inr ⟨w, h⟩)).trans (by rw [show skipOver blank x = _ from h])

theorem text_crlf {x t y w : List UInt8}
    (h : (text x : Reply UInt8 ε (List UInt8)) = ⟨some (t, []), y, []⟩)
    (hy : skipBlanks y = cr :: lf :: w) :
    ∃ u, IsText blank cr u ∧ x = u ++ cr :: lf :: w ∧ t = trimBlanks u := by
  have hr := text_reply (ε := ε) x
  rw [h] at hr
  cases hr with
  | @closed u w' s hu hs =>
    rw [skipBlanks_crlf hs] at hy
    exact ⟨u, hu, by rw [(List.cons.inj hy).2], rfl⟩
  | unended _ => simp at hy

/-! ## Result codes -/

section Codes
variable (rcSetter : ResultCode → ε) (rcTextSetter : List UInt8 → ε)

def codeRule : ResultCode → Parser UInt8 ε Unit
  | .none => fun x => .fail x []
  | .ok => ok rcSetter
  | .connect => connect rcSetter rcTextSetter
  | .ring => ring rcSetter
  | .noCarrier => noCarrier rcSetter
  | .error => error rcSetter
  | .noDialtone => noDialtone rcSetter
  | .busy => busy rcSetter
  | .noAnswer => noAnswer rcSetter
  | .cmeError => cmeError rcSetter rcTextSetter
  | .cmsError => cmsError rcSetter rcTextSetter
  | .commandNotSupport => commandNotSupport rcSetter
  | .tooMayParameters => tooManyParameters rcSetter

theorem codes_eq : codes rcSetter rcTextSetter = resultCodes.map (codeRule rcSetter rcTextSetter) :=
  rfl

/-- The three shapes of a rule, and what each takes after its literal. -/
theorem codeRule_cases {c : ResultCode} (hc : c ∈ resultCodes) :
    ∃ s, ascii s = c.literal ∧
      ((codeRule rcSetter rcTextSetter c = set rcSetter s c ∧ ∀ t, c.Takes t ↔ t = []) ∨
        (codeRule rcSetter rcTextSetter c =
            seq (set rcSetter s c) (opt (act text rcTextSetter)) ∧ ∀ t, c.Takes t) ∨
        (codeRule rcSetter rcTextSetter c = seq (set rcSetter s c) (act text rcTextSetter) ∧
            ∀ t, c.Takes t ↔ ∃ b ∈ t, blank b = false)) := by
  cases c with
  | none => exact absurd hc (by decide)
  | connect => exact ⟨_, rfl, Or.inr (Or.inl ⟨rfl, fun _ => trivial⟩)⟩
  | cmeError => exact ⟨_, rfl, Or.inr (Or.inr ⟨rfl, fun _ => Iff.rfl⟩)⟩
  | cmsError => exact ⟨_, rfl, Or.inr (Or.inr ⟨rfl, fun _ => Iff.rfl⟩)⟩
  | _ => exact ⟨_, rfl, Or.inl ⟨rfl, fun _ => Iff.rfl⟩⟩

end Codes

variable {rcSetter : ResultCode → ε} {rcTextSetter bodyAppender : List UInt8 → ε}

theorem set_ok {s : String} {c : ResultCode} {x v : List UInt8} (h : skipBlanks x = ascii s ++ v) :
    set rcSetter s c x = ⟨some ((), [rcSetter c]), v, [rcSetter c]⟩ := act_ok (lit_ok h)

theorem set_fail {s : String} {c : ResultCode} {x : List UInt8} (h : ¬ ascii s <+: skipBlanks x) :
    set rcSetter s c x = .fail (skipBlanks x) [] := act_fail (lit_fail h)

theorem codeRule_fail {c : ResultCode} (hc : c ∈ resultCodes) {z : List UInt8}
    (hz : skipBlanks z = z) (h : ¬ c.literal <+: z) :
    codeRule rcSetter rcTextSetter c z = .fail z [] := by
  obtain ⟨s, hs, hr⟩ := codeRule_cases rcSetter rcTextSetter hc
  have hset : set rcSetter s c z = .fail z [] := by
    have hs' : ¬ ascii s <+: skipBlanks z := by rwa [hz, hs]
    rw [set_fail hs', hz]
  rcases hr with ⟨hr, _⟩ | ⟨hr, _⟩ | ⟨hr, _⟩
  · rw [hr, hset]
  · rw [hr, seq_fail_left hset]
  · rw [hr, seq_fail_left hset]

variable (rcSetter rcTextSetter bodyAppender)

theorem codeRule_ran {c : ResultCode} (hc : c ∈ resultCodes) {z v : List UInt8}
    (hz : skipBlanks z = c.literal ++ v) :
    ∃ texts : List (List UInt8),
      (codeRule rcSetter rcTextSetter c z).ran = rcSetter c :: texts.map rcTextSetter := by
  obtain ⟨s, hs, hr⟩ := codeRule_cases rcSetter rcTextSetter hc
  have hset : set rcSetter s c z = ⟨some ((), [rcSetter c]), v, [rcSetter c]⟩ :=
    set_ok (by rw [hz, hs])
  rcases hr with ⟨hr, _⟩ | ⟨hr, _⟩ | ⟨hr, _⟩
  · exact ⟨[], by rw [hr, hset]; rfl⟩
  · rcases text_shape (ε := ε) v with ht | ⟨t, y, ht⟩
    · exact ⟨[], by rw [hr, seq_ok hset (opt_fail (act_fail ht))]; rfl⟩
    · exact ⟨[t], by rw [hr, seq_ok hset (opt_ok (act_ok ht))]; rfl⟩
  · rcases text_shape (ε := ε) v with ht | ⟨t, y, ht⟩
    · exact ⟨[], by rw [hr, seq_fail_right hset (act_fail ht)]; rfl⟩
    · exact ⟨[t], by rw [hr, seq_ok hset (act_ok ht)]; rfl⟩

def codeActions (rcSetter : ResultCode → ε) (rcTextSetter : List UInt8 → ε) (c : ResultCode)
    (u : List UInt8) : List ε :=
  rcSetter c :: if trimBlanks u = [] then [] else [rcTextSetter (trimBlanks u)]

theorem takes_nil {c : ResultCode} (h : ∀ t, c.Takes t ↔ t = []) {u : List UInt8}
    (ht : c.Takes (trimRight blank u)) : AllBlank u :=
  List.rdropWhile_eq_nil_iff.mp ((h _).mp ht)

theorem codeRule_line {c : ResultCode} (hc : c ∈ resultCodes) {z u w : List UInt8}
    (hz : skipBlanks z = c.literal ++ (u ++ cr :: w)) (hu : cr ∉ u)
    (ht : c.Takes (trimRight blank u)) :
    ∃ s, AllBlank s ∧ codeRule rcSetter rcTextSetter c z =
      ⟨some ((), codeActions rcSetter rcTextSetter c u), s ++ cr :: w,
        codeActions rcSetter rcTextSetter c u⟩ := by
  obtain ⟨l, hl, hr⟩ := codeRule_cases rcSetter rcTextSetter hc
  have hset : set rcSetter l c z = ⟨some ((), [rcSetter c]), u ++ cr :: w, [rcSetter c]⟩ :=
    set_ok (by rw [hz, hl])
  by_cases hv : ∃ b ∈ u, blank b = false
  · -- something visible follows the literal, so a rule without text is excluded
    have hne : trimBlanks u ≠ [] := by
      intro h
      obtain ⟨b, hb, hbv⟩ := hv
      simp [trim_eq_nil.mp h b hb] at hbv
    obtain ⟨s, hs, htext⟩ := text_closed (ε := ε) ⟨hu, hv⟩ w
    refine ⟨s, hs, ?_⟩
    rcases hr with ⟨_, h0⟩ | ⟨hr, _⟩ | ⟨hr, _⟩
    · exact absurd (trim_eq_nil.mpr (takes_nil h0 ht)) hne
    · rw [hr, seq_ok hset (opt_ok (act_ok htext))]
      simp [codeActions, hne, trimBlanks]
    · rw [hr, seq_ok hset (act_ok htext)]
      simp [codeActions, hne, trimBlanks]
  · have hblank : AllBlank u := by simpa [AllBlank] using hv
    have hnil : trimBlanks u = [] := trim_eq_nil.mpr hblank
    have htext := text_blank (ε := ε) (skipBlanks_crlf hblank w)
    rcases hr with ⟨hr, _⟩ | ⟨hr, _⟩ | ⟨hr, h1⟩
    · exact ⟨u, hblank, by rw [hr, hset]; simp [codeActions, hnil]⟩
    · refine ⟨[], by simp [AllBlank], ?_⟩
      rw [hr, seq_ok hset (opt_fail (act_fail htext))]
      simp [codeActions, hnil]
    · exact absurd (trimRight_visible.mp ((h1 _).mp ht)) hv

theorem codeRule_untaken {c : ResultCode} (hc : c ∈ resultCodes) {z u w : List UInt8}
    (hz : skipBlanks z = c.literal ++ (u ++ cr :: w)) (ht : ¬ c.Takes (trimRight blank u)) :
    (codeRule rcSetter rcTextSetter c z).ran = [rcSetter c] := by
  obtain ⟨l, hl, hr⟩ := codeRule_cases rcSetter rcTextSetter hc
  have hset : set rcSetter l c z = ⟨some ((), [rcSetter c]), u ++ cr :: w, [rcSetter c]⟩ :=
    set_ok (by rw [hz, hl])
  rcases hr with ⟨hr, _⟩ | ⟨_, h0⟩ | ⟨hr, h1⟩
  · rw [hr, hset]
  · exact absurd (h0 _) ht
  · have hblank : AllBlank u := by
      by_contra hv
      exact ht ((h1 _).mpr (trimRight_visible.mpr (by simpa [AllBlank] using hv)))
    have htext := text_blank (ε := ε) (skipBlanks_crlf hblank w)
    rw [hr, seq_fail_right hset (act_fail htext)]
    rfl

theorem codeRule_inv {c : ResultCode} (hc : c ∈ resultCodes) {z v y w : List UInt8} {b : Unit}
    {k r : List ε} (hz : skipBlanks z = c.literal ++ v)
    (hok : codeRule rcSetter rcTextSetter c z = ⟨some (b, k), y, r⟩)
    (hy : skipBlanks y = cr :: lf :: w) :
    ∃ u, v = u ++ cr :: lf :: w ∧ cr ∉ u ∧ c.Takes (trimRight blank u) := by
  obtain ⟨l, hl, hr⟩ := codeRule_cases rcSetter rcTextSetter hc
  have hset : set rcSetter l c z = ⟨some ((), [rcSetter c]), v, [rcSetter c]⟩ :=
    set_ok (by rw [hz, hl])
  have hblank : skipBlanks v = cr :: lf :: w →
      ∃ u, v = u ++ cr :: lf :: w ∧ cr ∉ u ∧ trimRight blank u = [] := by
    intro h
    obtain ⟨u, hu, hv⟩ := skipBlanks_split v
    rw [h] at hv
    exact ⟨u, hv, fun hm => absurd (hu cr hm) (by decide), List.rdropWhile_eq_nil_iff.mpr hu⟩
  rcases hr with ⟨hr, h0⟩ | ⟨hr, h0⟩ | ⟨hr, h0⟩
  · rw [hr, hset] at hok
    have he : v = y := congrArg Reply.first hok
    obtain ⟨u, hv, hu, hn⟩ := hblank (he ▸ hy)
    exact ⟨u, hv, hu, (h0 _).mpr hn⟩
  · rcases text_shape (ε := ε) v with ht | ⟨t, y', ht⟩
    · rw [hr, seq_ok hset (opt_fail (act_fail ht))] at hok
      have he : skipBlanks v = y := congrArg Reply.first hok
      obtain ⟨u, hv, hu, _⟩ := hblank (by rw [← hy, ← he]; exact (skipOver_skipOver v).symm)
      exact ⟨u, hv, hu, h0 _⟩
    · rw [hr, seq_ok hset (opt_ok (act_ok ht))] at hok
      have he : y' = y := congrArg Reply.first hok
      obtain ⟨u, hu, hv, _⟩ := text_crlf ht (he ▸ hy)
      exact ⟨u, hv, hu.undelimited, h0 _⟩
  · rcases text_shape (ε := ε) v with ht | ⟨t, y', ht⟩
    · rw [hr, seq_fail_right hset (act_fail ht)] at hok
      cases hok
    · rw [hr, seq_ok hset (act_ok ht)] at hok
      have he : y' = y := congrArg Reply.first hok
      obtain ⟨u, hu, hv, _⟩ := text_crlf ht (he ▸ hy)
      exact ⟨u, hv, hu.undelimited, (h0 _).mpr (trimRight_visible.mpr hu.visible)⟩

/-! ## The choice among the codes -/

theorem alts_codes_skip (y : List UInt8) :
    alts (codes rcSetter rcTextSetter) y = alts (codes rcSetter rcTextSetter) (skipBlanks y) := by
  have hok : ok rcSetter y = ok rcSetter (skipBlanks y) := by
    simp only [ok, set, act, lit, skipOver_skipOver]
  simp only [codes, alts, alt, hok]

theorem alts_codes_fail {y : List UInt8}
    (h : ∀ c ∈ resultCodes, ¬ c.literal <+: skipBlanks y) :
    alts (codes rcSetter rcTextSetter) y = .fail (skipBlanks y) [] := by
  rw [alts_codes_skip, codes_eq]
  refine alts_fail (fun p hp => ?_)
  obtain ⟨c, hc, rfl⟩ := List.mem_map.mp hp
  exact codeRule_fail hc (skipOver_skipOver y) (h c hc)

theorem alts_codes {c : ResultCode} (hc : c ∈ resultCodes) {y v : List UInt8}
    (hy : skipBlanks y = c.literal ++ v) :
    alts (codes rcSetter rcTextSetter) y = codeRule rcSetter rcTextSetter c (skipBlanks y) := by
  obtain ⟨before, behind, hsplit⟩ := List.append_of_mem hc
  have hnodup : resultCodes.Nodup := by decide
  rw [hsplit] at hnodup
  have hother : ∀ c' ∈ resultCodes, c' ≠ c →
      codeRule rcSetter rcTextSetter c' (skipBlanks y) = .fail (skipBlanks y) [] :=
    fun c' hc' hne => codeRule_fail hc' (skipOver_skipOver y) (fun h =>
      hne (literal_unique hc' hc (by rwa [hy] at h)))
  rw [alts_codes_skip, codes_eq, hsplit, List.map_append, List.map_cons]
  refine alts_only (fun p hp => ?_) (fun p hp => ?_) ?_
  · obtain ⟨c', hc', rfl⟩ := List.mem_map.mp hp
    refine hother c' (by rw [hsplit]; exact List.mem_append_left _ hc') (fun he => ?_)
    subst c'
    exact (List.nodup_append.mp hnodup).2.2 c hc' c List.mem_cons_self rfl
  · obtain ⟨c', hc', rfl⟩ := List.mem_map.mp hp
    refine hother c' (by rw [hsplit]; simp [hc']) (fun he => ?_)
    subst c'
    exact (List.nodup_cons.mp (List.nodup_append.mp hnodup).2.1).1 hc'
  · obtain ⟨s, hs, hr⟩ := codeRule_cases rcSetter rcTextSetter hc
    have hset : set rcSetter s c (skipBlanks y) = ⟨some ((), [rcSetter c]), v, [rcSetter c]⟩ :=
      set_ok (by rw [skipBlanks, skipOver_skipOver, hs]; exact hy)
    rcases hr with ⟨hr, _⟩ | ⟨hr, _⟩ | ⟨hr, _⟩
    · exact Or.inl (by rw [hr, hset]; rfl)
    · rcases text_shape (ε := ε) v with ht | ⟨t, y', ht⟩
      · exact Or.inl (by rw [hr, seq_ok hset (opt_fail (act_fail ht))]; rfl)
      · exact Or.inl (by rw [hr, seq_ok hset (opt_ok (act_ok ht))]; rfl)
    · rcases text_shape (ε := ε) v with ht | ⟨t, y', ht⟩
      · exact Or.inr ⟨_, by rw [hr, seq_fail_right hset (act_fail ht)]⟩
      · exact Or.inl (by rw [hr, seq_ok hset (act_ok ht)]; rfl)

/-! ## FINAL_RESULT_CODE -/

theorem finalResultCode_ok {x y u w : List UInt8} {c : ResultCode}
    (hx : skipBlanks x = cr :: lf :: y) (h : CodeLine y c u w) :
    finalResultCode rcSetter rcTextSetter x =
      ⟨some ((), codeActions rcSetter rcTextSetter c u), w,
        codeActions rcSetter rcTextSetter c u⟩ := by
  obtain ⟨s, hs, hr⟩ := codeRule_line rcSetter rcTextSetter h.coded
    (z := skipBlanks y) (by rw [skipBlanks, skipOver_skipOver]; exact h.split) h.crFree h.takes
  have halts := (alts_codes rcSetter rcTextSetter h.coded h.split).trans hr
  have hr := seq_ok (seq_ok (crlf_ok hx) halts) (crlf_ok (skipBlanks_crlf hs _))
  rw [List.nil_append, List.append_nil] at hr
  exact hr

/-- What an abandoned result code leaves behind: nothing unless its literal matched, then the
code and at most texts. A complete content line leaves no text, since it would have matched. -/
def Leftover (rcSetter : ResultCode → ε) (rcTextSetter : List UInt8 → ε) (x : List UInt8)
    (ran : List ε) : Prop :=
  (ran = [] ∧ ¬ BeginsCode x) ∨
    ∃ y, skipBlanks x = cr :: lf :: y ∧ ∃ c ∈ resultCodes, c.literal <+: skipBlanks y ∧
      ∃ texts : List (List UInt8), ran = rcSetter c :: texts.map rcTextSetter ∧
        (StartsLine y → texts = [])

/-- Behind the literal that a content line begins with stands the rest of the line. -/
theorem literal_line {c : ResultCode} {l : ContentLine} {v w : List UInt8}
    (h : c.literal ++ v = trimLeft blank l.content ++ cr :: lf :: w) (hc : c ∈ resultCodes) :
    ∃ u, cr ∉ u ∧ v = u ++ cr :: lf :: w := by
  have hcr : cr ∈ v := by
    have hm : cr ∈ c.literal ++ v := by rw [h]; simp
    exact (List.mem_append.mp hm).resolve_left (literal_crFree c)
  obtain ⟨u, w', rfl, hu⟩ := List.eq_append_cons_of_mem hcr
  rw [← List.append_assoc] at h
  have hw := (crFree_append_inj (literal_isText hc hu).undelimited
    (trimLeft_crFree l.isText.undelimited) h).2
  exact ⟨u, hu, by rw [hw]⟩

theorem finalResultCode_fail {x : List UInt8} (h : ¬ StartsFinal x) :
    ∃ ran, finalResultCode rcSetter rcTextSetter x = .fail x ran ∧
      Leftover rcSetter rcTextSetter x ran := by
  rcases crlf_cases (ε := ε) x with ⟨y, hx⟩ | hx
  swap
  · refine ⟨[], seq_fail_left (seq_fail_left hx), Or.inl ⟨rfl, ?_⟩⟩
    rintro ⟨y, hy, _⟩
    rw [crlf_ok hy] at hx
    cases hx
  by_cases hc : ∃ c ∈ resultCodes, c.literal <+: skipBlanks y
  swap
  · have hnone : ∀ c ∈ resultCodes, ¬ c.literal <+: skipBlanks y := by simpa using hc
    have halts := alts_codes_fail rcSetter rcTextSetter hnone
    refine ⟨[], seq_fail_left (seq_fail_right (crlf_ok hx) halts), Or.inl ⟨rfl, ?_⟩⟩
    rintro ⟨y', hy', c, hc', hp⟩
    exact hnone c hc' (opened_unique hx hy' ▸ hp)
  obtain ⟨c, hc, hp⟩ := hc
  obtain ⟨v, hv⟩ := hp
  have hz : skipBlanks (skipBlanks y) = c.literal ++ v := (skipOver_skipOver y).trans hv.symm
  have halts := alts_codes rcSetter rcTextSetter hc hv.symm
  obtain ⟨texts, hran⟩ := codeRule_ran rcSetter rcTextSetter hc hz
  refine ⟨rcSetter c :: texts.map rcTextSetter, ?_,
    Or.inr ⟨y, hx, c, hc, ⟨v, hv⟩, texts, rfl, ?_⟩⟩
  · rw [← hran]
    rcases hr : codeRule rcSetter rcTextSetter c (skipBlanks y) with ⟨_ | ⟨b, k⟩, y', r⟩
    · rw [hr] at halts
      exact seq_fail_left (q := crlf) (seq_fail_right (crlf_ok hx) halts)
    · rw [hr] at halts
      rcases crlf_cases (ε := ε) y' with ⟨w, hy'⟩ | hy'
      · obtain ⟨u, rfl, hu, ht⟩ := codeRule_inv rcSetter rcTextSetter hc hz hr hy'
        exact absurd ⟨y, c, u, w, hx, hc, hu, ht, hv.symm⟩ h
      · have hf := seq_fail_right (seq_ok (crlf_ok hx) halts) hy'
        rw [List.nil_append, List.append_nil] at hf
        exact hf
  · rintro ⟨l, w, rfl⟩
    rw [l.skipBlanks_bytes] at hv
    obtain ⟨u, hu, rfl⟩ := literal_line hv hc
    have hnt : ¬ c.Takes (trimRight blank u) := fun ht =>
      h ⟨_, c, u, w, hx, hc, hu, ht, by rw [l.skipBlanks_bytes, hv]⟩
    rw [codeRule_untaken rcSetter rcTextSetter hc hz hnt] at hran
    simpa using hran

/-! ## RESPONSE_LINE -/

theorem responseLine_ok (l : ContentLine) (w : List UInt8) :
    responseLine bodyAppender (l.bytes ++ w) =
      ⟨some ((), [bodyAppender l.trimmed]), w, [bodyAppender l.trimmed]⟩ := by
  obtain ⟨s, hs, ht⟩ := text_closed (ε := ε) l.isText (lf :: w)
  rw [ContentLine.bytes, List.append_assoc]
  exact seq_ok (act_ok ht) (crlf_ok (skipBlanks_crlf hs _))

theorem responseLine_fail {x : List UInt8} (h : ¬ StartsLine x) :
    responseLine bodyAppender x = .fail x ((begun x).map bodyAppender) := by
  have ht := text_reply (ε := ε) x
  generalize hr : (text x : Reply UInt8 ε (List UInt8)) = r at ht
  cases ht with
  | blank hx =>
    rw [begun_blank hx]
    exact seq_fail_left (act_fail hr)
  | @closed t w s ht hs =>
    rw [begun_closed ht]
    rcases crlf_cases (ε := ε) (s ++ cr :: w) with ⟨w', hw⟩ | hw
    · rw [skipBlanks_crlf hs] at hw
      have hl : StartsLine (t ++ cr :: w) :=
        ⟨⟨t, ht⟩, w', by rw [ContentLine.bytes, (List.cons.inj hw).2]; simp⟩
      exact absurd hl h
    · exact seq_fail_right (act_ok hr) hw
  | unended ht =>
    rw [begun_unended ht]
    exact seq_fail_right (act_ok hr) (crlf_fail (by simp))

theorem responseLine_consumes : Consumes (responseLine bodyAppender) := by
  intro x y b k r h
  by_cases hx : StartsLine x
  · obtain ⟨l, w, rfl⟩ := hx
    rw [responseLine_ok bodyAppender] at h
    have hy : w = y := congrArg Reply.first h
    simp [← hy, ContentLine.bytes]
    omega
  · rw [responseLine_fail bodyAppender hx] at h
    cases h

/-- The greedy repetition reads the maximal run of content lines; of the line that it gives
up, the text may already have been appended. -/
theorem lines_ok {ls : List ContentLine} (hne : ls ≠ []) {w : List UInt8} (hw : ¬ StartsLine w) :
    plus (responseLine bodyAppender) (render ls ++ w) =
      ⟨some ((), ls.map fun l => bodyAppender l.trimmed), w,
        ls.map (fun l => bodyAppender l.trimmed) ++ (begun w).map bodyAppender⟩ := by
  have hf := responseLine_fail bodyAppender hw
  have hrun := star_run (responseLine_consumes bodyAppender) ContentLine.bytes (fun _ => ())
    (fun l => [bodyAppender l.trimmed]) (responseLine_ok bodyAppender) hf ls
  obtain ⟨l, ls', rfl⟩ := List.exists_cons_of_ne_nil hne
  have hl := responseLine_ok bodyAppender l (render ls' ++ w)
  have hsplit : render (l :: ls') ++ w = l.bytes ++ (render ls' ++ w) := by
    rw [render, List.flatMap_cons, List.append_assoc]
    rfl
  rw [hsplit, plus_eq_star (responseLine_consumes bodyAppender) hl, ← hsplit, List.map_eq_flatMap]
  exact hrun

/-! ## PROMPT -/

theorem prompt_ok {x y w : List UInt8} (hx : skipBlanks x = cr :: lf :: y)
    (hy : skipBlanks y = ascii "> " ++ w) :
    prompt bodyAppender x =
      ⟨some ((), [bodyAppender (ascii "> ")]), w, [bodyAppender (ascii "> ")]⟩ := by
  have hl : (lit blank (ascii "> ") (skipBlanks y) : Reply UInt8 ε Unit) = ⟨some ((), []), w, []⟩ :=
    lit_ok ((skipOver_skipOver y).trans hy)
  have hraw : (raw blank (lit blank (ascii "> ")) y : Reply UInt8 ε (List UInt8)) =
      ⟨some (ascii "> ", []), w, []⟩ := by
    simp only [raw, show skipOver blank y = skipBlanks y from rfl, hl]
    simp [hy]
  exact seq_ok (crlf_ok hx) (act_ok hraw)

theorem prompt_fail {x : List UInt8}
    (h : ∀ y w, skipBlanks x = cr :: lf :: y → skipBlanks y ≠ ascii "> " ++ w) :
    prompt bodyAppender x = .fail x [] := by
  rcases crlf_cases (ε := ε) x with ⟨y, hx⟩ | hx
  · have hl : (lit blank (ascii "> ") (skipBlanks y) : Reply UInt8 ε Unit) =
        .fail (skipBlanks y) [] := by
      have hno : ¬ ascii "> " <+: skipBlanks (skipBlanks y) := fun ⟨w, hw⟩ =>
        h y w hx (by rw [hw]; exact (skipOver_skipOver y).symm)
      have hf : (lit blank (ascii "> ") (skipBlanks y) : Reply UInt8 ε Unit) =
          .fail (skipBlanks (skipBlanks y)) [] := lit_fail hno
      rwa [show skipBlanks (skipBlanks y) = skipBlanks y from skipOver_skipOver y] at hf
    have hraw : (raw blank (lit blank (ascii "> ")) y : Reply UInt8 ε (List UInt8)) =
        .fail (skipBlanks y) [] := by
      simp only [raw, hl, Reply.fail]
    exact seq_fail_right (crlf_ok hx) (act_fail hraw)
  · exact seq_fail_left hx

/-! ## The whole response -/

/-- Every range falls into one of the cases in which the grammar behaves alike. -/
inductive Reading (b : List UInt8) : Prop where
  | code {y u w : List UInt8} {c : ResultCode} (hb : skipBlanks b = cr :: lf :: y)
      (hc : CodeLine y c u w)
  | report {l : ContentLine} {ls : List ContentLine} {w y u w' : List UInt8} {c : ResultCode}
      (hb : skipBlanks b = cr :: lf :: (render (l :: ls) ++ w)) (hfirst : ¬ StartsFinal b)
      (hw : skipBlanks w = cr :: lf :: y) (hc : CodeLine y c u w')
  | lines {l : ContentLine} {ls : List ContentLine} {w : List UInt8}
      (hb : skipBlanks b = cr :: lf :: (render (l :: ls) ++ w)) (hfirst : ¬ StartsFinal b)
      (hw : ¬ StartsLine w) (hfinal : ¬ StartsFinal w)
  | prompt {y w : List UInt8} (hb : skipBlanks b = cr :: lf :: y) (hy : ¬ StartsLine y)
      (hw : skipBlanks y = ascii "> " ++ w)
  | rejected (h : ∀ y, skipBlanks b = cr :: lf :: y →
      ¬ StartsLine y ∧ ∀ w, skipBlanks y ≠ ascii "> " ++ w)

theorem reading_cases (b : List UInt8) : Reading b := by
  by_cases hb : ∃ y, skipBlanks b = cr :: lf :: y
  swap
  · exact .rejected (fun y hy => absurd ⟨y, hy⟩ hb)
  obtain ⟨y, hb⟩ := hb
  by_cases hline : StartsLine y
  swap
  · by_cases hprompt : ∃ w, skipBlanks y = ascii "> " ++ w
    · obtain ⟨w, hw⟩ := hprompt
      exact .prompt hb hline hw
    · refine .rejected (fun y' hy' => ?_)
      obtain rfl := opened_unique hb hy'
      exact ⟨hline, fun w hw => hprompt ⟨w, hw⟩⟩
  by_cases hfirst : StartsFinal b
  · obtain ⟨y', c, u, w, hy', hc⟩ := hfirst
    exact .code hy' hc
  obtain ⟨l, ls, w, rfl, hw⟩ := maximal_run hline
  by_cases hfinal : StartsFinal w
  · obtain ⟨y', c, u, w', hy', hc⟩ := hfinal
    exact .report hb hfirst hy' hc
  · exact .lines hb hfirst hw hfinal

def lineActions (bodyAppender : List UInt8 → ε) (ls : List ContentLine) : List ε :=
  ls.map fun l => bodyAppender l.trimmed

theorem response_code {b y u w : List UInt8} {c : ResultCode} (hb : skipBlanks b = cr :: lf :: y)
    (hc : CodeLine y c u w) :
    response rcSetter rcTextSetter bodyAppender b =
      ⟨some ((), codeActions rcSetter rcTextSetter c u), w,
        codeActions rcSetter rcTextSetter c u⟩ := by
  have h := finalResultCode_ok rcSetter rcTextSetter hb hc
  rw [response, alts, alt_left (by rw [h]; rfl), h]

theorem response_report {b w y u w' : List UInt8} {l : ContentLine} {ls : List ContentLine}
    {c : ResultCode} (hb : skipBlanks b = cr :: lf :: (render (l :: ls) ++ w))
    (hfirst : ¬ StartsFinal b) (hw : skipBlanks w = cr :: lf :: y) (hc : CodeLine y c u w') :
    ∃ lead, Leftover rcSetter rcTextSetter b lead ∧
      response rcSetter rcTextSetter bodyAppender b =
        ⟨some ((), lineActions bodyAppender (l :: ls) ++ codeActions rcSetter rcTextSetter c u), w',
          lead ++ (lineActions bodyAppender (l :: ls) ++
            codeActions rcSetter rcTextSetter c u)⟩ := by
  obtain ⟨lead, hlead, hleft⟩ := finalResultCode_fail rcSetter rcTextSetter hfirst
  have hopen : NoOpenLine w := Or.inr ⟨_, hw⟩
  have hlines := lines_ok bodyAppender (List.cons_ne_nil l ls) (not_startsLine_of_cr hopen)
  rw [begun_blank hopen, List.map_nil, List.append_nil] at hlines
  have hfinal := finalResultCode_ok rcSetter rcTextSetter hw hc
  have hseq := seq_ok (seq_ok (crlf_ok hb) hlines) (opt_ok hfinal)
  refine ⟨lead, hleft, ?_⟩
  rw [response, alts, alt_right hlead, alts, alt_left (by rw [hseq]; rfl), hseq]
  simp only [Reply.after, lineActions, List.nil_append]

theorem response_lines {b w : List UInt8} {l : ContentLine} {ls : List ContentLine}
    (hb : skipBlanks b = cr :: lf :: (render (l :: ls) ++ w)) (hfirst : ¬ StartsFinal b)
    (hw : ¬ StartsLine w) (hfinal : ¬ StartsFinal w) :
    ∃ lead tail, Leftover rcSetter rcTextSetter b lead ∧ Leftover rcSetter rcTextSetter w tail ∧
      response rcSetter rcTextSetter bodyAppender b =
        ⟨some ((), lineActions bodyAppender (l :: ls)), w,
          lead ++ (lineActions bodyAppender (l :: ls) ++ (begun w).map bodyAppender ++ tail)⟩ := by
  obtain ⟨lead, hlead, hleft⟩ := finalResultCode_fail rcSetter rcTextSetter hfirst
  have hlines := lines_ok bodyAppender (List.cons_ne_nil l ls) hw
  obtain ⟨tail, htail, htailLeft⟩ := finalResultCode_fail rcSetter rcTextSetter hfinal
  have hseq := seq_ok (seq_ok (crlf_ok hb) hlines) (opt_fail htail)
  refine ⟨lead, tail, hleft, htailLeft, ?_⟩
  rw [response, alts, alt_right hlead, alts, alt_left (by rw [hseq]; rfl), hseq]
  simp only [Reply.after, lineActions, List.nil_append, List.append_nil]

/-- No literal begins with the prompt, so the result-code alternative has left nothing; the
line alternative always has, because the prompt itself begins a line. -/
theorem response_prompt {b y w : List UInt8} (hb : skipBlanks b = cr :: lf :: y)
    (hy : ¬ StartsLine y) (hw : skipBlanks y = ascii "> " ++ w) :
    response rcSetter rcTextSetter bodyAppender b =
      ⟨some ((), [bodyAppender (ascii "> ")]), w,
        (begun y).map bodyAppender ++ [bodyAppender (ascii "> ")]⟩ := by
  have hfirst : ¬ StartsFinal b := fun h => hy (h.startsLine hb)
  obtain ⟨lead, hlead, hleft⟩ := finalResultCode_fail rcSetter rcTextSetter hfirst
  have hnil : lead = [] := by
    rcases hleft with ⟨h, _⟩ | ⟨y', hy', c, hc, hp, _⟩
    · exact h
    · obtain rfl := opened_unique hb hy'
      rw [hw] at hp
      revert hp hc
      cases c <;> simp [resultCodes, ResultCode.literal, ascii]
  have hline := responseLine_fail bodyAppender hy
  have hseq : seq (seq crlf (plus (responseLine bodyAppender)))
      (opt (finalResultCode rcSetter rcTextSetter)) b = .fail b ((begun y).map bodyAppender) :=
    seq_fail_left (seq_fail_right (crlf_ok hb) (plus_fail hline))
  have hprompt := prompt_ok bodyAppender hb hw
  rw [response, alts, alt_right hlead, alts, alt_right hseq, alts,
    alt_left (by rw [hprompt]; rfl), hprompt, hnil]
  simp only [Reply.after, List.nil_append]

theorem response_rejected {b : List UInt8} (h : ∀ y, skipBlanks b = cr :: lf :: y →
    ¬ StartsLine y ∧ ∀ w, skipBlanks y ≠ ascii "> " ++ w) :
    ∃ ran, response rcSetter rcTextSetter bodyAppender b = .fail b ran := by
  have hfirst : ¬ StartsFinal b := by
    intro hf
    have ⟨y, _, _, _, hy, _⟩ := hf
    exact (h y hy).1 (hf.startsLine hy)
  obtain ⟨lead, hlead, _⟩ := finalResultCode_fail rcSetter rcTextSetter hfirst
  have hseq : ∃ r, seq (seq crlf (plus (responseLine bodyAppender)))
      (opt (finalResultCode rcSetter rcTextSetter)) b = .fail b r := by
    rcases crlf_cases (ε := ε) b with ⟨y, hy⟩ | hc
    · have hline := responseLine_fail bodyAppender (h y hy).1
      exact ⟨_, seq_fail_left (seq_fail_right (crlf_ok hy) (plus_fail hline))⟩
    · exact ⟨_, seq_fail_left (seq_fail_left hc)⟩
  obtain ⟨r, hseq⟩ := hseq
  have hprompt := prompt_fail bodyAppender (x := b) (fun y w hy => (h y hy).2 w)
  refine ⟨lead ++ r, ?_⟩
  rw [response, alts, alt_right hlead, alts, alt_right hseq, alts, alt_right hprompt]
  simp [alts, Reply.after, Reply.fail]

/-- On a range that does not begin with CR LF no action runs. -/
theorem response_unopened {b : List UInt8} (h : ∀ w, skipBlanks b ≠ cr :: lf :: w) :
    response rcSetter rcTextSetter bodyAppender b = .fail b [] := by
  have hcrlf : (crlf b : Reply UInt8 ε Unit) = .fail (skipBlanks b) [] := crlf_fail h
  apply alts_fail
  intro p hp
  simp only [List.mem_cons, List.not_mem_nil, or_false] at hp
  rcases hp with rfl | rfl | rfl
  · exact seq_fail_left (seq_fail_left hcrlf)
  · exact seq_fail_left (seq_fail_left hcrlf)
  · exact seq_fail_left hcrlf

end Ringbeller.Grammar
