import Ringbeller.Lib.Chunking
import Ringbeller.Lib.Conservation
import Ringbeller.Lib.Positions

/-!
# Streams of replies, notifications and prompts

What successive calls of `read` on one buffer make of a stream in which the modem sends one
message after the other, however its bytes are cut.
-/

namespace Ringbeller
set_option autoImplicit false

open Asio X3 Outputs

/-- What a modem sends: a reply that ends in a final result code, a notification that is one or
more lines without a code, or the prompt. -/
inductive Transmission where
  | reply (m : CompleteMessage)
  | notification (l : ContentLine) (ls : List ContentLine) (informs : ¬ l.IsResultCode)
  | prompt

namespace Transmission

def bytes : Transmission → List UInt8
  | reply m => m.bytes
  | notification l ls _ => [cr, lf] ++ render (l :: ls)
  | prompt => [cr, lf] ++ ascii "> "

/-- The least number of its bytes that `match_condition` takes for a message. -/
def firstStop : Transmission → Nat
  | reply m => m.firstStop
  | notification l _ _ => 2 + l.stop
  | prompt => 4

/-- `w` has come of the transmissions behind it and does not move its end: it holds no whole
result-code message directly behind a notification, and no CR LF behind the prompt. -/
def EndsBefore (t : Transmission) (ts : List Transmission) (w : List UInt8) : Prop :=
  match t with
  | reply _ => True
  | notification _ _ _ =>
    ∀ m ts', ts = reply m :: ts' → m.lines = [] → w.length < m.bytes.length
  | prompt => w.length < 2

/-- What a reading of it leaves in a new response. -/
def In (t : Transmission) (x : Response) : Prop :=
  match t with
  | reply m => x = m.response
  | notification l ls _ => x.body = (l :: ls).map ContentLine.trimmed
  | prompt => x.rc = .none ∧ x.body.getLast? = some (ascii "> ")

end Transmission

def stream (ts : List Transmission) : List UInt8 := ts.flatMap Transmission.bytes

/-- The read has stopped at the end of the transmission and delivers it. -/
structure Delivers (t : Transmission) (r : ReadRecord) : Prop where
  ec : r.ec = false
  count : r.count = t.bytes.length
  after : t.In r.after

/-- Each transmission is completed by chunks of which none but the last ends where it is accepted
already, and what the last one brings of the next transmissions does not move its end. -/
inductive Framed : List UInt8 → List (Arrival UInt8) → List Transmission → Prop where
  | none {held : List UInt8} {as : List (Arrival UInt8)} : Framed held as []
  | next {held w : List UInt8} {as tail : List (Arrival UInt8)} {t : Transmission}
      {ts : List Transmission} (hbytes : held ++ bytes as = t.bytes ++ w)
      (hcut : ∀ as', as' <+: as → as' ≠ as → (held ++ bytes as').length < t.firstStop)
      (hend : t.EndsBefore ts w) (h : Framed w tail ts) : Framed held (as ++ tail) (t :: ts)

/-! ## Where a transmission is accepted, and where it ends -/

def promptLine : ContentLine := ⟨ascii "> ", by decide, 62, by decide, by decide⟩

theorem stream_cons (t : Transmission) (ts : List Transmission) :
    stream (t :: ts) = t.bytes ++ stream ts := rfl

theorem Transmission.opens (t : Transmission) : ∃ y, t.bytes = cr :: lf :: y := by
  cases t with
  | reply m =>
    obtain ⟨z, hz, _⟩ := m.bytes_split
    exact ⟨_, hz⟩
  | notification l ls h => exact ⟨_, rfl⟩
  | prompt => exact ⟨_, rfl⟩

theorem stream_opens (ts : List Transmission) :
    stream ts = [] ∨ ∃ y, stream ts = cr :: lf :: y := by
  cases ts with
  | nil => exact Or.inl rfl
  | cons t ts =>
    obtain ⟨y, hy⟩ := t.opens
    exact Or.inr ⟨y ++ stream ts, by rw [stream_cons, hy]; rfl⟩

/-- The beginning of a stream is empty or begins with CR. -/
theorem stream_cut {ts : List Transmission} {w : List UInt8} (hw : w <+: stream ts) :
    w = [] ∨ ∃ v, w = cr :: v := by
  cases w with
  | nil => exact Or.inl rfl
  | cons a w =>
    rcases stream_opens ts with h | ⟨y, h⟩
    · rw [h] at hw
      cases List.prefix_nil.mp hw
    · rw [h] at hw
      rw [(List.cons_prefix_cons.mp hw).1]
      exact Or.inr ⟨w, rfl⟩

theorem stream_cut_opens {ts : List Transmission} {w : List UInt8} (hw : w <+: stream ts)
    (h : 2 ≤ w.length) : ∃ v, w = cr :: lf :: v := by
  rcases stream_opens ts with hs | ⟨y, hs⟩
  · rw [hs] at hw
    rw [List.prefix_nil.mp hw] at h
    simp at h
  · rw [hs] at hw
    match w, h, hw with
    | a :: b :: v, _, hw =>
      simp only [List.cons_prefix_cons] at hw
      exact ⟨v, by rw [hw.1, hw.2.1]⟩

theorem stream_cut_skip {ts : List Transmission} {w : List UInt8} (hw : w <+: stream ts) :
    skipBlanks w = w := by
  rcases stream_cut hw with rfl | ⟨v, rfl⟩
  · rfl
  · exact skipOver_cons_of_neg blank_cr v

/-- A stream begins like a line, also where it begins with the prompt. -/
theorem stream_line (t : Transmission) (ts : List Transmission) :
    ∃ l : ContentLine, t.firstStop = 2 + l.stop ∧
      ∃ z, t.bytes ++ stream ts <+: cr :: lf :: (l.bytes ++ z) := by
  cases t with
  | reply m =>
    obtain ⟨z, hz, _⟩ := m.bytes_split
    refine ⟨m.firstLine, rfl, z ++ stream ts, ?_⟩
    rw [Transmission.bytes, hz]
    simp
  | notification l ls h =>
    refine ⟨l, rfl, render ls ++ stream ts, ?_⟩
    simp [Transmission.bytes, render]
  | prompt =>
    refine ⟨promptLine, by decide, ?_⟩
    rcases stream_opens ts with h | ⟨y, h⟩
    · exact ⟨[], [cr, lf], by rw [h]; decide⟩
    · refine ⟨y, ?_⟩
      rw [h]
      simp [Transmission.bytes, promptLine, ContentLine.bytes]

theorem stream_accepts {t : Transmission} {ts : List Transmission} {p : List UInt8}
    (hp : p <+: t.bytes ++ stream ts) : (matchCondition p).2 = true ↔ t.firstStop ≤ p.length := by
  obtain ⟨l, hstop, z, hz⟩ := stream_line t ts
  rw [hstop]
  exact accepts_cut (hp.trans hz)

theorem ContentLine.stop_le (l : ContentLine) : l.stop ≤ l.bytes.length := by
  unfold ContentLine.stop
  split
  · simp only [ContentLine.bytes, List.length_append, List.length_cons, List.length_nil]
    omega
  · exact Nat.le_refl _

theorem Transmission.firstStop_le (t : Transmission) : t.firstStop ≤ t.bytes.length := by
  cases t with
  | reply m =>
    obtain ⟨z, hz, _⟩ := m.bytes_split
    have hle := m.firstLine.stop_le
    rw [Transmission.bytes, hz, Transmission.firstStop, CompleteMessage.firstStop]
    simp only [List.length_cons, List.length_append]
    omega
  | notification l ls h =>
    have hle := l.stop_le
    simp only [Transmission.bytes, Transmission.firstStop, render, List.flatMap_cons,
      List.length_append, List.length_cons, List.length_nil]
    omega
  | prompt => decide

/-- A result-code line can only come behind a transmission as a result-code message. -/
theorem code_behind {ts : List Transmission} {s v w : List UInt8} {l : ContentLine}
    (hs : AllBlank s) (hl : l.IsResultCode) (hw : w <+: stream ts)
    (hsplit : w = s ++ [cr, lf] ++ l.bytes ++ v) :
    ∃ m ts', ts = .reply m :: ts' ∧ m.lines = [] ∧ w = m.bytes ++ v := by
  have hw' : w = cr :: lf :: (l.bytes ++ v) := by
    rw [← stream_cut_skip hw, hsplit]
    simpa using skipBlanks_crlf hs (lf :: (l.bytes ++ v))
  obtain ⟨r, hr⟩ := hw
  rw [hw'] at hr
  cases ts with
  | nil => cases hr
  | cons t ts =>
    have hline {l' : ContentLine} {z : List UInt8} (hz : t.bytes = cr :: lf :: (l'.bytes ++ z)) :
        l = l' := by
      rw [stream_cons, hz] at hr
      have hinj : l.bytes ++ v ++ r = l'.bytes ++ z ++ stream ts :=
        (List.cons.inj (List.cons.inj hr).2).2
      rw [List.append_assoc, List.append_assoc] at hinj
      exact (ContentLine.bytes_inj hinj).1
    cases t with
    | reply m =>
      obtain ⟨z, hz, hnil⟩ := m.bytes_split
      have hfirst : l = m.firstLine := hline hz
      have hlines : m.lines = [] := by
        cases hm : m.lines with
        | nil => rfl
        | cons l' ls =>
          have hl' : l = l' := by rw [hfirst, CompleteMessage.firstLine, hm]; rfl
          exact absurd (hl' ▸ hl) (m.informs l' (by rw [hm]; rfl))
      refine ⟨m, ts, rfl, hlines, ?_⟩
      rw [hw', hz, hnil hlines, ← hfirst]
      simp
    | notification l' ls h =>
      have hl' : l = l' := hline (z := render ls) (by simp [Transmission.bytes, render])
      exact absurd (hl' ▸ hl) h
    | prompt =>
      obtain ⟨c, u, hcode⟩ := (l.isResultCode_iff (v ++ r)).mp hl
      obtain ⟨a, x, hc, ha⟩ := literal_not_prompt hcode.coded
      have hy : l.bytes ++ (v ++ r) = ascii "> " ++ stream ts := by
        rw [← List.append_assoc]
        exact (List.cons.inj (List.cons.inj hr).2).2
      have hsplit := hcode.split
      rw [hy, hc] at hsplit
      have hskip : skipBlanks (ascii "> " ++ stream ts) = ascii "> " ++ stream ts :=
        skipOver_cons_of_neg (by decide) _
      rw [hskip] at hsplit
      exact absurd (List.cons.inj hsplit).1.symm ha

theorem ends_notification {l : ContentLine} {ls : List ContentLine} (h : ¬ l.IsResultCode)
    {ts : List Transmission} {w : List UInt8} (hw : w <+: stream ts) :
    matchCondition ([cr, lf] ++ render (l :: ls) ++ w) = (w, true) ↔
      ∀ m ts', ts = .reply m :: ts' → m.lines = [] → w.length < m.bytes.length := by
  have hopen : NoOpenLine w := by
    rcases stream_cut hw with rfl | ⟨v, rfl⟩
    · exact Or.inl rfl
    · exact Or.inr ⟨v, skipOver_cons_of_neg blank_cr v⟩
  constructor
  · intro hend m ts' hts hlines
    by_contra hlen
    have hbegins : m.bytes <+: w := by
      apply List.prefix_of_prefix_length_le _ hw (Nat.not_lt.mp hlen)
      rw [hts]
      exact List.prefix_append m.bytes _
    obtain ⟨v, rfl⟩ := hbegins
    obtain ⟨z, hz, hnil⟩ := m.bytes_split
    have hcode : m.firstLine.IsResultCode := by
      have hline : m.firstLine = m.final.line := by rw [CompleteMessage.firstLine, hlines]; rfl
      rw [hline]
      exact m.final.line_isResultCode
    have hreport := @ReadsTo.report [] [] v l m.firstLine ls (by simp [AllBlank]) h
      (by simp [AllBlank]) hcode
    have hbytes : [] ++ [cr, lf] ++ render (l :: ls) ++ ([] ++ [cr, lf] ++ m.firstLine.bytes ++ v) =
        [cr, lf] ++ render (l :: ls) ++ (m.bytes ++ v) := by
      rw [hz, hnil hlines]
      simp
    rw [hbytes] at hreport
    have hrest := congrArg Prod.fst (hend.symm.trans (matchCondition_of_readsTo hreport))
    have hle : (skipBlanks v).length ≤ v.length := (skipOver_suffix v).length_le
    have hpos := List.length_pos_of_ne_nil m.bytes_ne_nil
    have hlen := congrArg List.length hrest
    simp only [List.length_append] at hlen
    omega
  · intro hno
    have hlines := @ReadsTo.lines [] w l ls (by simp [AllBlank]) h (not_startsLine_of_cr hopen)
      (by
        intro s l' v hs hl' hsplit
        obtain ⟨m, ts', hts, hlines, rfl⟩ := code_behind hs hl' hw hsplit
        have hlt := hno m ts' hts hlines
        rw [List.length_append] at hlt
        omega)
    rw [List.nil_append, stream_cut_skip hw] at hlines
    exact matchCondition_of_readsTo hlines

theorem prompt_open {ts : List Transmission} {w : List UInt8} (hw : w <+: stream ts)
    (h : w.length < 2) : ¬ StartsLine (ascii "> " ++ w) := by
  have hlf : lf ∉ ascii "> " ++ w := by
    match w, h, stream_cut hw with
    | [], _, _ => decide
    | [a], _, hcut =>
      rcases hcut with h | ⟨v, h⟩
      · cases h
      · rw [(List.cons.inj h).1]
        decide
  rintro ⟨l, v, hl⟩
  apply hlf
  rw [hl]
  simp [ContentLine.bytes]

theorem ends_prompt {ts : List Transmission} {w : List UInt8} (hw : w <+: stream ts) :
    matchCondition ([cr, lf] ++ ascii "> " ++ w) = (w, true) ↔ w.length < 2 := by
  constructor
  · intro hend
    by_contra hlen
    obtain ⟨v, rfl⟩ := stream_cut_opens hw (Nat.not_lt.mp hlen)
    have hread : ReadsTo ([] ++ [cr, lf] ++ render [promptLine] ++ v) (cr :: lf :: v) := by
      apply matchCondition_eq_true_iff.mp
      rw [← hend]
      simp [render, promptLine, ContentLine.bytes]
    have hbehind := readsTo_behind (by simp [AllBlank]) (fun _ => rfl) hread
    have hle : (skipBlanks v).length ≤ v.length := (skipOver_suffix v).length_le
    simp only [List.length_cons] at hbehind
    omega
  · intro hlen
    have hprompt := @ReadsTo.prompt [] [] w (by simp [AllBlank]) (by simp [AllBlank])
      (prompt_open hw hlen)
    simp only [List.nil_append, stream_cut_skip hw] at hprompt
    rw [List.append_assoc]
    exact matchCondition_of_readsTo hprompt

theorem ends_iff (t : Transmission) {ts : List Transmission} {w : List UInt8}
    (hw : w <+: stream ts) : matchCondition (t.bytes ++ w) = (w, true) ↔ t.EndsBefore ts w := by
  cases t with
  | reply m =>
    rw [Transmission.bytes, m.matchCondition_eq, stream_cut_skip hw]
    exact ⟨fun _ => trivial, fun _ => rfl⟩
  | notification l ls h => exact ends_notification h hw
  | prompt => exact ends_prompt hw

/-! ## Successive reads -/

theorem delivered_in {t : Transmission} {ts : List Transmission} {w : List UInt8}
    (hw : w <+: stream ts) (hend : t.EndsBefore ts w) (area : List UInt8) :
    t.In (populateResponseFromBuffer ⟨t.bytes ++ w, area⟩ Response.new) := by
  have hopen : NoOpenLine w := by
    rcases stream_cut hw with rfl | ⟨v, rfl⟩
    · exact Or.inl rfl
    · exact Or.inr ⟨v, skipOver_cons_of_neg blank_cr v⟩
  cases t with
  | reply m => exact populate_message m w area Response.new
  | notification l ls h =>
    have hb : skipBlanks ([cr, lf] ++ render (l :: ls) ++ w) =
        cr :: lf :: (render (l :: ls) ++ w) := skipOver_cons_of_neg blank_cr _
    have hfirst : ¬ StartsFinal ([cr, lf] ++ render (l :: ls) ++ w) := fun hf =>
      h ((startsFinal_iff (w := render ls ++ w) (by rw [hb]; simp [render])).mp hf)
    have hfinal : ¬ StartsFinal w := by
      rintro ⟨y, c, u, v, hy, hc⟩
      obtain ⟨l', rfl, hl'⟩ := hc.startsLine
      obtain ⟨s, hs, hsplit⟩ := skipBlanks_split w
      rw [hy] at hsplit
      obtain ⟨m, ts', hts, hlines, rfl⟩ :=
        code_behind (v := v) hs hl' hw (by rw [hsplit]; simp)
      have hlt := hend m ts' hts hlines
      rw [List.length_append] at hlt
      omega
    obtain ⟨_, c, text, hp, _⟩ := parse_lines hb hfirst (not_startsLine_of_cr hopen) hfinal
    rw [begun_blank hopen, List.append_nil] at hp
    simp only [Transmission.In, Transmission.bytes, populateResponseFromBuffer, hp]
    rfl
  | prompt =>
    have hb : skipBlanks ([cr, lf] ++ ascii "> " ++ w) = cr :: lf :: (ascii "> " ++ w) :=
      skipOver_cons_of_neg blank_cr _
    have hskip : skipBlanks (ascii "> " ++ w) = ascii "> " ++ w :=
      skipOver_cons_of_neg (by decide) _
    have hp := (parse_prompt hb (prompt_open hw hend) hskip).2
    simp only [Transmission.In, Transmission.bytes, populateResponseFromBuffer, hp]
    simp [Response.new]

/-- One read of a stream that is held in part, the rest of which arrives. -/
theorem read_transmission {held : List UInt8} {as : List (Arrival UInt8)} {t : Transmission}
    {ts : List Transmission} (hstream : held ++ bytes as = t.bytes ++ stream ts)
    (turns : List (Turn UInt8)) :
    ∃ as' tail left, as = as' ++ tail ∧
      NextMessage held (as.map .received ++ turns) as' left (tail.map .received ++ turns) := by
  have hlen := congrArg List.length hstream
  have hle := t.firstStop_le
  rw [List.length_append] at hlen
  have hacc : (matchCondition (held ++ bytes as)).2 = true := by
    have hprefix : held ++ bytes as <+: t.bytes ++ stream ts := by rw [hstream]
    rw [stream_accepts hprefix, hstream, List.length_append]
    omega
  obtain ⟨as', tail, hsplit, hnext⟩ := nextMessage_in hacc turns
  exact ⟨as', tail, _, hsplit, hnext⟩

theorem receiveAll_filled {held : List UInt8} {as : List (Arrival UInt8)}
    (hfull : ∀ a ∈ as, a.spare = []) :
    Streambuf.receiveAll ⟨held, []⟩ as = ⟨held ++ bytes as, []⟩ := by
  have hdata : (Streambuf.receiveAll ⟨held, []⟩ as).data = held ++ bytes as :=
    Streambuf.receiveAll_data ⟨held, []⟩ as
  have harea : (Streambuf.receiveAll ⟨held, []⟩ as).area = [] := by
    cases hlast : as.getLast? with
    | none => rw [List.getLast?_eq_none_iff.mp hlast, Streambuf.receiveAll_nil]
    | some a =>
      rw [Streambuf.receiveAll_area _ hlast]
      exact hfull a (List.mem_of_getLast? hlast)
  generalize Streambuf.receiveAll ⟨held, []⟩ as = buf at hdata harea
  obtain ⟨data, area⟩ := buf
  simp only at hdata harea
  rw [hdata, harea]

/-- A read whose chunks fill the areas prepared for them leaves exactly what it has not counted. -/
theorem read_filled {held left : List UInt8} {turns rest : List (Turn UInt8)}
    {as : List (Arrival UInt8)} (h : NextMessage held turns as left rest)
    (hfull : ∀ a ∈ as, a.spare = []) (msg : Response) :
    read ⟨turns, ⟨held, []⟩, msg⟩ =
      (⟨held, as, false, (held ++ bytes as).length - left.length, held ++ bytes as, msg,
          populateResponseFromBuffer ⟨held ++ bytes as, []⟩ msg⟩,
        ⟨rest, ⟨left, []⟩, populateResponseFromBuffer ⟨held ++ bytes as, []⟩ msg⟩) := by
  have hstop := @NextMessage.readUntil ⟨held, []⟩ _ _ _ _ h
  rw [receiveAll_filled hfull] at hstop
  have hdrop : (held ++ bytes as).drop ((held ++ bytes as).length - left.length) = left := by
    have hsuffix := matchCondition_suffix (held ++ bytes as)
    rw [h.accepted] at hsuffix
    exact (List.suffix_iff_eq_drop.mp hsuffix).symm
  have hcommit (n : Nat) : (⟨held ++ bytes as, []⟩ : Streambuf UInt8).commit n =
      ⟨held ++ bytes as, []⟩ := by
    simp [Streambuf.commit]
  simp only [read, deliver, hstop, hcommit, Streambuf.consume, hdrop, Bool.false_eq_true, if_false]

theorem held_begins (held : List UInt8) {as as' : List (Arrival UInt8)} (h : as' <+: as) :
    held ++ bytes as' <+: held ++ bytes as := by
  rw [List.prefix_append_right_inj]
  exact bytes_prefix h

theorem framed_reads {ts : List Transmission} {held : List UInt8} {as : List (Arrival UInt8)}
    (hstream : held ++ bytes as = stream ts) (hfull : ∀ a ∈ as, a.spare = [])
    (turns : List (Turn UInt8)) (msg : Response) :
    List.Forall₂ Delivers ts
      ((reads ts.length ⟨as.map .received ++ turns, ⟨held, []⟩, msg⟩).map Prod.fst) ↔
        Framed held as ts := by
  induction ts generalizing held as msg with
  | nil => exact ⟨fun _ => .none, fun _ => .nil⟩
  | cons t ts ih =>
    simp only [List.length_cons, reads, List.map_cons, List.forall₂_cons]
    constructor
    · rintro ⟨hd, hrest⟩
      obtain ⟨as', tail, left, rfl, hnext⟩ := read_transmission hstream turns
      have hfull' : ∀ a ∈ as', a.spare = [] := fun a ha => hfull a (List.mem_append_left tail ha)
      rw [read_filled hnext hfull'] at hd hrest
      have hcount : (held ++ bytes as').length - left.length = t.bytes.length := hd.count
      rw [bytes_append, ← List.append_assoc, stream_cons] at hstream
      have hbegins : held ++ bytes as' <+: t.bytes ++ stream ts := ⟨_, hstream⟩
      obtain ⟨w, hw⟩ : t.bytes <+: held ++ bytes as' :=
        List.prefix_of_prefix_length_le (List.prefix_append _ _) hbegins (by omega)
      have hsuffix := matchCondition_suffix (held ++ bytes as')
      rw [hnext.accepted] at hsuffix
      have hdrop : left = (held ++ bytes as').drop ((held ++ bytes as').length - left.length) :=
        List.suffix_iff_eq_drop.mp hsuffix
      have hleft : left = w := by
        rw [hdrop, hcount, ← hw, List.drop_left]
      rw [← hw, List.append_assoc, List.append_cancel_left_eq] at hstream
      have hwstream : w <+: stream ts := ⟨_, hstream⟩
      rw [hleft] at hnext hrest
      refine .next hw.symm (fun as'' hp hne => ?_) ?_ ?_
      · have hund := hnext.undecided as'' hp hne
        have hcut : held ++ bytes as'' <+: t.bytes ++ stream ts :=
          (held_begins held hp).trans hbegins
        rw [← Nat.not_le, ← stream_accepts hcut, hund]
        exact Bool.false_ne_true
      · rw [← ends_iff t hwstream, hw]
        exact hnext.accepted
      · exact (ih hstream (fun a ha => hfull a (List.mem_append_right as' ha)) _).mp hrest
    · intro hf
      cases hf with
      | @next _ w as' tail _ _ hbytes hcut hend h =>
        have hfull' : ∀ a ∈ as', a.spare = [] := fun a ha => hfull a (List.mem_append_left tail ha)
        rw [bytes_append, ← List.append_assoc, stream_cons] at hstream
        have hbegins : held ++ bytes as' <+: t.bytes ++ stream ts := ⟨_, hstream⟩
        rw [hbytes, List.append_assoc, List.append_cancel_left_eq] at hstream
        have hwstream : w <+: stream ts := ⟨_, hstream⟩
        have hnext : NextMessage held ((as' ++ tail).map .received ++ turns) as' w
            (tail.map .received ++ turns) := by
          refine ⟨by rw [List.map_append, List.append_assoc], fun as'' hp hne => ?_, ?_⟩
          · have hcut' : held ++ bytes as'' <+: t.bytes ++ stream ts :=
              (held_begins held hp).trans hbegins
            rw [← Bool.not_eq_true, stream_accepts hcut', Nat.not_le]
            exact hcut as'' hp hne
          · rw [hbytes]
            exact (ends_iff t hwstream).mpr hend
        rw [read_filled hnext hfull']
        refine ⟨⟨rfl, ?_, ?_⟩, ?_⟩
        · simp only [hbytes, List.length_append]
          omega
        · simp only [hbytes]
          exact delivered_in hwstream hend []
        · exact (ih hstream (fun a ha => hfull a (List.mem_append_right as' ha)) _).mpr h

/-- Successive reads of a stream whose chunks fill the areas prepared for them take it apart into
what the modem has sent, one transmission for each read, exactly when no chunk ends inside a
transmission where it is accepted already, and a notification or prompt and what makes a longer
message of it are not found in the buffer together. -/
theorem reads_framed_iff (ts : List Transmission) (as : List (Arrival UInt8))
    (hstream : bytes as = stream ts) (hfull : ∀ a ∈ as, a.spare = []) (turns : List (Turn UInt8))
    (msg : Response) :
    List.Forall₂ Delivers ts
      ((reads ts.length ⟨as.map .received ++ turns, .new, msg⟩).map Prod.fst) ↔ Framed [] as ts :=
  framed_reads hstream hfull turns msg

/-- A notification and the OK behind it in one chunk are read as one message. -/
theorem reads_framed_together :
    let creg : ContentLine := ⟨ascii "+CREG: 1", by decide, 43, by decide, by decide⟩
    let ok : FinalCode := ⟨.ok, [], by decide, by decide, by decide⟩
    let both : Arrival UInt8 := ⟨ascii "\r\n+CREG: 1\r\n\r\nOK\r\n", [], by decide⟩
    ¬ Framed [] [both] [.notification creg [] (by decide), .reply ok.message] := by
  intro creg ok both h
  have hreads := (reads_framed_iff _ [both] (by decide) (by decide) [] .new).mpr h
  cases hreads with
  | cons hd _ => exact absurd hd.count (by decide)

end Ringbeller
