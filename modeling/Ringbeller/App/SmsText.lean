import Ringbeller.App.Calls
import Ringbeller.App.SmsLoop
import Ringbeller.Lib.Chunking

/-!
# The text of a short message

A +CMT notification is a header line and a text line, with nothing that ends it. The read stops
with the chunk that completes the header line, and whatever the buffer then holds behind that line
is parsed with it.
-/

namespace Ringbeller
set_option autoImplicit false

open Asio Session X3

namespace ReceiveSms

/-- A notification on the wire. -/
structure Notification where
  header : List UInt8
  text : List UInt8
  begins : (ascii "+CMT:").IsPrefix header
  headerCrFree : cr ∉ header
  textCrFree : cr ∉ text

namespace Notification

def bytes (m : Notification) : List UInt8 := [cr, lf] ++ m.header ++ [cr, lf] ++ m.text ++ [cr, lf]

theorem isText (m : Notification) : IsText blank cr m.header :=
  ⟨m.headerCrFree, 43, m.begins.subset (by decide), by decide⟩

def line (m : Notification) : ContentLine := ⟨m.header, m.isText⟩

/-- The bytes up to the end of the header line. -/
def headed (m : Notification) : Nat := 4 + m.header.length

def taken (m : Notification) (as : List (Arrival UInt8)) : List (Arrival UInt8) :=
  chunksUpTo m.headed as

/-- What the read counts, and commits once more. -/
def count (m : Notification) (as : List (Arrival UInt8)) : Nat :=
  (Asio.bytes (m.taken as)).length - (matchCondition (Asio.bytes (m.taken as))).1.length

/-- What is parsed behind the header line: the rest of the chunks that the read takes, and what
the second commit takes from the area behind them. -/
def seen (m : Notification) (as : List (Arrival UInt8)) : List UInt8 :=
  (Asio.bytes (m.taken as)).drop m.headed ++
    ((m.taken as).getLast?.elim [] Arrival.spare).take (m.count as)

end Notification

/-- The bytes hold just one line, complete or begun, and its text is `text`. -/
inductive OneLine (text x : List UInt8) : Prop where
  | complete (l : ContentLine) (w : List UInt8) (split : x = l.bytes ++ w) (nothing : NoOpenLine w)
      (trimmed : l.trimmed = text)
  | begun (incomplete : ¬ StartsLine x) (begun : begun x = [text])

/-- In front of the wait: an empty buffer, a response without a line, and no report yet. -/
structure Fresh (s : Session Handler) : Prop where
  data : s.buf.data = []
  body : s.response.body = []
  log : received ∉ s.log

/-- A message is reported only with the header and the text of the notification. -/
def Presents (m : Notification) (s : Session Handler) : Prop :=
  received ∈ s.log → s.response.body = [m.header, m.text]

/-! ## The header line -/

theorem marker_visible : ∀ b ∈ ascii "+CMT:", blank b = false := by
  have hall : (ascii "+CMT:").all (fun b => !blank b) = true := by decide
  simpa using hall

/-- A word without blanks is not completed by blanks. -/
theorem visible_prefix {p x s : List UInt8} (hp : ∀ b ∈ p, blank b = false) (hs : AllBlank s) :
    p <+: x ++ s ↔ p <+: x := by
  refine ⟨fun h => ?_, fun h => h.trans (List.prefix_append x s)⟩
  rcases List.prefix_or_prefix_of_prefix h (List.prefix_append x s) with h' | ⟨r, rfl⟩
  · exact h'
  · rw [List.prefix_append_right_inj] at h
    cases r with
    | nil => simp
    | cons b r =>
      have hb : blank b = false := hp b (List.mem_append_right x List.mem_cons_self)
      rw [hs b (h.subset List.mem_cons_self)] at hb
      cases hb

theorem marked_trimRight {p : List UInt8} (hp : ∀ b ∈ p, blank b = false) (x : List UInt8) :
    Marked p (trimRight blank x) ↔ Marked p x := by
  obtain ⟨s, hs, hx⟩ : ∃ s, AllBlank s ∧ x = trimRight blank x ++ s := trimRight_split x
  have hdrop (i : Nat) : p <+: x.drop i ↔ p <+: (trimRight blank x).drop i := by
    conv_lhs => rw [hx, List.drop_append]
    exact visible_prefix hp fun b hb => hs b (List.mem_of_mem_drop hb)
  have hfront := hdrop 0
  rw [List.drop_zero, List.drop_zero] at hfront
  simp only [Marked, hdrop]
  exact and_congr_left fun _ => hfront.symm

namespace Notification

variable (m : Notification)

theorem header_cons : ∃ v, m.header = 43 :: v := by
  obtain ⟨v, hv⟩ := m.begins
  exact ⟨_, hv.symm⟩

theorem skipBlanks_header : skipBlanks m.header = m.header := by
  obtain ⟨v, hv⟩ := m.header_cons
  rw [hv]
  exact skipOver_cons_of_neg (by decide) _

theorem line_trimmed : m.line.trimmed = trimRight blank m.header := by
  rw [ContentLine.trimmed, trimBlanks, trim]
  exact congrArg (trimRight blank) m.skipBlanks_header

theorem line_stop : m.line.stop = m.line.bytes.length := by
  apply if_neg
  intro h
  obtain ⟨v, hv⟩ := m.header_cons
  rw [show skipBlanks m.line.content = m.header from m.skipBlanks_header, hv] at h
  exact absurd (List.cons_prefix_cons.mp h).1 (by decide)

/-- No result code begins like the header. -/
theorem line_codeless : ¬ m.line.IsResultCode := by
  rintro ⟨c, hc, t, ht, _⟩
  have hmarker : ascii "+CMT:" <+: c.literal ++ t := by
    obtain ⟨s, hs, hx⟩ : ∃ s, AllBlank s ∧ m.header = trimRight blank m.header ++ s :=
      trimRight_split m.header
    rw [← ht, m.line_trimmed, ← visible_prefix marker_visible hs, ← hx]
    exact m.begins
  have hall : ∀ c ∈ resultCodes, ¬ c.literal <+: ascii "+CMT:" ∧ ¬ ascii "+CMT:" <+: c.literal := by
    decide
  rcases List.prefix_or_prefix_of_prefix hmarker (List.prefix_append c.literal t) with h | h
  · exact (hall c hc).2 h
  · exact (hall c hc).1 h

theorem bytes_eq : m.bytes = cr :: lf :: (m.line.bytes ++ (m.text ++ [cr, lf])) := by
  simp [bytes, line, ContentLine.bytes]

theorem line_length : m.line.bytes.length + 2 = m.headed := by
  simp [line, ContentLine.bytes, headed]
  omega

theorem accepts_cut {p : List UInt8} (hp : p <+: m.bytes) :
    (matchCondition p).2 = true ↔ m.headed ≤ p.length := by
  rw [Ringbeller.accepts_cut (m.bytes_eq ▸ hp), m.line_stop, ← m.line_length, Nat.add_comm]

end Notification

/-! ## The lines behind the header -/

theorem oneLine_iff {text w : List UInt8} {ls : List ContentLine} (hw : ¬ StartsLine w) :
    ls.map ContentLine.trimmed ++ begun w = [text] ↔ OneLine text (render ls ++ w) := by
  constructor
  · intro h
    cases ls with
    | nil => exact .begun hw h
    | cons l ls =>
      obtain ⟨htext, hrest⟩ := List.cons.inj h
      obtain ⟨hls, hbegun⟩ := List.append_eq_nil_iff.mp hrest
      refine .complete l w ?_ (begun_nil_iff.mp hbegun) htext
      rw [List.map_eq_nil_iff.mp hls]
      simp [render]
  · rintro (⟨l, v, hsplit, hv, rfl⟩ | ⟨hincomplete, hbegun⟩)
    · have hone : render ls ++ w = render [l] ++ v := by simpa [render] using hsplit
      obtain ⟨rfl, rfl⟩ := maximal_run_unique hw (not_startsLine_of_cr hv) hone
      rw [begun_blank hv, List.append_nil, List.map_singleton]
    · cases ls with
      | nil => exact hbegun
      | cons l ls => exact absurd ⟨l, render ls ++ w, by simp [render]⟩ hincomplete

/-! ## The first read -/

section FirstRead
variable {m : Notification} {as : List (Arrival UInt8)}

theorem headed_le : m.headed ≤ m.bytes.length := by
  rw [m.bytes_eq, ← m.line_length]
  simp only [List.length_cons, List.length_append]
  omega

theorem headed_taken (h : Asio.bytes as = m.bytes) :
    m.headed ≤ (Asio.bytes (m.taken as)).length := chunksUpTo_reaches (h ▸ headed_le)

theorem taken_begins (h : Asio.bytes as = m.bytes) : Asio.bytes (m.taken as) <+: m.bytes := by
  rw [← h]
  exact bytes_prefix (chunksUpTo_begins m.headed as)

/-- The read takes the chunks up to the end of the header line. -/
theorem takes_taken (h : Asio.bytes as = m.bytes) (area : List UInt8) (rest : List (Turn UInt8)) :
    ∃ turns, readUntil matchCondition ⟨[], area⟩ (as.map .received ++ rest) =
      ⟨false, m.count as, Streambuf.receiveAll ⟨[], area⟩ (m.taken as), turns, m.taken as⟩ :=
  readUntil_completes matchCondition_resumable (fun _ hp => m.accepts_cut (h ▸ hp))
    (h ▸ headed_le) area rest

/-- What is parsed is the header line and what is seen behind it. -/
theorem parsed_eq (h : Asio.bytes as = m.bytes) (area : List UInt8) :
    ((Streambuf.receiveAll ⟨[], area⟩ (m.taken as)).commit (m.count as)).data =
      cr :: lf :: (m.line.bytes ++ m.seen as) := by
  obtain ⟨last, hlast⟩ : ∃ last, (m.taken as).getLast? = some last := by
    cases hl : (m.taken as).getLast? with
    | some last => exact ⟨last, rfl⟩
    | none =>
      have hheaded := headed_taken h
      rw [List.getLast?_eq_none_iff.mp hl] at hheaded
      exact absurd hheaded (by simp [Asio.bytes, Notification.headed])
  have hline : cr :: lf :: m.line.bytes <+: Asio.bytes (m.taken as) := by
    refine List.prefix_of_prefix_length_le ⟨m.text ++ [cr, lf], m.bytes_eq.symm⟩
      (taken_begins h) ?_
    exact m.line_length.trans_le (headed_taken h)
  obtain ⟨x, hx⟩ := hline
  have hdrop : (Asio.bytes (m.taken as)).drop m.headed = x := by
    rw [← hx, ← m.line_length]
    exact List.drop_left
  rw [Streambuf.commit, Streambuf.receiveAll_data, Streambuf.receiveAll_area _ hlast,
    Notification.seen, hdrop, hlast]
  simp [← hx]

theorem deliver_body (held : List UInt8) (n : Nat) (buf : Streambuf UInt8)
    (turns : List (Turn UInt8)) (as : List (Arrival UInt8)) (msg : Response) :
    (deliver held ⟨false, n, buf, turns, as⟩ msg).1.after.body =
      msg.body ++ (parseResponse (buf.commit n).data Outputs.fresh).2.body := rfl

/-- The first line of the response is the header without the blanks behind it, and the text is
the other one if it is the only line seen. -/
theorem read_lines (h : Asio.bytes as = m.bytes) {s : ReadState} (hdata : s.buffer.data = [])
    (hbody : s.msg.body = []) {rest : List (Turn UInt8)}
    (hturns : s.turns = as.map .received ++ rest) :
    (firstAsyncRead s).1.ec = false ∧ ∃ more,
      (firstAsyncRead s).1.after.body = trimRight blank m.header :: more ∧
        (more = [m.text] ↔ OneLine m.text (m.seen as)) := by
  obtain ⟨turns, ⟨data, area⟩, msg⟩ := s
  obtain rfl : data = [] := hdata
  obtain ⟨later, htaken⟩ := takes_taken h area rest
  have hparsed := parsed_eq h area
  have hskip : skipBlanks (cr :: lf :: (m.line.bytes ++ m.seen as)) =
      cr :: lf :: (m.line.bytes ++ m.seen as) := skipOver_cons_of_neg blank_cr _
  obtain ⟨ls, w, hseen, hw, hlines⟩ := parse_body hskip m.line_codeless
  rw [firstAsyncRead_eq, show turns = _ from hturns, htaken]
  refine ⟨rfl, ls.map ContentLine.trimmed ++ begun w, ?_, ?_⟩
  · rw [deliver_body, hparsed, hlines, m.line_trimmed, show msg.body = [] from hbody,
      List.nil_append]
  · rw [oneLine_iff hw, hseen]

end FirstRead

/-! ## The loop behind the first read -/

/-- Nothing has been reported, and the first line of the response keeps the handler from it. -/
structure Silent (s : Session Handler) : Prop where
  log : received ∉ s.log
  front : ∃ line, s.response.body.head? = some line ∧ ¬ Marked (ascii "+CMT:") line

theorem Silent.unmarked {s : Session Handler} (hs : Silent s) :
    frontMarked "+CMT:" s.response = false := by
  obtain ⟨line, hline, hno⟩ := hs.front
  rw [Bool.eq_false_iff]
  intro hmarked
  obtain ⟨line', hline', hyes⟩ := (frontMarked_iff (by decide) _).mp hmarked
  rw [hline] at hline'
  exact hno (Option.some.inj hline' ▸ hyes)

theorem not_received {log : List Event} {e : Event} (h : received ∉ log) (he : received ≠ e) :
    received ∉ log ++ [e] := by
  simp [h, he]

/-- A read leaves the first line of a response that has one. -/
theorem record_front {c : Call Handler} {r : ReadRecord} (hr : c.record = some r)
    {line : List UInt8} (h : c.before.response.body.head? = some line) :
    r.after.body.head? = some line := by
  obtain ⟨op, handler, s⟩ := c
  cases op with
  | writing op => cases hr
  | reading held op =>
    obtain rfl := Option.some.inj hr
    have hline : s.response.body.head? = some line := h
    have hafter (o : Outcome UInt8) :
        (deliver held o s.response).1.after.body.head? = some line := by
      cases hec : o.ec with
      | true => simpa [deliver, hec] using hline
      | false => simp [deliver, hec, populateResponseFromBuffer, hline]
    exact hafter _

theorem silent_handle (handler : Handler) (ec : Bool) (n : Nat) {s : Session Handler}
    (hs : Silent s) : Silent (handle handler ec n s) := by
  cases handler
  cases ec with
  | true => exact hs
  | false =>
    rw [handle_unmarked n hs.unmarked]
    exact ⟨not_received hs.log (by decide), hs.front⟩

theorem silent_call {c : Call Handler} (hc : Silent c.before) : Silent (c.after handle) := by
  obtain ⟨line, hline, hno⟩ := hc.front
  cases hop : c.op with
  | reading held op =>
    have hr := Call.record_reading hop
    obtain ⟨t, ht, hafter⟩ := Call.after_read handle hr
    have hs : Silent t := by
      refine ⟨?_, line, ?_, hno⟩
      · rw [ht.log]
        exact not_received hc.log nofun
      · rw [ht.response]
        exact record_front hr hline
    obtain ⟨hlog, hfront⟩ := silent_handle c.handler _ _ hs
    rw [hafter]
    exact ⟨hlog, hfront⟩
  | writing op =>
    obtain ⟨t, ht, hafter⟩ := Call.after_write handle hop
    rw [hafter]
    refine silent_handle c.handler _ _ ⟨?_, line, ?_, hno⟩
    · rw [ht.log]
      exact not_received hc.log nofun
    · rw [ht.response]
      exact hline

theorem silent_dispatch (n : Nat) {s : Session Handler} (hs : Silent s) :
    Silent (dispatch handle n s).2 := by
  induction n generalizing s with
  | zero => exact hs
  | succ n ih =>
    cases hp : s.pending with
    | none => rwa [(loop_idle handle hp (n + 1)).2]
    | some op =>
      let c : Call Handler := ⟨op.1, op.2, { s with pending := none }⟩
      have hbefore : Silent c.before := ⟨hs.log, hs.front⟩
      rw [(loop_call (c := c) handle hp rfl n).2]
      exact ih (silent_call hbefore)

/-! ## The report -/

/-- The state behind the first handler call: the handler has reported and is done, or nothing is
reported any more. -/
theorem first_call {s : Session Handler} (hs : Fresh s) {r : ReadRecord}
    (hr : (firstAsyncRead ⟨s.turns, s.buf, s.response⟩).1 = r) (hec : r.ec = false)
    {line : List UInt8} (hline : r.after.body.head? = some line) (n : Nat) :
    (¬ Marked (ascii "+CMT:") line →
        Silent (dispatch handle (n + 1) (s.asyncRead .readHandler)).2) ∧
      (Marked (ascii "+CMT:") line →
        received ∈ (dispatch handle (n + 1) (s.asyncRead .readHandler)).2.log ∧
          (dispatch handle (n + 1) (s.asyncRead .readHandler)).2.response = r.after) := by
  let c : Call Handler := ⟨.reading s.buf.data (Ringbeller.asyncRead s.buf), .readHandler,
    { s.asyncRead .readHandler with pending := none }⟩
  have hrecord : c.record = some r := congrArg some hr
  obtain ⟨t, ht, hafter⟩ := Call.after_read handle hrecord
  have hcall : dispatch handle (n + 1) (s.asyncRead .readHandler) =
      dispatch handle n (c.after handle) := (loop_call handle rfl rfl n).2
  rw [hcall, hafter, hec]
  constructor
  · intro hno
    have htsilent : Silent t := by
      refine ⟨?_, line, by rw [ht.response]; exact hline, hno⟩
      rw [ht.log]
      exact not_received hs.log nofun
    obtain ⟨hlog, hfront⟩ := silent_handle c.handler false r.count htsilent
    exact silent_dispatch n ⟨hlog, hfront⟩
  · intro hmarked
    have hfront : frontMarked "+CMT:" t.response = true := by
      rw [frontMarked_iff (by decide), ht.response]
      exact ⟨line, hline, hmarked⟩
    rw [show c.handler = .readHandler from rfl, handle_marked _ hfront]
    have hidle : (((t.consume r.count).print "SMS received.").consume r.count).pending = none :=
      ht.pending
    rw [(loop_idle handle hidle n).2]
    exact ⟨List.mem_append_right t.log (List.mem_singleton_self received), ht.response⟩

/-- However a notification is cut, it is reported with just its header and its text exactly when
it is not reported at all, because its header has a second marker, or no blank ends the header
and what is seen behind it is one line with the text. -/
theorem presents_iff (m : Notification) {as : List (Arrival UInt8)} (h : Asio.bytes as = m.bytes)
    {s : Session Handler} (hs : Fresh s) {rest : List (Turn UInt8)}
    (hturns : s.turns = as.map .received ++ rest) :
    (∀ n, Presents m (dispatch handle n (s.asyncRead .readHandler)).2) ↔
      (Marked (ascii "+CMT:") m.header →
        trimRight blank m.header = m.header ∧ OneLine m.text (m.seen as)) := by
  obtain ⟨hec, more, hbody, hmore⟩ :=
    read_lines (s := ⟨s.turns, s.buf, s.response⟩) h hs.data hs.body hturns
  have hline : (firstAsyncRead ⟨s.turns, s.buf, s.response⟩).1.after.body.head? =
      some (trimRight blank m.header) := by rw [hbody, List.head?_cons]
  have hcall := first_call hs rfl hec hline
  rw [marked_trimRight marker_visible] at hcall
  rw [← hmore]
  constructor
  · intro hall hmarked
    obtain ⟨hreported, hresponse⟩ := (hcall 0).2 hmarked
    have hlines := hall 1 hreported
    rw [hresponse, hbody, List.cons.injEq] at hlines
    exact hlines
  · intro hlines n
    cases n with
    | zero => exact fun hreported => absurd hreported hs.log
    | succ n =>
      by_cases hmarked : Marked (ascii "+CMT:") m.header
      · intro _
        obtain ⟨hheader, htext⟩ := hlines hmarked
        rw [((hcall n).2 hmarked).2, hbody, hheader, htext]
      · exact fun hreported => absurd hreported ((hcall n).1 hmarked).log

/-- Cut behind its header line, the notification is reported without its text. -/
theorem presents_header :
    let m : Notification := ⟨ascii "+CMT: 1", ascii "Hi", by decide, by decide, by decide⟩
    let first : Arrival UInt8 := ⟨ascii "\r\n+CMT: 1\r\n", [], by decide⟩
    let second : Arrival UInt8 := ⟨ascii "Hi\r\n", [], by decide⟩
    let s : Session Handler := .start ⟨true, [.received first, .received second], []⟩
    Asio.bytes [first, second] = m.bytes ∧ Fresh s ∧
      ¬ ∀ n, Presents m (dispatch handle n (s.asyncRead .readHandler)).2 := by
  intro m first second s
  refine ⟨by decide, ⟨rfl, rfl, by decide⟩, fun h => ?_⟩
  have hreported : received ∈ (dispatch handle 1 (s.asyncRead .readHandler)).2.log := by
    decide +kernel
  exact absurd (h 1 hreported) (by decide +kernel)

/-- The notification fills an area of 512 bytes. -/
theorem presents_whole :
    let m : Notification := ⟨ascii "+CMT: 1", List.replicate 499 97, by decide, by decide,
      by decide +kernel⟩
    let whole : Arrival UInt8 := ⟨m.bytes, [], by decide +kernel⟩
    let s : Session Handler := .start ⟨true, [.received whole], []⟩
    whole.chunk.length = 512 ∧
      ∀ n, Presents m (dispatch handle n (s.asyncRead .readHandler)).2 := by
  intro m whole s
  have hbytes : Asio.bytes [whole] = m.bytes := List.flatMap_singleton _ _
  have hturns : s.turns = [whole].map .received ++ [] := rfl
  let text : ContentLine := ⟨m.text, m.textCrFree, 97, by decide +kernel, by decide⟩
  have htext : OneLine m.text (m.seen [whole]) :=
    .complete text [] (by decide +kernel) (Or.inl rfl) (by decide +kernel)
  refine ⟨by decide +kernel, ?_⟩
  exact (presents_iff m hbytes ⟨rfl, rfl, by decide⟩ hturns).mpr fun _ => ⟨by decide, htext⟩

end ReceiveSms

end Ringbeller
