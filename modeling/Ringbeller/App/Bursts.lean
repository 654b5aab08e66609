import Ringbeller.App.ReadLoop
import Ringbeller.Lib.Retries

/-!
# Bursts of messages

The loop of the re-armed read on chunks that hold several messages. The next search has found its
message when the lambda of the read before it consumes the count once more, so that the message
found is gone when its handler is called. Each call commits a piece of the area behind the chunk.
-/

namespace Ringbeller
set_option autoImplicit false

open Asio X3 Session

/-- No blank and no CR, so that no message begins in these bytes. -/
def Inert (z : List UInt8) : Prop := ∀ b ∈ z, blank b = false ∧ b ≠ cr

/-- Result-code messages of one length that come in one chunk, and the area behind them. -/
structure Burst where
  messages : List FinalCode
  length : Nat
  area : List UInt8
  nonempty : messages ≠ []
  alike : ∀ f ∈ messages, f.message.bytes.length = length
  inert : Inert area

/-- Every second code. The handler is called once more, with no code, when the last message is one
of those that are lost. -/
def alternate : List ResultCode → List ResultCode
  | [] => [.none]
  | [c] => [c]
  | c :: _ :: cs => c :: alternate cs

theorem stream_codes_ne_nil {fs : List FinalCode} (h : fs ≠ []) : stream (codes fs) ≠ [] := by
  cases fs with
  | nil => exact absurd rfl h
  | cons f fs => exact List.append_ne_nil_of_left_ne_nil f.message.bytes_ne_nil _

namespace Burst

def results (b : Burst) : List ResultCode := b.messages.map FinalCode.code

def arrival (b : Burst) : Arrival UInt8 :=
  ⟨stream (codes b.messages), b.area, stream_codes_ne_nil b.nonempty⟩

/-- More of the area has been committed than the handler and the lambda have consumed. What is left
of it stays in front of everything that comes later. -/
def chokes (b : Burst) : Bool :=
  3 ≤ b.messages.length && (2 - b.messages.length % 2) * b.length < b.area.length

/-- What the buffer holds without the first `k` messages, after `m` commits. -/
def held (b : Burst) (k m : Nat) : List UInt8 :=
  stream (codes (b.messages.drop k)) ++ b.area.take (m * b.length)

/-- The buffer after `m` handler calls. -/
def left (b : Burst) (m : Nat) : Streambuf UInt8 :=
  ⟨b.held (2 * m) m, b.area.drop (m * b.length)⟩

/-- What the last call leaves. -/
def leftover (b : Burst) : List UInt8 :=
  (b.area.take ((b.messages.length / 2 + 1) * b.length)).drop
    ((2 - b.messages.length % 2) * b.length)

end Burst

def coming (bs : List Burst) : List (Turn UInt8) := bs.map fun b => .received b.arrival

/-- The codes with which the handler is called for one burst after the other. -/
def heard : List Burst → List ResultCode
  | [] => []
  | b :: bs => alternate b.results ++ if b.chokes then [] else heard bs

/-! ## What the area leaves in the buffer -/

/-- An area that has been zeroed. -/
theorem inert_zeros (n : Nat) : Inert (List.replicate n 0) := by
  intro b hb
  rw [List.eq_of_mem_replicate hb]
  decide

theorem Inert.drop {z : List UInt8} (h : Inert z) (n : Nat) : Inert (z.drop n) :=
  fun b hb => h b (List.mem_of_mem_drop hb)

theorem Inert.take {z : List UInt8} (h : Inert z) (n : Nat) : Inert (z.take n) :=
  fun b hb => h b (List.mem_of_mem_take hb)

theorem Inert.skipped {z : List UInt8} (h : Inert z) : skipBlanks z = z := by
  cases z with
  | nil => rfl
  | cons b z => exact skipOver_cons_of_neg (h b List.mem_cons_self).1 z

theorem Inert.unopened {z : List UInt8} (h : Inert z) (w : List UInt8) :
    skipBlanks z ≠ cr :: lf :: w := by
  rw [h.skipped]
  rintro rfl
  exact (h cr List.mem_cons_self).2 rfl

theorem Inert.rejected {z : List UInt8} (h : Inert z) : matchCondition z = (z, false) := by
  have hrejected := matchCondition_rejected (b := z) fun y hy => absurd hy (h.unopened y)
  rwa [h.skipped] at hrejected

theorem Inert.searched {z : List UInt8} (h : Inert z) :
    search matchCondition 0 z = .searching 0 := search_rejected_at_front h.rejected

theorem alternate_step {cs : List ResultCode} {k : Nat} (h : k + 2 ≤ cs.length) :
    alternate (cs.drop k) = cs[k]?.getD .none :: alternate (cs.drop (k + 2)) := by
  have hk : k < cs.length := by omega
  have hk' : k + 1 < cs.length := by omega
  rw [List.drop_eq_getElem_cons hk, List.drop_eq_getElem_cons hk', alternate,
    List.getElem?_eq_getElem hk, Option.getD_some]

theorem alternate_last {cs : List ResultCode} {k : Nat} (h : cs.length ≤ k + 1) :
    alternate (cs.drop k) = [cs[k]?.getD .none] := by
  rcases Nat.lt_or_ge k cs.length with hk | hk
  · rw [List.drop_eq_getElem_cons hk, List.drop_of_length_le h, alternate,
      List.getElem?_eq_getElem hk, Option.getD_some]
  · rw [List.drop_of_length_le hk, alternate, List.getElem?_eq_none hk, Option.getD_none]

namespace Burst
variable (b : Burst)

theorem length_results : b.results.length = b.messages.length := List.length_map _

theorem length_pos : 0 < b.length := by
  obtain ⟨f, hf⟩ := List.exists_mem_of_ne_nil _ b.nonempty
  rw [← b.alike f hf]
  exact List.length_pos_of_ne_nil f.message.bytes_ne_nil

theorem held_split {k : Nat} (h : k < b.messages.length) (m : Nat) :
    ∃ f : FinalCode, b.results[k]? = some f.code ∧ f.message.bytes.length = b.length ∧
      b.held k m = f.message.bytes ++ b.held (k + 1) m := by
  refine ⟨b.messages[k], ?_, b.alike _ (List.getElem_mem h), ?_⟩
  · rw [results, List.getElem?_map, List.getElem?_eq_getElem h]
    rfl
  · rw [held, List.drop_eq_getElem_cons h, held, ← List.append_assoc]
    rfl

theorem held_behind {k : Nat} (h : b.messages.length ≤ k) (m : Nat) :
    b.held k m = b.area.take (m * b.length) := by
  rw [held, List.drop_of_length_le h]
  rfl

theorem held_drop {k : Nat} (h : k < b.messages.length) (m : Nat) :
    (b.held k m).drop b.length = b.held (k + 1) m := by
  obtain ⟨f, _, hlen, hsplit⟩ := b.held_split h m
  rw [hsplit, ← hlen, List.drop_left]

theorem skipBlanks_held (k m : Nat) : skipBlanks (b.held k m) = b.held k m := by
  rcases Nat.lt_or_ge k b.messages.length with h | h
  · obtain ⟨f, _, _, hsplit⟩ := b.held_split h m
    obtain ⟨z, hz, _⟩ := f.message.bytes_split
    rw [hsplit, hz]
    exact skipOver_cons_of_neg blank_cr _
  · rw [b.held_behind h]
    exact (b.inert.take _).skipped

theorem search_held {k : Nat} (h : k < b.messages.length) (m : Nat) :
    search matchCondition 0 (b.held k m) = .found b.length := by
  obtain ⟨f, _, hlen, hsplit⟩ := b.held_split h m
  have hmatch : matchCondition (b.held k m) = (b.held (k + 1) m, true) := by
    rw [hsplit, f.message.matchCondition_eq, b.skipBlanks_held]
  rw [search_accepted (by rw [hmatch]), hmatch, hsplit, List.length_append, Nat.add_sub_cancel,
    hlen]

theorem populate_held (k m : Nat) (area : List UInt8) (msg : Response) :
    (populateResponseFromBuffer ⟨b.held k m, area⟩ msg).rc = b.results[k]?.getD .none := by
  rcases Nat.lt_or_ge k b.messages.length with h | h
  · obtain ⟨f, hcode, _, hsplit⟩ := b.held_split h m
    rw [hsplit, populate_message, hcode]
    rfl
  · have hunopened := (b.inert.take (m * b.length)).unopened
    rw [b.held_behind h, List.getElem?_eq_none (by rwa [b.length_results]),
      populateResponseFromBuffer]
    simp only [parse_unopened hunopened]
    rfl

theorem left_commit (m : Nat) : (b.left m).commit b.length =
    ⟨b.held (2 * m) (m + 1), b.area.drop ((m + 1) * b.length)⟩ := by
  simp only [left, held, Streambuf.commit, List.append_assoc, ← List.take_add, List.drop_drop,
    Nat.succ_mul]

theorem leftover_eq_nil_iff : b.leftover = [] ↔ b.chokes = false := by
  have hcalls : (b.messages.length / 2 + 1) * b.length ≤ (2 - b.messages.length % 2) * b.length ↔
      b.messages.length / 2 + 1 ≤ 2 - b.messages.length % 2 :=
    Nat.mul_le_mul_right_iff b.length_pos
  rw [leftover, List.drop_eq_nil_iff, List.length_take, chokes]
  simp only [Bool.and_eq_false_iff, decide_eq_false_iff_not]
  omega

end Burst

/-! ## The calls for one burst -/

/-- A message of the burst has been found at the front of what was in the buffer before the last
consume. -/
structure Swallowing (s : Session Unit) (turns : List (Turn UInt8)) (b : Burst) (m : Nat)
    (seen : List ResultCode) : Prop where
  turns : s.turns = turns
  buf : s.buf = b.left m
  pending : ∃ held, s.pending = some (.reading held (.found b.length), ())
  handled : handled s = seen

/-- The state behind a handler call: the handler has started a search at the second message of the
buffer, and that has been consumed since. -/
structure Rearmed (s : Session Unit) (turns : List (Turn UInt8)) (b : Burst) (m : Nat)
    (seen : List ResultCode) : Prop where
  turns : s.turns = turns
  buf : s.buf = ⟨((b.held (2 * m) (m + 1)).drop b.length).drop b.length,
    b.area.drop ((m + 1) * b.length)⟩
  pending : ∃ held, s.pending = some
    (.reading held (search matchCondition 0 ((b.held (2 * m) (m + 1)).drop b.length)), ())
  handled : handled s = seen ++ [b.results[2 * m]?.getD .none]

/-- Bytes with which no message begins stand in front of everything to come. -/
structure Deaf (s : Session Unit) (seen : List ResultCode) : Prop where
  data : s.buf.data ≠ [] ∧ Inert s.buf.data
  pending : ∃ held, s.pending = some (.reading held (.searching 0), ())
  handled : handled s = seen

theorem rearmed_burst {held : List UInt8} {as : List (Arrival UInt8)} {s : Session Unit}
    {b : Burst} {m : Nat} {turns : List (Turn UInt8)} {op : Search}
    (hop : asyncReadCompletes held op ⟨s.turns, s.buf, s.response⟩ =
      deliver held ⟨false, b.length, b.left m, turns, as⟩ s.response)
    {seen : List ResultCode} (hseen : handled s = seen) :
    Rearmed (complete rearm (.reading held op) () { s with pending := none }) turns b m seen := by
  obtain ⟨stream', puts, buf, response, usbCfg, pending, stopped, thrown, log⟩ := s
  simp only at hop
  refine ⟨?_, ?_, ⟨(b.held (2 * m) (m + 1)).drop b.length, ?_⟩, ?_⟩
  · simp only [complete, hop]
    rfl
  · simp only [complete, hop, deliver, b.left_commit, rearm, Session.consume, Session.asyncRead,
      Streambuf.consume, Bool.false_eq_true, if_false]
  · simp only [complete, hop, deliver, b.left_commit, rearm, Session.consume, Session.asyncRead,
      Streambuf.consume, Bool.false_eq_true, if_false, Ringbeller.asyncRead]
  · have hcode := b.populate_held (2 * m) (m + 1) (b.area.drop ((m + 1) * b.length)) response
    rw [← hseen, handled, reads_complete_reading reads_rearm, List.filter_append, List.map_append,
      hop]
    simp only [deliver, b.left_commit, Bool.false_eq_true, if_false]
    rw [List.filter_cons_of_pos rfl, List.map_cons, hcode]
    rfl

/-- The handler call for a message that has been found before the last consume. -/
theorem Swallowing.rearmed {s : Session Unit} {turns : List (Turn UInt8)} {b : Burst} {m : Nat}
    {seen : List ResultCode} (h : Swallowing s turns b m seen) (held : List UInt8) :
    Rearmed (complete rearm (.reading held (.found b.length)) () { s with pending := none }) turns
      b m seen := by
  have hop : asyncReadCompletes held (.found b.length) ⟨s.turns, s.buf, s.response⟩ =
      deliver held ⟨false, b.length, b.left m, turns, []⟩ s.response := by
    rw [asyncReadCompletes, h.turns, h.buf, finish]
  exact rearmed_burst hop h.handled

theorem Burst.left_zero (b : Burst) : b.left 0 = ⟨stream (codes b.messages), b.area⟩ := by
  simp [left, held]

/-- The handler call for a burst that has been waited for. -/
theorem waiting_rearmed {s : Session Unit} {b : Burst} {rest : List (Turn UInt8)}
    {seen : List ResultCode} (h : Waiting s (.received b.arrival :: rest) seen)
    (held : List UInt8) :
    Rearmed (complete rearm (.reading held (.searching 0)) () { s with pending := none }) rest b 0
      seen := by
  refine @rearmed_burst held [b.arrival] s b 0 rest (.searching 0) ?_ seen h.handled
  obtain ⟨turns, puts, ⟨data, area⟩, response, usbCfg, pending, stopped, thrown, log⟩ := s
  obtain ⟨hturns, hdata, _, _⟩ := h
  simp only at hturns hdata
  subst hturns hdata
  have hreceive : (⟨[], area⟩ : Streambuf UInt8).receive b.arrival = b.left 0 := by
    rw [Streambuf.receive_eq, b.left_zero]
    rfl
  have hfound : search matchCondition 0 (b.left 0).data = .found b.length :=
    b.search_held (List.length_pos_of_ne_nil b.nonempty) 0
  have hfinish : finish matchCondition (.searching 0) ⟨[], area⟩ (.received b.arrival :: rest) =
      ⟨false, b.length, b.left 0, rest, [b.arrival]⟩ := by
    rw [finish, hreceive, hfound, finish]
    rfl
  exact congrArg (deliver held · response) hfinish

/-- While two messages are there, one is delivered and the other one found and lost. -/
theorem Rearmed.on {s : Session Unit} {turns : List (Turn UInt8)} {b : Burst} {m : Nat}
    {seen : List ResultCode} (h : Rearmed s turns b m seen)
    (hm : 2 * (m + 1) ≤ b.messages.length) :
    Swallowing s turns b (m + 1) (seen ++ [b.results[2 * m]?.getD .none]) := by
  obtain ⟨hturns, hbuf, ⟨held, hpending⟩, hhandled⟩ := h
  have hfirst := b.held_drop (k := 2 * m) (by omega) (m + 1)
  have hsecond := b.held_drop (k := 2 * m + 1) (by omega) (m + 1)
  have hfound := b.search_held (k := 2 * m + 1) (by omega) (m + 1)
  rw [hfirst, hsecond] at hbuf
  rw [hfirst, hfound] at hpending
  exact ⟨hturns, hbuf, ⟨held, hpending⟩, hhandled⟩

/-- Behind the last message the search finds nothing, and the consumes take of the area what they
do not find of messages. -/
theorem Burst.held_last (b : Burst) {m : Nat} (hm : 2 * m ≤ b.messages.length)
    (hlast : b.messages.length < 2 * (m + 1)) :
    Inert ((b.held (2 * m) (m + 1)).drop b.length) ∧
      ((b.held (2 * m) (m + 1)).drop b.length).drop b.length = b.leftover := by
  have hcalls : b.messages.length / 2 = m := by omega
  rcases Nat.lt_or_ge (2 * m) b.messages.length with h | h
  · have hone : 2 - b.messages.length % 2 = 1 := by omega
    rw [b.held_drop h, b.held_behind (by omega), Burst.leftover, hcalls, hone, Nat.one_mul]
    exact ⟨b.inert.take _, rfl⟩
  · have htwo : 2 - b.messages.length % 2 = 2 := by omega
    rw [b.held_behind h, Burst.leftover, hcalls, htwo, List.drop_drop, Nat.two_mul]
    exact ⟨(b.inert.take _).drop _, rfl⟩

/-- The last call for a burst. -/
theorem Rearmed.off {s : Session Unit} {turns : List (Turn UInt8)} {b : Burst} {m : Nat}
    {seen : List ResultCode} (h : Rearmed s turns b m seen) (hm : 2 * m ≤ b.messages.length)
    (hlast : b.messages.length < 2 * (m + 1)) :
    if b.chokes then Deaf s (seen ++ [b.results[2 * m]?.getD .none])
    else Waiting s turns (seen ++ [b.results[2 * m]?.getD .none]) := by
  obtain ⟨hturns, hbuf, ⟨held, hpending⟩, hhandled⟩ := h
  obtain ⟨hinert, hleftover⟩ := b.held_last hm hlast
  have hdata : s.buf.data = b.leftover := by rw [hbuf, ← hleftover]
  rw [hinert.searched] at hpending
  cases hchokes : b.chokes with
  | false =>
    rw [b.leftover_eq_nil_iff.mpr hchokes] at hdata
    exact ⟨hturns, hdata, ⟨held, hpending⟩, hhandled⟩
  | true =>
    refine ⟨⟨fun hnone => ?_, ?_⟩, ⟨held, hpending⟩, hhandled⟩
    · rw [b.leftover_eq_nil_iff.mp (hdata.symm.trans hnone)] at hchokes
      cases hchokes
    · rw [hdata, ← hleftover]
      exact hinert.drop b.length

/-- No read succeeds any more. -/
theorem deaf_closed {s : Session Unit} {seen : List ResultCode} (h : Deaf s seen)
    (held : List UInt8) :
    let s' := complete rearm (.reading held (.searching 0)) () { s with pending := none }
    s'.pending = none ∧ handled s' = seen := by
  obtain ⟨⟨hnonempty, hinert⟩, _, hhandled⟩ := h
  have hop : finish matchCondition (.searching 0) s.buf s.turns =
      readUntil matchCondition s.buf s.turns := by rw [readUntil, hinert.searched]
  have hec : (readUntil matchCondition s.buf s.turns).ec = true := by
    rw [(readUntil_taken matchCondition_resumable s.buf s.turns).1]
    cases hdata : s.buf.data with
    | nil => exact absurd hdata hnonempty
    | cons c v =>
      rw [hdata] at hinert
      obtain ⟨hblank, hc⟩ := hinert c List.mem_cons_self
      rw [List.cons_append, matchCondition_foreign hblank hc]
      rfl
  have hfailed : (asyncReadCompletes held (.searching 0) ⟨s.turns, s.buf, s.response⟩).1.ec =
      true := (congrArg Outcome.ec hop).trans hec
  refine ⟨?_, ?_⟩
  · simp only [complete, hfailed, rearm, if_true]
    rfl
  · rw [← hhandled, handled, reads_complete_reading reads_rearm, List.filter_append,
      List.filter_cons_of_neg (by simp only [hfailed, Bool.not_true]; decide), List.filter_nil,
      List.append_nil]
    rfl

/-! ## The loop -/

/-- What the handler is called with after `m` calls for the burst. -/
def heardAfter (m : Nat) (b : Burst) (bs : List Burst) : List ResultCode :=
  alternate (b.results.drop (2 * m)) ++ if b.chokes then [] else heard bs

theorem dispatch_done {s : Session Unit} (h : s.pending = none) (k : Nat) :
    handled (dispatch rearm k s).2 = handled s := by
  cases k with
  | zero => rfl
  | succ k => simp only [dispatch, h]

theorem deaf_run {s : Session Unit} {seen : List ResultCode} (h : Deaf s seen) (k : Nat) :
    handled (dispatch rearm k s).2 = seen := by
  cases k with
  | zero => exact h.handled
  | succ k =>
    obtain ⟨held, hpending⟩ := h.pending
    obtain ⟨hnone, hcodes⟩ := deaf_closed h held
    simp only [dispatch, hpending]
    rw [dispatch_done hnone, hcodes]

theorem bursts_run (k : Nat) (bs : List Burst) (s : Session Unit) (seen : List ResultCode) :
    (Waiting s (coming bs) seen →
      handled (dispatch rearm k s).2 = seen ++ (heard bs).take k) ∧
    ∀ b m, 2 * m ≤ b.messages.length → Swallowing s (coming bs) b m seen →
      handled (dispatch rearm k s).2 = seen ++ (heardAfter m b bs).take k := by
  induction k generalizing bs s seen with
  | zero =>
    refine ⟨fun h => ?_, fun b m _ h => ?_⟩
    · simpa [dispatch] using h.handled
    · simpa [dispatch] using h.handled
  | succ k ih =>
    have hnext {t : Session Unit} {b : Burst} {m : Nat} {bs : List Burst}
        (hm : 2 * m ≤ b.messages.length) (h : Rearmed t (coming bs) b m seen) :
        handled (dispatch rearm k t).2 = seen ++ (heardAfter m b bs).take (k + 1) := by
      rcases Nat.lt_or_ge b.messages.length (2 * (m + 1)) with hlast | hmore
      · have hoff := h.off hm hlast
        have hcodes : alternate (b.results.drop (2 * m)) = [b.results[2 * m]?.getD .none] :=
          alternate_last (by rw [b.length_results]; omega)
        rw [heardAfter, hcodes]
        cases hchokes : b.chokes with
        | false =>
          rw [hchokes] at hoff
          rw [(ih bs t _).1 hoff]
          simp
        | true =>
          rw [hchokes] at hoff
          rw [deaf_run hoff k]
          simp
      · have hcodes : alternate (b.results.drop (2 * m)) =
            b.results[2 * m]?.getD .none :: alternate (b.results.drop (2 * (m + 1))) :=
          alternate_step (by rw [b.length_results]; omega)
        rw [heardAfter, hcodes, (ih bs t _).2 b (m + 1) hmore (h.on hmore), heardAfter]
        simp
    refine ⟨fun h => ?_, fun b m hm h => ?_⟩
    · obtain ⟨held, hpending⟩ := h.pending
      cases bs with
      | nil =>
        obtain ⟨hnone, hcodes⟩ := waiting_closed h held
        simp only [dispatch, hpending]
        rw [dispatch_done hnone, hcodes]
        simp [heard]
      | cons b bs =>
        simp only [dispatch, hpending]
        exact hnext (Nat.zero_le _) (waiting_rearmed h held)
    · obtain ⟨held, hpending⟩ := h.pending
      simp only [dispatch, hpending]
      exact hnext hm (h.rearmed held)

/-- Where result-code messages of one length come together in a chunk, and no blank and no CR is in
the area behind them, the handler of the loop is called for every second one of them, and where
their number is even once more with no code. This holds burst after burst, after any number of
calls, until a burst of three messages or more leaves a piece of its area in the buffer: from then
on the handler is not called for any message. -/
theorem readLoop_bursts (bs : List Burst) (k : Nat) :
    handled (readLoop (coming bs) k) = (heard bs).take k := by
  have hwaiting : Waiting (readLoop (coming bs) 0) (coming bs) [] := ⟨rfl, rfl, ⟨[], rfl⟩, rfl⟩
  exact (bursts_run k bs _ []).1 hwaiting

/-- Three OK in a chunk and two RING in the next one: the OK fill the area or do not. -/
example : ∀ n ∈ [0, 494],
    let ok : FinalCode := ⟨.ok, [], by decide, by decide, by decide⟩
    let ring : FinalCode := ⟨.ring, [], by decide, by decide, by decide⟩
    let three : Burst := ⟨[ok, ok, ok], 6, List.replicate n 0, by decide, by decide, inert_zeros n⟩
    let two : Burst :=
      ⟨[ring, ring], 8, List.replicate 496 0, by decide, by decide, inert_zeros 496⟩
    heard [three, two] = if n = 0 then [.ok, .ok, .ring, .none] else [.ok, .ok] := by
  decide +kernel

end Ringbeller
