import Ringbeller.Lib.Read

/-!
# Reading a message that arrives in chunks

A message is read whole unless a chunk ends inside it at or behind its first stop.
-/

namespace Ringbeller
set_option autoImplicit false

open Asio X3

/-- The read has stopped at the end of the message and delivers its code, text and lines. -/
structure ReadsWhole (m : CompleteMessage) (r : ReadRecord) : Prop where
  ec : r.ec = false
  count : r.count = m.bytes.length
  after : r.after = m.response

/-- No chunk but the last ends where the message is accepted already. -/
def CutBeforeStop (m : CompleteMessage) (as : List (Arrival UInt8)) : Prop :=
  ∀ as', as' <+: as → as' ≠ as → (bytes as').length < m.firstStop

/-- An empty buffer and a new response in front of the arrivals. -/
def startOn (as : List (Arrival UInt8)) (turns : List (Turn UInt8)) (area : List UInt8) :
    ReadState :=
  ⟨as.map .received ++ turns, ⟨[], area⟩, Response.new⟩

theorem bytes_append {β : Type} (as as' : List (Arrival β)) :
    bytes (as ++ as') = bytes as ++ bytes as' := List.flatMap_append

theorem bytes_prefix {β : Type} {as as' : List (Arrival β)} (h : as' <+: as) :
    bytes as' <+: bytes as := by
  obtain ⟨tail, rfl⟩ := h
  exact ⟨bytes tail, (bytes_append as' tail).symm⟩

theorem bytes_length_lt {β : Type} {as tail : List (Arrival β)} (h : tail ≠ []) :
    (bytes as).length < (bytes (as ++ tail)).length := by
  obtain ⟨a, tail, rfl⟩ := List.exists_cons_of_ne_nil h
  have ha := List.length_pos_iff.mpr a.nonempty
  simp only [bytes, List.flatMap_append, List.flatMap_cons, List.length_append]
  omega

theorem cutBeforeStop_concat {m : CompleteMessage} (as : List (Arrival UInt8))
    (last : Arrival UInt8) (h : (bytes as).length < m.firstStop) :
    CutBeforeStop m (as ++ [last]) := by
  intro as' hprefix hne
  have hbegins : bytes as' <+: bytes as :=
    bytes_prefix ((List.prefix_concat_iff.mp hprefix).resolve_left hne)
  exact Nat.lt_of_le_of_lt hbegins.length_le h

theorem undecided_iff {m : CompleteMessage} {as : List (Arrival UInt8)} (h : bytes as = m.bytes) :
    Undecided matchCondition [] as ↔ CutBeforeStop m as := by
  refine forall_congr' (fun as' => forall_congr' (fun hp => forall_congr' (fun _ => ?_)))
  have hcut := m.accepts_cut (h ▸ bytes_prefix hp)
  rw [List.nil_append, ← Nat.not_le, ← hcut, Bool.not_eq_true]

theorem populate_message (m : CompleteMessage) (w area : List UInt8) (msg : Response) :
    populateResponseFromBuffer ⟨m.bytes ++ w, area⟩ msg = m.addTo msg := by
  simp only [populateResponseFromBuffer, parse_message]
  rfl

theorem deliver_message {m : CompleteMessage} {held w : List UInt8} {n : Nat}
    {buf : Streambuf UInt8} (hdata : buf.data = m.bytes ++ w) (turns : List (Turn UInt8))
    (as : List (Arrival UInt8)) (msg : Response) :
    (deliver held ⟨false, n, buf, turns, as⟩ msg).1.after = m.addTo msg := by
  have hcommit : buf.commit n = ⟨m.bytes ++ (w ++ buf.area.take n), buf.area.drop n⟩ := by
    rw [Streambuf.commit, hdata, List.append_assoc]
  simp only [deliver, hcommit, populate_message]
  rfl

theorem readUntil_own_chunks {m : CompleteMessage} {as : List (Arrival UInt8)}
    (h : bytes as = m.bytes) (hcut : CutBeforeStop m as) (area : List UInt8)
    (turns : List (Turn UInt8)) :
    ∃ last, as.getLast? = some last ∧
      readUntil matchCondition ⟨[], area⟩ (as.map .received ++ turns) =
        ⟨false, m.bytes.length, ⟨m.bytes, last.spare⟩, turns, as⟩ := by
  have hwhole : matchCondition ([] ++ bytes as) = ([], true) := by
    simpa [h] using m.matchCondition_eq []
  have hund : Undecided matchCondition [] as := (undecided_iff h).mpr hcut
  have hnext : NextMessage [] (as.map .received ++ turns) as [] turns := ⟨rfl, hund, hwhole⟩
  have hstop := @NextMessage.readUntil ⟨[], area⟩ _ _ _ _ hnext
  rw [List.nil_append, h, List.length_nil, Nat.sub_zero] at hstop
  obtain ⟨last, hlast⟩ : ∃ a, as.getLast? = some a := by
    cases has : as.getLast? with
    | some a => exact ⟨a, rfl⟩
    | none =>
      rw [List.getLast?_eq_none_iff.mp has] at h
      exact absurd h.symm m.bytes_ne_nil
  have hdata := Streambuf.receiveAll_data ⟨[], area⟩ as
  have harea := Streambuf.receiveAll_area ⟨[], area⟩ hlast
  rw [List.nil_append, h] at hdata
  refine ⟨last, hlast, ?_⟩
  rw [hstop]
  generalize Streambuf.receiveAll ⟨[], area⟩ as = buf at hdata harea
  obtain ⟨data, area'⟩ := buf
  simp only at hdata harea
  rw [hdata, harea]

theorem readsWhole_iff {m : CompleteMessage} {as : List (Arrival UInt8)} (h : bytes as = m.bytes)
    (turns : List (Turn UInt8)) (area : List UInt8) :
    ReadsWhole m (firstAsyncRead (startOn as turns area)).1 ↔ CutBeforeStop m as := by
  have hwhole : matchCondition ([] ++ bytes as) = ([], true) := by
    simpa [h] using m.matchCondition_eq []
  rw [← undecided_iff h, firstAsyncRead_eq]
  constructor
  · rintro ⟨_, hcount, _⟩
    have haccepted : (matchCondition ([] ++ bytes as)).2 = true := by rw [hwhole]
    obtain ⟨as', tail, rfl, hnext⟩ := nextMessage_in haccepted turns
    cases tail with
    | nil => simpa using hnext.undecided
    | cons a tail =>
      have hlt : (bytes as').length < (bytes (as' ++ a :: tail)).length :=
        bytes_length_lt (List.cons_ne_nil a tail)
      have hstop := @NextMessage.readUntil ⟨[], area⟩ _ _ _ _ hnext
      simp only [startOn, deliver, hstop, List.nil_append] at hcount
      rw [h] at hlt
      omega
  · intro hund
    obtain ⟨last, _, hstop⟩ := readUntil_own_chunks h ((undecided_iff h).mp hund) area turns
    simp only [startOn, hstop]
    exact ⟨rfl, rfl, deliver_message (w := []) (by simp) turns as _⟩

/-- Two cuttings of one message, each read by `read` and by `async_read` on an empty buffer:
all four stop at its end and deliver the same, exactly when neither cutting has a chunk that
ends inside the message where it is accepted already. -/
theorem read_chunking_iff (m : CompleteMessage) (as as' : List (Arrival UInt8))
    (h : bytes as = m.bytes) (h' : bytes as' = m.bytes) (turns turns' : List (Turn UInt8))
    (area area' : List UInt8) :
    (∀ s ∈ [startOn as turns area, startOn as' turns' area'],
      ReadsWhole m (read s).1 ∧ ReadsWhole m (firstAsyncRead s).1) ↔
        CutBeforeStop m as ∧ CutBeforeStop m as' := by
  simp only [read_record, and_self, List.forall_mem_cons, readsWhole_iff h, readsWhole_iff h']
  simp

def quectel : CompleteMessage :=
  ⟨[⟨ascii "Quectel", by decide, 81, by decide, by decide⟩],
    ⟨.ok, [], by decide, by decide, by decide⟩, by rintro _ ⟨⟩; decide⟩

/-- Cut behind its information line, the message is taken for one without a code. -/
theorem read_chunking_cut :
    let first : Arrival UInt8 := ⟨ascii "\r\nQuectel\r\n", List.replicate 501 0, by decide⟩
    let second : Arrival UInt8 := ⟨ascii "\r\nOK\r\n", List.replicate 506 0, by decide⟩
    bytes [first, second] = quectel.bytes ∧
      ¬ ReadsWhole quectel (read (startOn [first, second] [] [])).1 := by
  refine ⟨by decide, fun h => absurd h.count ?_⟩
  decide

theorem read_chunking_quectel :
    let whole : Arrival UInt8 := ⟨quectel.bytes, List.replicate 495 0, by decide⟩
    let early : Arrival UInt8 := ⟨ascii "\r\nQuec", List.replicate 506 0, by decide⟩
    let late : Arrival UInt8 := ⟨ascii "tel\r\n\r\nOK\r\n", List.replicate 501 0, by decide⟩
    ∀ s ∈ [startOn [whole] [] [], startOn [early, late] [] []],
      ReadsWhole quectel (read s).1 ∧ ReadsWhole quectel (firstAsyncRead s).1 := by
  intro whole early late
  have hwhole : CutBeforeStop quectel [whole] :=
    cutBeforeStop_concat [] whole (by decide)
  have hcut : CutBeforeStop quectel [early, late] :=
    cutBeforeStop_concat [early] late (by decide)
  exact (read_chunking_iff quectel _ _ (by decide) (by decide) [] [] [] []).mpr ⟨hwhole, hcut⟩

/-! ## Result-code messages -/

def FinalCode.message (f : FinalCode) : CompleteMessage := ⟨[], f, by rintro l ⟨⟩⟩

theorem code_cutBeforeStop {f : FinalCode} {as : List (Arrival UInt8)}
    (h : bytes as = f.message.bytes) : CutBeforeStop f.message as := by
  intro as' hp hne
  obtain ⟨tail, rfl⟩ := hp
  rw [CompleteMessage.firstStop_code rfl, ← h]
  exact bytes_length_lt (fun ht => hne (by rw [ht, List.append_nil]))

theorem code_undecided (f : FinalCode) {p : List UInt8} (hp : p <+: f.message.bytes)
    (hne : p ≠ f.message.bytes) : (matchCondition p).2 = false := by
  have hlt : p.length < f.message.firstStop := by
    rw [CompleteMessage.firstStop_code rfl]
    exact Nat.lt_of_le_of_ne hp.length_le (fun h => hne (hp.eq_of_length h))
  rw [← Bool.not_eq_true, f.message.accepts_cut hp]
  omega

/-- However a code and what comes after it are cut, the code is read and no more than the
blanks behind it are counted with it. -/
theorem code_read (f : FinalCode) {w : List UInt8} {as : List (Arrival UInt8)}
    (h : bytes as = f.message.bytes ++ w) (turns : List (Turn UInt8)) (area : List UInt8) :
    let r := (firstAsyncRead (startOn as turns area)).1
    r.ec = false ∧ r.after = f.message.response ∧ ∃ w', w' <+: w ∧
      r.received = f.message.bytes ++ w' ∧ r.beyond = skipBlanks w' := by
  have hacc : (matchCondition ([] ++ bytes as)).2 = true := by
    rw [List.nil_append, h, f.message.matchCondition_eq]
  obtain ⟨as', tail, rfl, hnext⟩ := nextMessage_in hacc turns
  have hacc' : (matchCondition (bytes as')).2 = true := congrArg Prod.snd hnext.accepted
  have hp : bytes as' <+: f.message.bytes ++ w := h ▸ bytes_prefix (List.prefix_append as' tail)
  obtain ⟨w', hw'⟩ : f.message.bytes <+: bytes as' := by
    rcases List.prefix_or_prefix_of_prefix hp (List.prefix_append _ w) with hp' | hp'
    · by_cases heq : bytes as' = f.message.bytes
      · exact heq ▸ List.prefix_rfl
      · rw [code_undecided f hp' heq] at hacc'
        cases hacc'
    · exact hp'
  have hmc : matchCondition ([] ++ bytes as') = (skipBlanks w', true) := by
    rw [List.nil_append, ← hw', f.message.matchCondition_eq]
  rw [hmc] at hnext
  have hstop := @NextMessage.readUntil ⟨[], area⟩ _ _ _ _ hnext
  rw [firstAsyncRead_eq]
  simp only [startOn, hstop]
  refine ⟨rfl, ?_, w', ?_, hw'.symm, ?_⟩
  · exact deliver_message (w := w') (by rw [Streambuf.receiveAll_data, ← hw']; rfl) _ _ _
  · rwa [← hw', List.prefix_append_right_inj] at hp
  · obtain ⟨s, hs, hsplit⟩ := skipBlanks_split w'
    have hall : bytes as' = (f.message.bytes ++ s) ++ skipBlanks w' := by
      rw [← hw', List.append_assoc, ← hsplit]
    simp only [ReadRecord.beyond, ReadRecord.received, deliver, List.nil_append, hall,
      List.length_append, Nat.add_sub_cancel]
    rw [← List.length_append, List.drop_left]

/-- A result-code message is read back whatever follows it, no proper prefix of it is
accepted, and so any cutting of it and of what follows gives the same read. -/
theorem finalCode_roundTrip (f : FinalCode) (w : List UInt8) :
    parseResponse ([cr, lf] ++ f.bytes ++ [cr, lf] ++ w) Outputs.fresh =
        ((skipBlanks w, true), ⟨f.code, trimBlanks f.text, []⟩) ∧
      (∀ p, p <+: [cr, lf] ++ f.bytes ++ [cr, lf] → p ≠ [cr, lf] ++ f.bytes ++ [cr, lf] →
        (matchCondition p).2 = false) ∧
      ∀ as turns area, bytes as = [cr, lf] ++ f.bytes ++ [cr, lf] ++ w →
        ∀ r ∈ [(read (startOn as turns area)).1, (firstAsyncRead (startOn as turns area)).1],
          r.ec = false ∧ r.after = ⟨f.code, trimBlanks f.text, []⟩ ∧ ∃ w', w' <+: w ∧
            r.received = [cr, lf] ++ f.bytes ++ [cr, lf] ++ w' ∧ r.beyond = skipBlanks w' := by
  refine ⟨parse_message f.message w, fun p hp hne => code_undecided f hp hne, ?_⟩
  intro as turns area h r hr
  simp only [read_record, List.mem_cons, List.not_mem_nil, or_false, or_self] at hr
  subst hr
  exact code_read f h turns area

theorem finalCode_roundTrip_ring :
    let early : Arrival UInt8 := ⟨ascii "\r\nRING\r", [], by decide⟩
    let late : Arrival UInt8 := ⟨ascii "\n\r\nOK\r\n", [], by decide⟩
    parseResponse (ascii "\r\nRING\r\n\r\nOK\r\n") Outputs.fresh =
        ((ascii "\r\nOK\r\n", true), ⟨.ring, [], []⟩) ∧
      (matchCondition (ascii "\r\nRING\r")).2 = false ∧
      (read (startOn [early, late] [] [])).1.after = ⟨.ring, [], []⟩ := by
  have h := finalCode_roundTrip ⟨.ring, [], by decide, by decide, by decide⟩ (ascii "\r\nOK\r\n")
  exact ⟨h.1, h.2.1 _ (by decide) (by decide),
    (h.2.2 _ [] [] (by decide) _ (List.mem_cons_self)).2.1⟩

end Ringbeller
