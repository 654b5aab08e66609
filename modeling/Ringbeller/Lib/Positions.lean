import Ringbeller.Asio.Searches
import Ringbeller.Lib.Read

/-!
# Where match_condition ends

The returned iterator as a position in the range: what it becomes when more bytes arrive,
behind a rejection and behind an acceptance.
-/

namespace Ringbeller
set_option autoImplicit false

open Asio X3

/-- The returned iterator, counted from the start of the range. -/
def endPosition (b : List UInt8) : Nat := b.length - (matchCondition b).1.length

theorem endPosition_drop (b : List UInt8) : b.drop (endPosition b) = (matchCondition b).1 :=
  (List.suffix_iff_eq_drop.mp (matchCondition_suffix b)).symm

theorem endPosition_add (b : List UInt8) :
    endPosition b + (matchCondition b).1.length = b.length :=
  Nat.sub_add_cancel (matchCondition_suffix b).length_le

/-! ## Behind a rejection -/

/-- A search from the returned position on accepts when one of the whole range does, and ends at
the same place; so each search of a read, and what it reports, is that of a search from the
start of the buffer. -/
theorem search_resumes :
    (∀ b w, (matchCondition b).2 = false →
      (matchCondition (b.drop (endPosition b) ++ w)).2 = (matchCondition (b ++ w)).2 ∧
        endPosition b + endPosition (b.drop (endPosition b) ++ w) = endPosition (b ++ w)) ∧
    ∀ buf turns,
      (∀ x ∈ searches matchCondition (asyncRead buf) buf turns,
        x.1 = search matchCondition 0 x.2) ∧
      (search matchCondition 0 (readUntil matchCondition buf turns).buf.data).Reported
        (readUntil matchCondition buf turns) := by
  constructor
  · intro b w h
    have hresume : matchCondition (b.drop (endPosition b) ++ w) = matchCondition (b ++ w) := by
      rw [endPosition_drop]
      exact matchCondition_resume h w
    refine ⟨congrArg Prod.snd hresume, ?_⟩
    have hb := endPosition_add b
    have hwhole := endPosition_add (b ++ w)
    have hrest := endPosition_add (b.drop (endPosition b) ++ w)
    rw [hresume, List.length_append, List.length_drop] at hrest
    rw [List.length_append] at hwhole
    omega
  · intro buf turns
    have hstart : ∀ x ∈ searches matchCondition (asyncRead buf) buf turns,
        x.1 = search matchCondition 0 x.2 := searches_from_start matchCondition_resumable rfl
    obtain ⟨last, hlast, hreported⟩ :=
      @searches_last _ matchCondition (asyncRead buf) buf turns
    have hmem := hstart _ (List.mem_of_getLast? hlast)
    refine ⟨hstart, ?_⟩
    rw [show last = _ from hmem] at hreported
    exact hreported

/-- The blank in front of a code that is cut is not searched again. -/
theorem search_resumes_cut :
    let early := ascii " \r\nO"
    let late := ascii "K\r\n"
    endPosition early = 1 ∧ (matchCondition (early.drop 1 ++ late)).2 = true ∧
      1 + endPosition (early.drop 1 ++ late) = endPosition (early ++ late) := by
  intro early late
  have hearly : endPosition early = 1 := by decide
  have h := search_resumes.1 early late (by decide)
  rw [hearly] at h
  exact ⟨hearly, h.1.trans (by decide), h.2⟩

/-! ## Behind an acceptance -/

/-- A run of lines that cannot go on leaves no more than any run of lines does. -/
theorem render_rest {ls ls' : List ContentLine} {x w : List UInt8}
    (h : render ls ++ x = render ls' ++ w) (hw : ¬ StartsLine w) : w <:+ x := by
  induction ls generalizing ls' with
  | nil => exact ⟨render ls', h.symm⟩
  | cons l ls ih =>
    cases ls' with
    | nil => exact absurd ⟨l, render ls ++ x, by simpa [render] using h.symm⟩ hw
    | cons l' ls' =>
      simp only [render, List.flatMap_cons, List.append_assoc] at h
      exact ih (ContentLine.bytes_inj h).2

/-- An accepted range that begins with complete lines is read beyond them. -/
theorem readsTo_behind {s x rest : List UInt8} {l : ContentLine} {ls : List ContentLine}
    (hs : AllBlank s) (hl : l.IsResultCode → ls = [])
    (h : ReadsTo (s ++ [cr, lf] ++ render (l :: ls) ++ x) rest) :
    rest.length ≤ (skipBlanks x).length := by
  have hopen : skipBlanks (s ++ [cr, lf] ++ render (l :: ls) ++ x) =
      cr :: lf :: (render (l :: ls) ++ x) := by
    simpa using skipBlanks_crlf hs (lf :: (render (l :: ls) ++ x))
  generalize s ++ [cr, lf] ++ render (l :: ls) ++ x = b at h hopen
  cases h with
  | @code s' w l' hs' hl' =>
    have hopen' : skipBlanks (s' ++ [cr, lf] ++ l'.bytes ++ w) = cr :: lf :: (l'.bytes ++ w) := by
      simpa using skipBlanks_crlf hs' (lf :: (l'.bytes ++ w))
    have hlines : l.bytes ++ (render ls ++ x) = l'.bytes ++ w := by
      simpa [render] using opened_unique hopen hopen'
    obtain ⟨rfl, rfl⟩ := ContentLine.bytes_inj hlines
    rw [hl hl']
    exact Nat.le_refl _
  | @report s' t w l' l'' ls' hs' _ ht _ =>
    have hcode : NoOpenLine (t ++ [cr, lf] ++ l''.bytes ++ w) :=
      Or.inr ⟨lf :: (l''.bytes ++ w), by simpa using skipBlanks_crlf ht (lf :: (l''.bytes ++ w))⟩
    have hw : w <:+ t ++ [cr, lf] ++ l''.bytes ++ w := List.suffix_append _ w
    generalize t ++ [cr, lf] ++ l''.bytes ++ w = v at hopen hcode hw
    have hopen' := skipBlanks_crlf hs' (lf :: (render (l' :: ls') ++ v))
    have hlines := opened_unique hopen (by simpa using hopen')
    have hrest := render_rest hlines (not_startsLine_of_cr hcode)
    exact skipOver_length_mono (hw.trans hrest)
  | @lines s' w l' ls' hs' _ hw _ =>
    have hopen' := skipBlanks_crlf hs' (lf :: (render (l' :: ls') ++ w))
    have hlines := opened_unique hopen (by simpa using hopen')
    exact skipOver_length_mono (render_rest hlines hw)
  | @prompt s' t w hs' _ hline =>
    have hopen' := skipBlanks_crlf hs' (lf :: (t ++ ascii "> " ++ w))
    have hlines := opened_unique hopen (by simpa using hopen')
    exact absurd ⟨l, render ls ++ x, by simpa [render] using hlines.symm⟩ hline

theorem readsTo_unique {b rest rest' : List UInt8} (h : ReadsTo b rest) (h' : ReadsTo b rest') :
    rest = rest' := by
  have heq := (matchCondition_of_readsTo h).symm.trans (matchCondition_of_readsTo h')
  exact congrArg Prod.fst heq

/-- More bytes leave at most themselves beyond what was left without them. -/
theorem readsTo_append {b rest w rest' : List UInt8} (h : ReadsTo b rest)
    (h' : ReadsTo (b ++ w) rest') : rest'.length ≤ rest.length + w.length := by
  have hskip (v : List UInt8) : (skipBlanks (v ++ w)).length ≤ (skipBlanks v).length + w.length :=
    skipOver_append_le v w
  cases h with
  | @code s v l hs hl =>
    have hsame := ReadsTo.code (w := v ++ w) hs hl
    rw [← List.append_assoc] at hsame
    rw [readsTo_unique h' hsame]
    exact hskip v
  | @report s t v l l' ls hs hl ht hl' =>
    have hsame := @ReadsTo.report s t (v ++ w) l l' ls hs hl ht hl'
    simp only [← List.append_assoc] at hsame h'
    rw [readsTo_unique h' hsame]
    exact hskip v
  | @lines s v l ls hs hl _ _ =>
    rw [List.append_assoc] at h'
    exact (readsTo_behind hs (fun hcode => absurd hcode hl) h').trans (hskip v)
  | @prompt s t v hs ht hline =>
    by_cases hnow : StartsLine (t ++ ascii "> " ++ (v ++ w))
    · -- the bytes complete a line that begins like a prompt
      obtain ⟨l, x, hx⟩ := hnow
      have hcut : ¬ l.bytes.length ≤ (t ++ ascii "> " ++ v).length := by
        rw [← startsLine_cut (z := x) ⟨w, by rw [← hx, List.append_assoc]⟩]
        exact hline
      have hlen := congrArg List.length hx
      have hread : ReadsTo (s ++ [cr, lf] ++ render [l] ++ x) rest' := by
        have heq : s ++ [cr, lf] ++ render [l] ++ x =
            s ++ [cr, lf] ++ (t ++ ascii "> " ++ v) ++ w := by
          simp [render, ← hx]
        rwa [heq]
      have hbehind := readsTo_behind hs (fun _ => rfl) hread
      have hle : (skipBlanks x).length ≤ x.length := (skipOver_suffix x).length_le
      simp only [List.length_append] at hcut hlen
      omega
    · have hsame := ReadsTo.prompt hs ht hnow
      simp only [← List.append_assoc] at hsame h'
      rw [readsTo_unique h' hsame]
      exact hskip v

/-- Bytes that arrive later leave an accepted range accepted, and do not shorten the message. -/
theorem acceptance_monotone {b : List UInt8} (h : (matchCondition b).2 = true) (w : List UInt8) :
    (matchCondition (b ++ w)).2 = true ∧ endPosition b ≤ endPosition (b ++ w) := by
  have happend := accepts_append h w
  have hread : ReadsTo b (matchCondition b).1 := matchCondition_eq_true_iff.mp (by rw [← h])
  have hread' : ReadsTo (b ++ w) (matchCondition (b ++ w)).1 :=
    matchCondition_eq_true_iff.mp (by rw [← happend])
  have hrest := readsTo_append hread hread'
  have hb := endPosition_add b
  have hw := endPosition_add (b ++ w)
  rw [List.length_append] at hw
  exact ⟨happend, by omega⟩

/-- A prompt becomes a line, and the line the first one of a report. -/
theorem acceptance_monotone_prompt :
    let prompt := ascii "\r\n> "
    let report := prompt ++ ascii "Hi\r\n\r\nOK\r\n"
    (matchCondition prompt).2 = true ∧ (matchCondition report).2 = true ∧
      endPosition prompt ≤ endPosition report := by
  intro prompt report
  have hprompt : (matchCondition prompt).2 = true := by decide
  exact ⟨hprompt, acceptance_monotone hprompt (ascii "Hi\r\n\r\nOK\r\n")⟩

end Ringbeller
