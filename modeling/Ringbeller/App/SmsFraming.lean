import Ringbeller.App.Statuses
import Ringbeller.Framing.Cut

/-!
# The framing of a short message

How a modem takes apart what `run_send_sms` writes: a command line ends at the first CR LF, the
block behind an AT+CMGS line at the first Ctrl-Z, and the quoted argument of that line at the
first quotation mark.
-/

namespace Ringbeller
set_option autoImplicit false

open Asio Framing Session

inductive Frame where
  | command (line : List UInt8)
  | cmgs (argument behind : List UInt8)
  | text (block : List UInt8)
  | broken (bytes : List UInt8)
  deriving Repr, DecidableEq

/-- What follows AT+CMGS= is a quoted argument. -/
def cmgsFrame : List UInt8 → Frame
  | 34 :: x =>
    match cut [34] x with
    | some (argument, behind) => .cmgs argument behind
    | none => .broken (34 :: x)
  | x => .broken x

def frames : Nat → List UInt8 → List Frame
  | 0, _ => []
  | _ + 1, [] => []
  | n + 1, b :: x =>
    match cut [cr, lf] (b :: x) with
    | none => [.broken (b :: x)]
    | some (line, x) =>
      if ascii "AT+CMGS=" <+: line then
        cmgsFrame (line.drop 8) ::
          match cut [26] x with
          | none => [.broken x]
          | some (block, x) => .text block :: frames n x
      else .command line :: frames n x

/-- Every frame takes a byte at least, so the length is fuel enough. -/
def decode (x : List UInt8) : List Frame := frames (x.length + 1) x

theorem frames_fuel {n m : Nat} {x : List UInt8} (hn : x.length < n) (hm : x.length < m) :
    frames n x = frames m x := by
  induction n generalizing m x with
  | zero => omega
  | succ n ih =>
    cases m with
    | zero => omega
    | succ m =>
      cases x with
      | nil => rfl
      | cons b x =>
        rw [frames, frames]
        cases hcut : cut [cr, lf] (b :: x) with
        | none => rfl
        | some r =>
          have hlen := congrArg List.length (cut_some hcut)
          simp only [List.length_append, List.length_cons, List.length_nil] at hlen hn hm
          have hrest : frames n r.2 = frames m r.2 := ih (by omega) (by omega)
          simp only
          split
          · cases hblock : cut [26] r.2 with
            | none => rfl
            | some s =>
              have hlen' := congrArg List.length (cut_some hblock)
              simp only [List.length_append, List.length_cons, List.length_nil] at hlen'
              simp only [ih (x := s.2) (m := m) (by omega) (by omega)]
          · rw [hrest]

theorem decode_cut {x : List UInt8} (hne : x ≠ []) : decode x =
    match cut [cr, lf] x with
    | none => [.broken x]
    | some (line, y) =>
      if ascii "AT+CMGS=" <+: line then
        cmgsFrame (line.drop 8) ::
          match cut [26] y with
          | none => [.broken y]
          | some (block, z) => .text block :: decode z
      else .command line :: decode y := by
  obtain ⟨b, x, rfl⟩ := List.exists_cons_of_ne_nil hne
  rw [decode, frames]
  cases hcut : cut [cr, lf] (b :: x) with
  | none => rfl
  | some r =>
    obtain ⟨line, y⟩ := r
    have hlen := congrArg List.length (cut_some hcut)
    simp only [List.length_append, List.length_cons, List.length_nil] at hlen
    have hy : frames (x.length + 1) y = decode y := frames_fuel (by omega) (by omega)
    simp only [List.length_cons, hy]
    split
    · cases hblock : cut [26] y with
      | none => rfl
      | some s =>
        obtain ⟨block, z⟩ := s
        have hlen' := congrArg List.length (cut_some hblock)
        simp only [List.length_append, List.length_cons, List.length_nil] at hlen'
        have hz : frames (x.length + 1) z = decode z := frames_fuel (by omega) (by omega)
        simp only [hz]
    · rfl

theorem cmgsFrame_eq_iff {x argument behind : List UInt8} :
    cmgsFrame x = .cmgs argument behind ↔
      ∃ y, x = 34 :: y ∧ cut [34] y = some (argument, behind) := by
  constructor
  · intro h
    unfold cmgsFrame at h
    split at h
    · next y =>
      split at h
      · next hcut =>
        obtain ⟨rfl, rfl⟩ := Frame.cmgs.inj h
        exact ⟨y, rfl, hcut⟩
      · cases h
    · cases h
  · rintro ⟨y, rfl, hcut⟩
    simp only [cmgsFrame, hcut]

theorem cut_byte_iff (b : UInt8) (x y : List UInt8) :
    cut [b] (x ++ [b] ++ y) = some (x, y) ↔ b ∉ x := by
  rw [cut_append_iff (by simp) (unbordered_singleton b), List.singleton_infix_iff]

theorem cut_line_iff (x y : List UInt8) :
    cut [cr, lf] (x ++ [cr, lf] ++ y) = some (x, y) ↔ ¬ [cr, lf] <:+: x :=
  cut_append_iff (by simp) (unbordered_pair (by decide)) x y

theorem decode_line {line : List UInt8} (hline : cr ∉ line) (hcmgs : ¬ ascii "AT+CMGS=" <+: line)
    (x : List UInt8) : decode (line ++ [cr, lf] ++ x) = .command line :: decode x := by
  have hcut := (cut_line_iff line x).mpr fun h => hline (h.subset List.mem_cons_self)
  rw [decode_cut (by simp), hcut]
  exact if_neg hcmgs

namespace SendSms

/-- The frames that the run means to write. -/
def expected (da smsText : List UInt8) : List Frame :=
  [.command (ascii "AT+CMGF=1"), .command (ascii "AT+CSCS=\"GSM\""), .cmgs da [], .text smsText]

/-- Nothing in the strings ends a frame. -/
structure Plain (da smsText : List UInt8) : Prop where
  quote : 34 ∉ da
  line : ¬ [cr, lf] <:+: da
  text : 26 ∉ smsText

theorem infix_quoted {da : List UInt8} :
    [cr, lf] <:+: ascii "AT+CMGS=\"" ++ da ++ [34] ↔ [cr, lf] <:+: da := by
  have hhead (head : List UInt8) (hhead : cr ∉ head) (x : List UInt8) :
      [cr, lf] <:+: head ++ x ↔ [cr, lf] <:+: x := by
    induction head with
    | nil => rfl
    | cons a head ih =>
      have hne : cr ≠ a := fun h => hhead (h ▸ List.mem_cons_self)
      rw [List.cons_append, List.infix_cons_iff, ih fun h => hhead (List.mem_cons_of_mem a h)]
      exact or_iff_right fun h => hne (List.cons_prefix_cons.mp h).1
  rw [List.append_assoc, hhead _ (by decide), List.infix_concat_iff]
  apply or_iff_right
  rintro ⟨s, hs⟩
  have hlast := congrArg List.getLast? hs
  simp at hlast
  exact absurd hlast (by decide)

theorem decode_setup (x : List UInt8) : decode (setup.flatMap toString ++ x) =
    .command (ascii "AT+CMGF=1") :: .command (ascii "AT+CSCS=\"GSM\"") :: decode x := by
  have hsetup : setup.flatMap toString ++ x = ascii "AT+CMGF=1" ++ [cr, lf] ++
      (ascii "AT+CSCS=\"GSM\"" ++ [cr, lf] ++ x) := rfl
  rw [hsetup, decode_line (by decide) (by decide), decode_line (by decide) (by decide)]

theorem toString_cmgs (da : List UInt8) :
    toString (cmgs da) = ascii "AT+CMGS=\"" ++ da ++ [34] ++ [cr, lf] := by
  have h : toString (cmgs da) = ascii "AT" ++ (ascii "+" ++ ascii "CMGS" ++ ascii "=" ++
      (ascii "\"" ++ da ++ ascii "\"")) ++ ascii "\r\n" := rfl
  rw [h]
  simp only [← List.append_assoc]
  rfl

def quoted (da : List UInt8) : List UInt8 := ascii "AT+CMGS=\"" ++ da ++ [34]

theorem cmgsFrame_quoted (da line : List UInt8) :
    (ascii "AT+CMGS=" <+: line ∧ cmgsFrame (line.drop 8) = .cmgs da []) ↔
      line = quoted da ∧ 34 ∉ da := by
  constructor
  · rintro ⟨⟨w, rfl⟩, hframe⟩
    obtain ⟨y, hy, hargument⟩ := cmgsFrame_eq_iff.mp hframe
    have hsplit : y = da ++ [34] ++ [] := cut_some hargument
    have hw : w = 34 :: (da ++ [34]) := by
      rw [List.append_nil] at hsplit
      rw [← hsplit]
      exact hy
    rw [hsplit] at hargument
    refine ⟨?_, (cut_byte_iff 34 da []).mp hargument⟩
    rw [hw]
    simp [quoted, ascii]
  · rintro ⟨rfl, hquote⟩
    have hargument := (cut_byte_iff 34 da []).mpr hquote
    rw [List.append_nil] at hargument
    refine ⟨?_, cmgsFrame_eq_iff.mpr ⟨da ++ [34], rfl, hargument⟩⟩
    rw [quoted, List.append_assoc]
    exact List.IsPrefix.trans (by decide) (List.prefix_append _ _)

/-- The line with the address and the text behind it, frame by frame. -/
theorem decode_cmgs {da smsText x : List UInt8} (hne : x ≠ []) :
    decode x = [.cmgs da [], .text smsText] ↔ ∃ line y z, cut [cr, lf] x = some (line, y) ∧
      (ascii "AT+CMGS=" <+: line ∧ cmgsFrame (line.drop 8) = .cmgs da []) ∧
        cut [26] y = some (smsText, z) ∧ decode z = [] := by
  rw [decode_cut hne]
  constructor
  · intro h
    split at h
    · cases (List.cons.inj h).1
    · next line y hcut =>
      split at h
      · next hcmgs =>
        obtain ⟨hframe, hrest⟩ := List.cons.inj h
        split at hrest
        · cases (List.cons.inj hrest).1
        · next block z hblock =>
          obtain ⟨htext, hz⟩ := List.cons.inj hrest
          rw [Frame.text.inj htext] at hblock
          exact ⟨line, y, z, hcut, ⟨hcmgs, hframe⟩, hblock, hz⟩
      · cases (List.cons.inj h).1
  · rintro ⟨line, y, z, hcut, ⟨hcmgs, hframe⟩, hblock, hz⟩
    simp only [hcut, if_pos hcmgs, hframe, hblock, hz]

theorem decode_lines (da smsText : List UInt8) :
    decode (lines da ++ (smsText ++ [26])) = expected da smsText ↔ Plain da smsText := by
  rw [lines, List.append_assoc, decode_setup, expected, toString_cmgs]
  simp only [List.cons.injEq, true_and]
  change decode (quoted da ++ [cr, lf] ++ (smsText ++ [26])) = _ ↔ _
  have hline := cut_line_iff (quoted da) (smsText ++ [26])
  have hblock := cut_byte_iff 26 smsText []
  rw [List.append_nil] at hblock
  rw [decode_cmgs (by simp)]
  constructor
  · rintro ⟨line, x, z, hcut, hframe, htext, _⟩
    obtain ⟨rfl, hquote⟩ := (cmgsFrame_quoted da line).mp hframe
    obtain rfl : smsText ++ [26] = x := List.append_cancel_left (cut_some hcut)
    obtain rfl : z = [] := List.append_right_eq_self.mp (cut_some htext).symm
    exact ⟨hquote, fun hin => hline.mp hcut (infix_quoted.mpr hin), hblock.mp htext⟩
  · intro h
    have hcut := hline.mpr fun hin => h.line (infix_quoted.mp hin)
    have hframe := (cmgsFrame_quoted da (quoted da)).mpr ⟨rfl, h.quote⟩
    exact ⟨quoted da, smsText ++ [26], [], hcut, hframe, hblock.mpr h.text, rfl⟩

/-- The line and the text are kept in memory until they have been written. -/
structure Kept (da smsText : List UInt8) (calls : List (Call Handler)) : Prop where
  line : ∀ c ∈ calls, c.handler = .cmgsWriteHandler → c.Intact (toString (cmgs da))
  text : ∀ e ∈ calls, e.handler = .textWriteHandler → e.Intact (smsText ++ [26])

/-- The write of the text has ended well. -/
def Written (calls : List (Call Handler)) : Prop :=
  ∃ e ∈ calls, e.handler = .textWriteHandler ∧ e.ec = false

theorem Loop.written {da smsText : List UInt8} {s : Session Handler} (hs : Ready setup s)
    {calls : List (Call Handler)} {last : Bool × Session Handler}
    (h : Loop smsText (lineCall da s) calls last) (hwritten : Written calls)
    (hkept : Kept da smsText calls) : last.2.written = lines da ++ (smsText ++ [26]) := by
  obtain ⟨e, he, htext, hec⟩ := hwritten
  obtain ⟨c, hc⟩ : ∃ c, lineCall da s = c := ⟨_, rfl⟩
  have hline : c.handler = .cmgsWriteHandler := by
    rw [← hc]
    rfl
  have hne : e ≠ c := by
    intro h
    rw [h, hline] at htext
    cases htext
  have hprompt (t : Session Handler) : e ≠ promptCall t := by
    intro h
    rw [h] at htext
    cases htext
  rw [hc] at h
  cases h with
  | interrupted t => cases he
  | unwritten hok => exact absurd (List.mem_singleton.mp he) hne
  | waiting hok => exact absurd (List.mem_singleton.mp he) hne
  | refused d hok hd => simp [hne, hd, hprompt] at he
  | handing d hok hd => simp [hne, hd, hprompt] at he
  | handed d e' hok hd hstarts he' =>
    obtain rfl : e = e' := by simpa [hne, hd, hprompt] using he
    obtain ⟨r, hr⟩ := prompt_read hs hc.symm hok hd
    have hpasses := (startsText_prompt hr.handler hr.record hr.pending).mp hstarts
    have hwrites := textCall_writes (prompt_passes smsText hr.handler hr.record hpasses)
    rw [← he'] at hwrites
    have hbefore : d.before.written = lines da :=
      hr.written.mpr (hkept.line c List.mem_cons_self hline)
    rw [← hbefore]
    exact (hwrites.written_iff hec (text_after hwrites.op htext)).mpr (hkept.text e he htext)

theorem written_run {port : Port} {da smsText : List UInt8} {n : Nat}
    (hwritten : Written ((program da smsText).calls port n))
    (hkept : Kept da smsText ((program da smsText).calls port n)) :
    (runSendSms port da smsText n).2.written = lines da ++ (smsText ++ [26]) := by
  have hlooped := looping_looped (handle smsText) setup
    (·.asyncWrite (cmgs da) .cmgsWriteHandler) (fun _ => rfl) port n
  rw [← program_looping] at hlooped
  cases hlooped with
  | ended status calls =>
    obtain ⟨e, he, _⟩ := hwritten
    rw [calls] at he
    cases he
  | looped s ready hrun calls passed =>
    have hstopped : (s.asyncWrite (cmgs da) .cmgsWriteHandler).stopped = false := ready.stopped
    rw [calls] at hwritten hkept
    rw [run_fresh n hstopped] at hrun
    rw [runSendSms_eq, hrun, ← (loop_line smsText da n ready.thrown).written ready hwritten hkept]
    split <;> rfl

/-- In every run that writes the text, nothing of it being lost on the way: the modem reads back
the three commands and the text, and nothing else, exactly when the strings hold none of the
delimiters. -/
theorem decode_iff (port : Port) (da smsText : List UInt8) (n : Nat)
    (hwritten : Written ((program da smsText).calls port n))
    (hkept : Kept da smsText ((program da smsText).calls port n)) :
    decode (runSendSms port da smsText n).2.written = expected da smsText ↔
      Plain da smsText := by
  rw [written_run hwritten hkept]
  exact decode_lines da smsText

/-- The port of a run in which everything goes well. -/
def goodPort : Port :=
  let ok : Arrival UInt8 := ⟨ascii "\r\nOK\r\n", [], by decide⟩
  let prompt : Arrival UInt8 := ⟨ascii "\r\n> ", [], by decide⟩
  ⟨true, [.received ok, .received ok, .received prompt], List.replicate 4 (.accepted 100 [])⟩

/-- A quotation mark in the address ends the argument of AT+CMGS. -/
theorem decode_quote :
    Written ((program (ascii "1\",2") (ascii "Hi")).calls goodPort 3) ∧
      decode (runSendSms goodPort (ascii "1\",2") (ascii "Hi") 3).2.written ≠
        expected (ascii "1\",2") (ascii "Hi") := by
  constructor
  · unfold Written
    decide +kernel
  · decide +kernel

theorem decode_plain :
    decode (runSendSms goodPort (ascii "112") (ascii "Hi") 3).2.written =
      expected (ascii "112") (ascii "Hi") := by
  have hwritten : Written ((program (ascii "112") (ascii "Hi")).calls goodPort 3) := by
    unfold Written
    decide +kernel
  have hkept : Kept (ascii "112") (ascii "Hi")
      ((program (ascii "112") (ascii "Hi")).calls goodPort 3) :=
    ⟨by decide +kernel, by decide +kernel⟩
  exact (decode_iff goodPort (ascii "112") (ascii "Hi") 3 hwritten hkept).mpr
    ⟨by decide, by decide, by decide⟩

end SendSms

end Ringbeller
