import Ringbeller.App.UsbCfg

/-!
# The lines of a call that is made

The command lines that a run of `run_make_vcall` has written whole, against the script that it
is to follow.
-/

namespace Ringbeller
set_option autoImplicit false

open Asio Script Session

section Written
variable {η : Type}

namespace Exchange

def line (x : Exchange η) : List UInt8 := toString x.command

/-- What is counted as written is what the port has accepted. -/
theorem sent_of_written {x : Exchange η} (h : x.unwritten = false) : x.sent = x.line :=
  (write_sent (toString x.command) x.before.puts).2.mp h

end Exchange

/-- The lines that have been accepted whole. -/
def written (xs : List (Exchange η)) : List (List UInt8) :=
  (xs.filter fun x => !x.unwritten).map Exchange.line

theorem written_passed {x : Exchange η} (h : x.failed = false) : x.unwritten = false :=
  (Bool.or_eq_false_iff.mp h).1

theorem written_cons {x : Exchange η} (xs : List (Exchange η)) (h : x.unwritten = false) :
    written (x :: xs) = x.line :: written xs := by
  simp [written, h]

theorem written_unwritten {x : Exchange η} (xs : List (Exchange η)) (h : x.unwritten = true) :
    written (x :: xs) = written xs := by
  simp [written, h]

variable {commands : List Request} {xs : List (Exchange η)}

theorem Follows.written (h : Follows commands xs) :
    (written xs).IsPrefix (commands.map toString) := by
  induction h with
  | nil => exact List.prefix_rfl
  | failed x commands _ =>
    cases hx : x.unwritten with
    | true =>
      rw [written_unwritten [] hx]
      exact List.nil_prefix
    | false =>
      rw [written_cons [] hx]
      exact ⟨commands.map toString, rfl⟩
  | passed x hx _ ih =>
    rw [written_cons _ (written_passed hx)]
    exact List.cons_prefix_cons.mpr ⟨rfl, ih⟩

theorem Follows.written_all (h : Follows commands xs) (hall : ∀ x ∈ xs, x.failed = false) :
    Ringbeller.written xs = commands.map toString := by
  induction h with
  | nil => rfl
  | failed x commands hx => simp [hx] at hall
  | passed x hx _ ih =>
    rw [written_cons _ (written_passed hx), ih fun y hy => hall y (List.mem_cons_of_mem x hy)]
    rfl

theorem Program.exchanges_passed {p : Program η} {port : Port} {n : Nat}
    (h : (p.run port n).1 = some 0) : ∀ x ∈ p.exchanges port n, x.failed = false := by
  intro x hx
  obtain ⟨⟨i, s⟩, hstarted, hexchange⟩ := List.mem_filterMap.mp hx
  have hgo := sequence_ok_iff.mp h (i, s) hstarted
  cases i with
  | execute f =>
    obtain rfl : (⟨f s, s⟩ : Exchange η) = x := Option.some.inj hexchange
    exact execute_goes_on.mp hgo
  | openPort => cases hexchange
  | start f => cases hexchange
  | run => cases hexchange

end Written

namespace VoiceCall

/-! ## The script -/

/-- The first +QCFG line of the messages, if the own first line of one of them is such a line. -/
def firstReport (rs : List ReadRecord) : Option (List UInt8) :=
  (successful rs).findSome? fun r =>
    r.alone.body.head?.filter fun line => (ascii "+QCFG:").isPrefixOf line

def reportedValue (line : List UInt8) : Option (List UInt8) :=
  if valuePart line = [] then none else some (valuePart line)

/-- The value that the modem has reported by the time of the second command. -/
def receivedValue (xs : List (Exchange Handler)) : Option (List UInt8) :=
  xs.tail.head?.bind fun x => (firstReport x.before.records).bind reportedValue

def script (da : List UInt8) : Option (List UInt8) → List (List UInt8)
  | none => [ascii "AT+QCFG=\"USBCFG\"\r\n"]
  | some value =>
    [ascii "AT+QCFG=\"USBCFG\"\r\n", ascii "AT+QCFG=" ++ switchLast value ++ ascii "\r\n",
      ascii "AT+QPCMV=1,2\r\n", ascii "AT+CSCS=\"GSM\"\r\n", ascii "ATD\"" ++ da ++ ascii "\";\r\n",
      ascii "ATH\r\n", ascii "AT+QPCMV=0\r\n"]

/-- The lines of a run are a beginning of the script, and all of it when the run returns 0. -/
structure KeepsScript (da : List UInt8) (xs : List (Exchange Handler)) (status : Option Int) :
    Prop where
  lines : (written xs).IsPrefix (script da (receivedValue xs))
  all : status = some 0 →
    (receivedValue xs).isSome ∧ written xs = script da (receivedValue xs)

/-- The second command is written behind a wait that has not failed, with a value that has one
blank before it, and the call is dialled only to the address that is always dialled. -/
structure Dialled (da : List UInt8) (xs : List (Exchange Handler)) : Prop where
  value : ∀ x ∈ xs.tail, x.command.command = ascii "QCFG" → x.unwritten = false →
    (∀ r ∈ x.before.waits, r.ec = false) ∧
      ∃ line, x.before.response.body.head? = some line ∧ OneBlank line
  address : (∃ x ∈ xs, x.command = makeAtd (ascii "\"{}\";") ∧ x.unwritten = false) →
    da = ascii "{}"

/-! ## The value -/

theorem firstReport_marked {rs : List ReadRecord} {line : List UInt8} {lines : List (List UInt8)}
    (hbody : (successful rs).flatMap (fun r => r.alone.body) = line :: lines)
    (hmarked : (ascii "+QCFG:").IsPrefix line) : firstReport rs = some line := by
  have hbegins : (ascii "+QCFG:").isPrefixOf line = true := List.isPrefixOf_iff_prefix.mpr hmarked
  rw [firstReport]
  generalize successful rs = rs at hbody ⊢
  induction rs with
  | nil => cases hbody
  | cons r rs ih =>
    rw [List.flatMap_cons] at hbody
    rw [List.findSome?_cons]
    cases hr : r.alone.body with
    | nil =>
      rw [hr, List.nil_append] at hbody
      exact ih hbody
    | cons own rest =>
      rw [hr, List.cons_append] at hbody
      obtain rfl := (List.cons.inj hbody).1
      rw [List.head?_cons, Option.filter_some, if_pos hbegins]

theorem reportedValue_switched {line value : List UInt8} :
    (reportedValue line).map switchLast = some value ↔
      valuePart line ≠ [] ∧ value = switchLast (valuePart line) := by
  rw [reportedValue]
  split
  · next hnil => simp [hnil]
  · next hne => simp [hne, eq_comm]

/-- What the wait leaves in `usb_cfg` is the reported value with its last character switched
exactly when no read of it has failed and the value has one blank before it. -/
theorem usbCfg_iff {s : Session Handler} (hover : Over s) (hchain : s.Chained) :
    (((firstReport s.records).bind reportedValue).map switchLast = some s.usbCfg) ↔
      (∀ r ∈ s.waits, r.ec = false) ∧
        ∃ line, s.response.body.head? = some line ∧ OneBlank line := by
  obtain ⟨hwait, hpending, hthrown⟩ := hover
  cases hwait with
  | waiting held op pending => simp [pending] at hpending
  | failed _ r mem ec usbCfg =>
    rw [usbCfg]
    constructor
    · intro h
      obtain ⟨value, _, hvalue⟩ := Option.map_eq_some_iff.mp h
      exact absurd hvalue (List.append_ne_nil_of_right_ne_nil _ (by decide))
    · intro h
      rw [h.1 r mem] at ec
      cases ec
  | received _ line lines ok body marked usbCfg =>
    obtain ⟨hlong, husbCfg⟩ := usbCfg hthrown
    have hfirst : firstReport s.records = some line :=
      firstReport_marked ((Chain.body hchain).symm.trans body) marked
    have hline : (∃ line', s.response.body.head? = some line' ∧ OneBlank line') ↔
        OneBlank line := by
      rw [body, List.head?_cons]
      simp
    rw [hfirst, Option.bind_some, reportedValue_switched, husbCfg, hline, ← taken_iff marked]
    exact ⟨fun h => ⟨ok, hlong, h⟩, fun h => h.2.2⟩

/-! ## The lines -/

theorem prefix_replaced {α : Type} {xs mid rest : List α} {a : α}
    (h : xs.IsPrefix (mid ++ a :: rest)) (ha : a ∉ mid) (b : α) :
    xs.IsPrefix (mid ++ b :: rest) ↔ (a ∈ xs → a = b) := by
  constructor
  · intro hb hmem
    rcases List.prefix_or_prefix_of_prefix h (List.prefix_append mid (a :: rest)) with hmid | hmid
    · exact absurd (hmid.subset hmem) ha
    · obtain ⟨t, rfl⟩ := hmid
      rw [List.prefix_append_right_inj] at h hb
      cases t with
      | nil =>
        rw [List.append_nil] at hmem
        exact absurd hmem ha
      | cons c t =>
        obtain ⟨rfl, _⟩ := List.cons_prefix_cons.mp h
        exact (List.cons_prefix_cons.mp hb).1
  · intro hab
    by_cases hmem : a ∈ xs
    · obtain rfl := hab hmem
      exact h
    · rcases List.prefix_or_prefix_of_prefix h (List.prefix_append mid (a :: rest)) with
        hmid | hmid
      · exact hmid.trans (List.prefix_append mid (b :: rest))
      · obtain ⟨t, rfl⟩ := hmid
        rw [List.prefix_append_right_inj] at h
        cases t with
        | nil =>
          rw [List.append_nil]
          exact List.prefix_append mid (b :: rest)
        | cons c t =>
          obtain ⟨rfl, _⟩ := List.cons_prefix_cons.mp h
          simp at hmem

def qcfgLine (usbCfg : List UInt8) : List UInt8 := ascii "AT+QCFG=" ++ usbCfg ++ ascii "\r\n"

def dialLine (da : List UInt8) : List UInt8 := ascii "ATD\"" ++ da ++ ascii "\";\r\n"

theorem script_some (da value : List UInt8) : script da (some value) =
    toString queryUsbCfg :: qcfgLine (switchLast value) ::
      ([ascii "AT+QPCMV=1,2\r\n", ascii "AT+CSCS=\"GSM\"\r\n"] ++
        dialLine da :: [ascii "ATH\r\n", ascii "AT+QPCMV=0\r\n"]) := rfl

/-- The commands behind the first AT+QCFG line. -/
def dialled : List Request :=
  [makeAtQpcmvWrite (ascii "1,2"), makeAtCscsWrite (ascii "\"GSM\"")] ++ call ++ [switchOff]

theorem dialled_lines : dialled.map toString =
    [ascii "AT+QPCMV=1,2\r\n", ascii "AT+CSCS=\"GSM\"\r\n"] ++
      dialLine (ascii "{}") :: [ascii "ATH\r\n", ascii "AT+QPCMV=0\r\n"] := by decide

theorem dialLine_iff (da : List UInt8) : dialLine (ascii "{}") = dialLine da ↔ da = ascii "{}" := by
  rw [dialLine, dialLine, List.append_left_inj, List.append_right_inj]
  exact eq_comm

theorem qcfgLine_iff (u v : List UInt8) : qcfgLine u = qcfgLine v ↔ u = v := by
  rw [qcfgLine, qcfgLine, List.append_left_inj, List.append_right_inj]

theorem dialLine_written {xs : List (Exchange Handler)} (h : Follows dialled xs) :
    dialLine (ascii "{}") ∈ written xs ↔
      ∃ x ∈ xs, x.command = makeAtd (ascii "\"{}\";") ∧ x.unwritten = false := by
  constructor
  · intro hmem
    obtain ⟨x, hx, hline⟩ := List.mem_map.mp hmem
    obtain ⟨hx, hwritten⟩ := List.mem_filter.mp hx
    have hcommand : ∀ c ∈ dialled, toString c = dialLine (ascii "{}") →
        c = makeAtd (ascii "\"{}\";") := by decide
    exact ⟨x, hx, hcommand _ (h.mem hx) hline, by simpa using hwritten⟩
  · rintro ⟨x, hx, hcommand, hwritten⟩
    refine List.mem_map.mpr ⟨x, List.mem_filter.mpr ⟨hx, by simpa using hwritten⟩, ?_⟩
    rw [Exchange.line, hcommand]
    decide

theorem lines_iff {da : List UInt8} {usbCfg : List UInt8} {value : Option (List UInt8)}
    {lines : List (List UInt8)} (h : lines.IsPrefix (dialled.map toString)) :
    (toString queryUsbCfg :: qcfgLine usbCfg :: lines).IsPrefix (script da value) ↔
      value.map switchLast = some usbCfg ∧ (dialLine (ascii "{}") ∈ lines → da = ascii "{}") := by
  cases value with
  | none =>
    constructor
    · intro hlines
      exact absurd hlines.length_le (by simp [script])
    · intro hvalue
      exact absurd hvalue.1 (by simp)
  | some value =>
    rw [dialled_lines] at h
    rw [script_some, List.cons_prefix_cons, List.cons_prefix_cons, qcfgLine_iff,
      prefix_replaced h (by decide), dialLine_iff, Option.map_some, Option.some_inj]
    exact ⟨fun ⟨_, hvalue, hda⟩ => ⟨hvalue.symm, hda⟩, fun ⟨hvalue, hda⟩ => ⟨rfl, hvalue.symm, hda⟩⟩

/-- A run whose wait has ended: the exchange `q` of the query, the exchange `x` of the AT+QCFG line,
which the wait has left in the state `s`, and those behind it. -/
structure Waited (s : Session Handler) (q x : Exchange Handler) (xs : List (Exchange Handler)) :
    Prop where
  query : q.command = queryUsbCfg
  passed : q.failed = false
  command : x.command = makeAtQcfgWrite s.usbCfg
  before : x.before = s
  follows : Follows (makeAtQcfgWrite s.usbCfg :: dialled) (x :: xs)

section Waited
variable {s : Session Handler} {q x : Exchange Handler} {xs : List (Exchange Handler)}

theorem Waited.rest (h : Waited s q x xs) : Follows dialled xs ∨ x.failed = true ∧ xs = [] :=
  h.follows.head.imp And.right id

theorem Waited.later (h : Waited s q x xs) : ∀ y ∈ xs, y.command ∈ dialled := by
  intro y hy
  rcases h.rest with hrest | ⟨_, hnil⟩
  · exact hrest.mem hy
  · rw [hnil] at hy
    cases hy

theorem Waited.written_query (h : Waited s q x xs) :
    written (q :: x :: xs) = toString queryUsbCfg :: written (x :: xs) := by
  rw [written_cons _ (written_passed h.passed), Exchange.line, h.query]

/-- The exchange `x` is the only one of its command behind the query. -/
theorem Waited.qcfg (h : Waited s q x xs) {y : Exchange Handler} (hy : y ∈ x :: xs)
    (hqcfg : y.command.command = ascii "QCFG") : y = x := by
  rcases List.mem_cons.mp hy with rfl | hy
  · rfl
  · have hne : ∀ c ∈ dialled, c.command ≠ ascii "QCFG" := by decide
    exact absurd hqcfg (hne _ (h.later y hy))

theorem Waited.dial_written (h : Waited s q x xs) : dialLine (ascii "{}") ∈ written xs ↔
    ∃ y ∈ q :: x :: xs, y.command = makeAtd (ascii "\"{}\";") ∧ y.unwritten = false := by
  have hxs : dialLine (ascii "{}") ∈ written xs ↔
      ∃ y ∈ xs, y.command = makeAtd (ascii "\"{}\";") ∧ y.unwritten = false := by
    rcases h.rest with hrest | ⟨_, rfl⟩
    · exact dialLine_written hrest
    · simp [written]
  rw [hxs]
  constructor
  · rintro ⟨y, hy, hd⟩
    exact ⟨y, by simp [hy], hd⟩
  · rintro ⟨y, hy, hd⟩
    simp only [List.mem_cons] at hy
    rcases hy with rfl | rfl | hy
    · exact absurd (h.query.symm.trans hd.1) (by decide)
    · exact absurd (h.command.symm.trans hd.1) fun heq => absurd (congrArg Request.command heq)
        (show ascii "QCFG" ≠ ascii "D" by decide)
    · exact ⟨y, hy, hd⟩

/-- The AT+QCFG line is not written, and the run ends with it. -/
theorem keepsScript_unwritten (h : Waited s q x xs) (hu : x.unwritten = true) {da : List UInt8}
    {status : Option Int} (hpassed : status = some 0 → ∀ y ∈ q :: x :: xs, y.failed = false) :
    KeepsScript da (q :: x :: xs) status ∧ Dialled da (q :: x :: xs) := by
  have hxfailed : x.failed = true := by rw [Exchange.failed, hu, Bool.true_or]
  have hnil : xs = [] := by
    rcases h.follows.head with ⟨hok, _⟩ | ⟨_, hxs⟩
    · rw [hxfailed] at hok
      cases hok
    · exact hxs
  have hlines : written (q :: x :: xs) = [toString queryUsbCfg] := by
    rw [h.written_query, written_unwritten xs hu, hnil]
    rfl
  constructor
  · constructor
    · rw [hlines]
      cases receivedValue (q :: x :: xs) with
      | none => exact List.prefix_rfl
      | some value => exact ⟨_, rfl⟩
    · intro h0
      have hxok := hpassed h0 x (by simp)
      rw [hxfailed] at hxok
      cases hxok
  · constructor
    · intro y hy hqcfg hwritten
      rw [h.qcfg hy hqcfg, hu] at hwritten
      cases hwritten
    · intro hd
      have hmem := h.dial_written.mpr hd
      rw [hnil] at hmem
      cases hmem

theorem keepsScript_written (h : Waited s q x xs) (hu : x.unwritten = false) (hover : Over s)
    (hchain : s.Chained) {da : List UInt8} {status : Option Int}
    (hpassed : status = some 0 → ∀ y ∈ q :: x :: xs, y.failed = false) :
    KeepsScript da (q :: x :: xs) status ↔ Dialled da (q :: x :: xs) := by
  have hvalue : (receivedValue (q :: x :: xs)).map switchLast = some s.usbCfg ↔
      (∀ r ∈ s.waits, r.ec = false) ∧
        ∃ line, s.response.body.head? = some line ∧ OneBlank line := by
    rw [← usbCfg_iff hover hchain, ← h.before]
    rfl
  have hwritten : written (q :: x :: xs) =
      toString queryUsbCfg :: qcfgLine s.usbCfg :: written xs := by
    rw [h.written_query, written_cons _ hu, Exchange.line, h.command]
    rfl
  have hbegins : (written xs).IsPrefix (dialled.map toString) := by
    rcases h.rest with hrest | ⟨_, rfl⟩
    · exact hrest.written
    · exact List.nil_prefix
  have hlines := @lines_iff da s.usbCfg (receivedValue (q :: x :: xs)) (written xs) hbegins
  rw [← hwritten, h.dial_written] at hlines
  constructor
  · intro hkeeps
    obtain ⟨hv, hda⟩ := hlines.mp hkeeps.lines
    refine ⟨fun y hy hqcfg _ => ?_, hda⟩
    rw [h.qcfg hy hqcfg, h.before]
    exact hvalue.mp hv
  · intro hdialled
    have hbefore := hdialled.value x List.mem_cons_self (by rw [h.command]; rfl) hu
    rw [h.before] at hbefore
    have hv := hvalue.mpr hbefore
    have hkeeps := hlines.mpr ⟨hv, hdialled.address⟩
    refine ⟨hkeeps, fun h0 => ?_⟩
    obtain ⟨value, hsome, _⟩ := Option.map_eq_some_iff.mp hv
    have hall := h.follows.written_all fun y hy => hpassed h0 y (List.mem_cons_of_mem q hy)
    refine ⟨by rw [hsome]; rfl, hkeeps.eq_of_length ?_⟩
    rw [h.written_query, hall, hsome]
    rfl

end Waited

/-- A run that is over before the wait is has written the query at most. -/
theorem keepsScript_waiting {da : List UInt8} {status : Option Int} (port : Port)
    (h : status ≠ some 0) :
    KeepsScript da (if port.opens then [⟨queryUsbCfg, .start port⟩] else []) status ∧
      Dialled da (if port.opens then [⟨queryUsbCfg, .start port⟩] else []) := by
  constructor
  · refine ⟨?_, fun h0 => absurd h0 h⟩
    split
    · cases hx : (⟨queryUsbCfg, .start port⟩ : Exchange Handler).unwritten with
      | true =>
        rw [written_unwritten [] hx]
        exact List.nil_prefix
      | false =>
        rw [written_cons [] hx]
        exact ⟨[], rfl⟩
    · exact List.nil_prefix
  · constructor
    · intro x hx
      split at hx <;> cases hx
    · rintro ⟨x, hx, hcommand, _⟩
      split at hx
      · obtain rfl := List.mem_singleton.mp hx
        exact absurd (show queryUsbCfg = makeAtd _ from hcommand) (by decide)
      · cases hx

/-- In every run of `run_make_vcall`: the lines are those of the script exactly when the value
has been waited for with success and has one blank before it, and nothing is dialled or the
address is the text that stands in the command. -/
theorem keepsScript_iff (port : Port) (da : List UInt8) (n : Nat) :
    KeepsScript da ((makeProgram da).exchanges port n) (runMakeVcall port da n).1 ↔
      Dialled da ((makeProgram da).exchanges port n) := by
  cases makeProgram_scripted da port n with
  | waiting hwait h =>
    have hstatus : (runMakeVcall port da n).1 ≠ some 0 := by
      intro h0
      have hstatements : (makeProgram da).statements = query ++ dial := rfl
      rw [runMakeVcall_eq, (Program.run_of_not_reaches hwait hstatements).1] at h0
      exact hwait _ (Prod.ext h0 rfl)
    obtain ⟨hkeeps, hdialled⟩ := @keepsScript_waiting da _ port hstatus
    rw [h]
    exact ⟨fun _ => hdialled, fun _ => hkeeps⟩
  | waited s xs hquery hwait h hxs =>
    obtain ⟨hover, hchain⟩ := query_waited (p := makeProgram da) rfl hwait
    have hpassed : (runMakeVcall port da n).1 = some 0 →
        ∀ x ∈ (makeProgram da).exchanges port n, x.failed = false := fun h0 =>
      Program.exchanges_passed (p := makeProgram da) h0
    have hwaited : Waited s ⟨queryUsbCfg, .start port⟩ ⟨makeAtQcfgWrite s.usbCfg, s⟩ xs :=
      ⟨rfl, hquery, rfl, rfl, hxs⟩
    rw [h] at hpassed ⊢
    cases hu : (⟨makeAtQcfgWrite s.usbCfg, s⟩ : Exchange Handler).unwritten with
    | true =>
      obtain ⟨hkeeps, hdialled⟩ := keepsScript_unwritten hwaited hu hpassed
      exact ⟨fun _ => hdialled, fun _ => hkeeps⟩
    | false => exact keepsScript_written hwaited hu hover hchain hpassed

/-- The address is not dialled. -/
theorem keepsScript_not :
    let ok : Arrival UInt8 := ⟨ascii "\r\nOK\r\n", [], by decide⟩
    let urc : Arrival UInt8 := ⟨ascii "\r\n+QCFG: 0\r\n", [], by decide⟩
    let port : Port := ⟨true, [.received ok, .received urc, .received ok, .received ok,
      .received ok, .received ok, .received ok, .received ok], List.replicate 9 (.accepted 100 [])⟩
    ¬ KeepsScript (ascii "112") ((makeProgram (ascii "112")).exchanges port 1)
      (runMakeVcall port (ascii "112") 1).1 := by
  intro ok urc port h
  have hlines : ¬ (written ((makeProgram (ascii "112")).exchanges port 1)).IsPrefix
      (script (ascii "112") (receivedValue ((makeProgram (ascii "112")).exchanges port 1))) := by
    decide +kernel
  exact hlines h.lines

end VoiceCall

end Ringbeller
