import Ringbeller.App.Verbs
import Ringbeller.Asio.WriteAgain
import Ringbeller.Framing.Lines
import Ringbeller.Lib.Chunking

/-!
# What is printed of an exchange

The presentation of a response, as `execute`, `run_at_ok`, `run_ati` and the read handler of
`run_at_cops` print it, how it can be read back, and what the console shows of a message. The lines
of the logger are left out.
-/

namespace Ringbeller
set_option autoImplicit false

open Asio Framing Script

/-! ## Numbers and names -/

/-- A number as `fmt` prints it. -/
def decimal (n : Nat) : List UInt8 := (Nat.toDigits 10 n).map fun c => c.toNat.toUInt8

def digit (b : UInt8) : Bool := 48 ≤ b && b ≤ 57

def number (x : List UInt8) : Nat := Nat.ofDigitChars 10 (x.map fun b => Char.ofNat b.toNat) 0

theorem digitChar_byte {c : Char} (h : c.isDigit = true) :
    digit c.toNat.toUInt8 = true ∧ Char.ofNat c.toNat.toUInt8.toNat = c := by
  obtain ⟨hlow, hhigh⟩ : 48 ≤ c.toNat ∧ c.toNat ≤ 57 := by
    simpa [Char.isDigit, UInt32.le_iff_toNat_le] using h
  have hbyte : c.toNat.toUInt8.toNat = c.toNat := by
    rw [Nat.toUInt8, UInt8.toNat_ofNat']
    omega
  constructor
  · simp only [digit, Bool.and_eq_true, decide_eq_true_eq, UInt8.le_iff_toNat_le, hbyte]
    exact ⟨hlow, hhigh⟩
  · rw [hbyte, Char.ofNat_toNat]

theorem digits_decimal (n : Nat) : ∀ b ∈ decimal n, digit b = true := by
  intro b hb
  obtain ⟨c, hc, rfl⟩ := List.mem_map.mp hb
  exact (digitChar_byte (Nat.isDigit_of_mem_toDigits (by omega) (by omega) hc)).1

theorem number_decimal (n : Nat) : number (decimal n) = n := by
  have hchars : (decimal n).map (fun b => Char.ofNat b.toNat) = Nat.toDigits 10 n := by
    rw [decimal, List.map_map]
    conv_rhs => rw [← List.map_id (Nat.toDigits 10 n)]
    apply List.map_congr_left
    intro c hc
    exact (digitChar_byte (Nat.isDigit_of_mem_toDigits (by omega) (by omega) hc)).2
  rw [number, hchars, Nat.ofDigitChars_toDigits (by omega) (by omega)]

/-- `result_code_formatter.hpp`. -/
def resultCodeName : ResultCode → String
  | .busy => "BUSY"
  | .cmeError => "CME ERROR"
  | .cmsError => "CMS ERROR"
  | .commandNotSupport => "COMMAND NOT SUPPORT"
  | .connect => "CONNECT"
  | .error => "ERROR"
  | .noAnswer => "NO ANSWER"
  | .noCarrier => "NO CARRIER"
  | .noDialtone => "NO DIALTONE"
  | .none => "(none)"
  | .ok => "OK"
  | .ring => "RING"
  | .tooMayParameters => "TOO MANY PARAMETERS"

/-! ## Presenting a response -/

def sentLine (wb : Nat) : List UInt8 :=
  ascii "Sent " ++ decimal wb ++ ascii " bytes to the modem\n"

def presented (rb : Nat) (x : Response) : List UInt8 :=
  ascii "Read " ++ decimal rb ++ ascii " bytes from the modem\n" ++
    (ascii "Response result code: " ++ ascii (resultCodeName x.rc) ++ ascii "\n") ++
    (if x.rcText = [] then ascii "Response result text is empty\n"
      else ascii "Response result text: " ++ x.rcText ++ ascii "\n") ++
    (if x.body = [] then ascii "Response body is empty\n"
      else x.body.flatMap fun line => ascii "Response body: " ++ line ++ ascii "\n")

/-! ## Reading it back -/

def behind (p x : List UInt8) : Option (List UInt8) :=
  if p <+: x then some (x.drop p.length) else none

/-- The number behind the opening of a line. -/
def readNumber (opening x : List UInt8) : Option Nat :=
  (behind opening x).map fun y => number (y.takeWhile digit)

def allCodes : List ResultCode :=
  [.none, .ok, .connect, .ring, .noCarrier, .error, .noDialtone, .busy, .noAnswer, .cmeError,
    .cmsError, .commandNotSupport, .tooMayParameters]

def readCode (x : List UInt8) : Option ResultCode :=
  (behind (ascii "Response result code: ") x).bind fun y =>
    allCodes.find? fun c => ascii (resultCodeName c) = y

def readText (x : List UInt8) : Option (List UInt8) :=
  if x = ascii "Response result text is empty" then some []
  else behind (ascii "Response result text: ") x

def readBody (xs : List (List UInt8)) : Option (List (List UInt8)) :=
  if xs = [ascii "Response body is empty"] then some []
  else xs.mapM (behind (ascii "Response body: "))

/-- What the user reads off the lines of a presentation. -/
def readBack (x : List UInt8) : Option (Nat × Response) :=
  match (lines [lf] x).1 with
  | count :: code :: text :: body => do
    let rb ← readNumber (ascii "Read ") count
    let rc ← readCode code
    let rcText ← readText text
    let lines ← readBody body
    some (rb, ⟨rc, rcText, lines⟩)
  | _ => none

theorem behind_append (p x : List UInt8) : behind p (p ++ x) = some x := by
  rw [behind, if_pos (List.prefix_append p x), List.drop_left]

theorem readNumber_decimal (opening : List UInt8) (n : Nat) {b : UInt8} (hb : digit b = false)
    (x : List UInt8) : readNumber opening (opening ++ decimal n ++ b :: x) = some n := by
  have hstop : (decimal n ++ b :: x).takeWhile digit = decimal n := by
    rw [List.takeWhile_append_of_pos (digits_decimal n), List.takeWhile_cons_of_neg (by simp [hb]),
      List.append_nil]
  rw [readNumber, List.append_assoc, behind_append, Option.map_some, hstop, number_decimal]

theorem readNumber_read (n : Nat) : readNumber (ascii "Read ")
    (ascii "Read " ++ decimal n ++ ascii " bytes from the modem") = some n :=
  readNumber_decimal (ascii "Read ") n (b := 32) (by decide) (ascii "bytes from the modem")

theorem readCode_line (c : ResultCode) :
    readCode (ascii "Response result code: " ++ ascii (resultCodeName c)) = some c := by
  rw [readCode, behind_append]
  cases c <;> decide

theorem readText_empty : readText (ascii "Response result text is empty") = some [] := if_pos rfl

theorem readText_line (t : List UInt8) :
    readText (ascii "Response result text: " ++ t) = some t := by
  have hne : ascii "Response result text: " ++ t ≠ ascii "Response result text is empty" := by
    intro h
    have htake := congrArg (List.take 21) h
    rw [List.take_append_of_le_length (by decide)] at htake
    exact absurd htake (by decide)
  rw [readText, if_neg hne, behind_append]

theorem readBody_lines {body : List (List UInt8)} (hne : body ≠ []) :
    readBody (body.map fun line => ascii "Response body: " ++ line) = some body := by
  have hother : (body.map fun line => ascii "Response body: " ++ line) ≠
      [ascii "Response body is empty"] := by
    intro h
    obtain ⟨line, rest, rfl⟩ := List.exists_cons_of_ne_nil hne
    have hline := (List.cons.inj h).1
    have htake := congrArg (List.take 14) hline
    rw [List.take_append_of_le_length (by decide)] at htake
    exact absurd htake (by decide)
  rw [readBody, if_neg hother]
  clear hother hne
  induction body with
  | nil => rfl
  | cons line body ih =>
    rw [List.map_cons, List.mapM_cons, behind_append, ih]
    rfl

/-- No line break inside of a text or a line. -/
structure Response.Unbroken (x : Response) : Prop where
  text : lf ∉ x.rcText
  lines : ∀ line ∈ x.body, lf ∉ line

theorem behind_eq_some {p x y : List UInt8} (h : behind p x = some y) : p ++ y = x := by
  rw [behind] at h
  split at h
  · next hp =>
    obtain ⟨z, rfl⟩ := hp
    rw [List.drop_left] at h
    rw [Option.some.inj h]
  · cases h

/-! ## A presentation is read back -/

/-- The lines of a presentation. -/
def presentedLines (rb : Nat) (x : Response) : List (List UInt8) :=
  (ascii "Read " ++ decimal rb ++ ascii " bytes from the modem") ::
    (ascii "Response result code: " ++ ascii (resultCodeName x.rc)) ::
    (if x.rcText = [] then ascii "Response result text is empty"
      else ascii "Response result text: " ++ x.rcText) ::
    (if x.body = [] then [ascii "Response body is empty"]
      else x.body.map fun line => ascii "Response body: " ++ line)

theorem presented_lines (rb : Nat) (x : Response) :
    presented rb x = (presentedLines rb x).flatMap (· ++ [lf]) := by
  have hcount : ascii " bytes from the modem\n" = ascii " bytes from the modem" ++ [lf] := by decide
  have hend : ascii "\n" = [lf] := by decide
  have hnoText : ascii "Response result text is empty\n" =
      ascii "Response result text is empty" ++ [lf] := by decide
  have hnoBody : ascii "Response body is empty\n" = ascii "Response body is empty" ++ [lf] := by
    decide
  have htext : (if x.rcText = [] then ascii "Response result text is empty\n"
      else ascii "Response result text: " ++ x.rcText ++ ascii "\n") =
      (if x.rcText = [] then ascii "Response result text is empty"
        else ascii "Response result text: " ++ x.rcText) ++ [lf] := by
    split
    · exact hnoText
    · rw [hend]
  have hbody : (if x.body = [] then ascii "Response body is empty\n"
      else x.body.flatMap fun line => ascii "Response body: " ++ line ++ ascii "\n") =
      (if x.body = [] then [ascii "Response body is empty"]
        else x.body.map fun line => ascii "Response body: " ++ line).flatMap (· ++ [lf]) := by
    split
    · rw [hnoBody, List.flatMap_singleton]
    · rw [List.flatMap_map, hend]
  rw [presented, htext, hbody, hcount, hend, presentedLines]
  simp only [List.flatMap_cons, List.append_assoc]

theorem lf_in_line {x : List UInt8} : [lf] <:+: x ↔ lf ∈ x := List.singleton_infix_iff lf x

theorem decimal_unbroken (n : Nat) : lf ∉ decimal n := fun h =>
  absurd (digits_decimal n lf h) (by decide)

theorem unbroken_append {p q : List UInt8} (hp : lf ∉ p) (hq : lf ∉ q) : lf ∉ p ++ q := fun h =>
  (List.mem_append.mp h).elim hp hq

theorem readLine_unbroken (rb : Nat) :
    lf ∉ ascii "Read " ++ decimal rb ++ ascii " bytes from the modem" :=
  unbroken_append (unbroken_append (by decide) (decimal_unbroken rb)) (by decide)

theorem presentedLines_unbroken {rb : Nat} {x : Response} (h : x.Unbroken) :
    ∀ line ∈ presentedLines rb x, lf ∉ line := by
  have hname : lf ∉ ascii (resultCodeName x.rc) := by cases x.rc <;> decide
  rw [presentedLines]
  simp only [List.forall_mem_cons]
  refine ⟨readLine_unbroken rb, unbroken_append (by decide) hname, ?_, ?_⟩
  · split
    · decide
    · exact unbroken_append (by decide) h.text
  · split
    · exact List.forall_mem_singleton.mpr (by decide)
    · intro line hline
      obtain ⟨l, hl, rfl⟩ := List.mem_map.mp hline
      exact unbroken_append (by decide) (h.lines l hl)

theorem readBack_presented {rb : Nat} {x : Response} (h : x.Unbroken) :
    readBack (presented rb x) = some (rb, x) := by
  have hlines : lines [lf] (presented rb x) = (presentedLines rb x, []) := by
    rw [presented_lines, ← List.append_nil (List.flatMap _ _)]
    apply lines_framed (List.cons_ne_nil lf []) (unbordered_singleton lf)
    · intro line hline
      rw [lf_in_line]
      exact presentedLines_unbroken h line hline
    · rfl
  rw [readBack, hlines, presentedLines]
  simp only [readNumber_read, readCode_line]
  have htext : readText (if x.rcText = [] then ascii "Response result text is empty"
      else ascii "Response result text: " ++ x.rcText) = some x.rcText := by
    split
    · next hnil => rw [readText_empty, hnil]
    · exact readText_line x.rcText
  have hbody : readBody (if x.body = [] then [ascii "Response body is empty"]
      else x.body.map fun line => ascii "Response body: " ++ line) = some x.body := by
    split
    · next hnil => rw [readBody, if_pos rfl, hnil]
    · next hne => exact readBody_lines hne
  rw [htext, hbody]
  rfl

theorem readText_unbroken {x t : List UInt8} (h : readText x = some t) (hx : lf ∉ x) : lf ∉ t := by
  rw [readText] at h
  split at h
  · rw [← Option.some.inj h]
    exact List.not_mem_nil
  · rw [← behind_eq_some h] at hx
    exact fun hlf => hx (List.mem_append_right _ hlf)

theorem readBody_unbroken {xs body : List (List UInt8)} (h : readBody xs = some body)
    (hxs : ∀ x ∈ xs, lf ∉ x) : ∀ line ∈ body, lf ∉ line := by
  rw [readBody] at h
  split at h
  · rw [← Option.some.inj h]
    exact List.forall_mem_nil _
  · clear * - h hxs
    induction xs generalizing body with
    | nil =>
      rw [← Option.some.inj h]
      exact List.forall_mem_nil _
    | cons x xs ih =>
      obtain ⟨hx, hxs⟩ := List.forall_mem_cons.mp hxs
      simp only [List.mapM_cons, Option.bind_eq_bind, Option.bind_eq_some_iff,
        Option.pure_def, Option.some.injEq] at h
      obtain ⟨line, hline, body, hbody, rfl⟩ := h
      refine List.forall_mem_cons.mpr ⟨fun hlf => hx ?_, ih hxs hbody⟩
      rw [← behind_eq_some hline]
      exact List.mem_append_right _ hlf

theorem readBack_unbroken {c : List UInt8} {rb : Nat} {x : Response}
    (h : readBack c = some (rb, x)) : x.Unbroken := by
  have hfree : ∀ line ∈ (lines [lf] c).1, lf ∉ line := fun line hline hlf =>
    lines_free (List.cons_ne_nil lf []) (unbordered_singleton lf) line hline (lf_in_line.mpr hlf)
  rw [readBack] at h
  split at h
  · next count code text body hlines =>
    rw [hlines] at hfree
    simp only [List.forall_mem_cons] at hfree
    obtain ⟨_, _, htextFree, hbodyFree⟩ := hfree
    simp only [Option.bind_eq_bind, Option.bind_eq_some_iff, Option.some.injEq] at h
    obtain ⟨_, _, _, _, t, ht, b, hb, rfl, rfl⟩ := h
    exact ⟨readText_unbroken ht htextFree, readBody_unbroken hb hbodyFree⟩
  · cases h

/-- A reader that takes the output line by line reads back what was printed of a response exactly
when no text or line of it holds a line feed of its own. Two such responses that are printed alike
are the same, with the same count. -/
theorem presented_reads_iff (rb : Nat) (x : Response) :
    (readBack (presented rb x) = some (rb, x) ↔ x.Unbroken) ∧
      (x.Unbroken → ∀ rb' y, y.Unbroken → presented rb' y = presented rb x → rb' = rb ∧ y = x) := by
  refine ⟨⟨readBack_unbroken, readBack_presented⟩, fun hx rb' y hy heq => ?_⟩
  have hread : readBack (presented rb' y) = some (rb', y) := readBack_presented hy
  rw [heq, readBack_presented hx] at hread
  obtain ⟨rfl, rfl⟩ := Prod.mk.inj (Option.some.inj hread)
  exact ⟨rfl, rfl⟩

theorem presented_reads_cms :
    let x : Response := ⟨.cmsError, ascii "500", [ascii "+CMGS: 1", ascii "Read 1"]⟩
    readBack (presented 42 x) = some (42, x) :=
  (presented_reads_iff 42 _).1.mpr ⟨by decide, by decide⟩

/-- With a line feed in it, one line is printed as two are. -/
example : presented 9 ⟨.none, [], [ascii "a\nResponse body: b"]⟩ =
    presented 9 ⟨.none, [], [ascii "a", ascii "b"]⟩ := by decide +kernel

/-- What `execute` prints: nothing of a response when the write or the read has failed. -/
def Exchange.printed {η : Type} (x : Exchange η) : List UInt8 :=
  if x.unwritten then []
  else sentLine (Ringbeller.write x.command x.before.puts).count ++
    if x.reply.ec then [] else presented x.reply.count x.reply.after

/-- What a run of a program prints of its exchanges. -/
def Program.printed {η : Type} (p : Program η) (port : Port) (n : Nat) : List UInt8 :=
  (p.exchanges port n).flatMap Exchange.printed

/-- The count that the handler of a call is given. -/
def Call.count {η : Type} (c : Call η) : Nat :=
  match c.op with
  | .reading held op =>
    (asyncReadCompletes held op ⟨c.before.turns, c.before.buf, c.before.response⟩).1.count
  | .writing op => (asyncWriteCompletes op c.before.puts).count

/-- The response as the handler of a call finds it. -/
def Call.response {η : Type} (c : Call η) : Response :=
  match c.op with
  | .reading held op =>
    (asyncReadCompletes held op ⟨c.before.turns, c.before.buf, c.before.response⟩).1.after
  | .writing _ => c.before.response

namespace AtCops

def awaiting : List UInt8 := ascii "Awaiting response, it may take a while..\n"

/-- What the handlers print. -/
def prints : Handler → Bool → Nat → Response → List UInt8
  | .readHandler, ec, rb, response => if ec then [] else presented rb response
  | .writeHandler, ec, wb, _ => if ec then [] else sentLine wb ++ awaiting

def printed (port : Port) (n : Nat) : List UInt8 :=
  (program.calls port n).flatMap fun c => prints c.handler c.ec c.count c.response

end AtCops

/-! ## A message on the console -/

/-- The scenarios of one command. -/
inductive Single where
  | atOk
  | ati
  | atCops
  deriving Repr, DecidableEq

namespace Single

def request : Single → Request
  | atOk => makeAt
  | ati => makeAti
  | atCops => makeAtCopsRead

def printed : Single → Port → Nat → List UInt8
  | atOk => AtOk.program.printed
  | ati => Ati.program.printed
  | atCops => AtCops.printed

end Single

end Ringbeller
