import Ringbeller.App.Console
import Ringbeller.App.Exceptions

/-!
# The process

`main.cpp`: the actions of the arguments, the scenario that is run, and how the process ends. The
settings of the port and of the logger are left out, but not the exceptions of their setters.
-/

namespace Ringbeller
set_option autoImplicit false

open Asio Script Session

/-! ## The arguments -/

/-- The variables that the arguments set. -/
structure Arguments where
  doAtOk : Bool
  doAti : Bool
  doAtCops : Bool
  doRcvSms : Bool
  doSendSms : Bool
  doMakeCall : Bool
  doRcvCall : Bool
  da : List UInt8
  smsText : List UInt8
  deriving Repr, DecidableEq

def Arguments.initial : Arguments :=
  ⟨false, false, false, false, false, false, false, [], ascii "Feel the bern!"⟩

/-- `isspace`. -/
def space (b : UInt8) : Bool := b == 32 || (9 ≤ b && b ≤ 13)

/-- `std::stoi`: `none` where it throws, as there is no number or no `int` of that value. -/
def stoi (s : List UInt8) : Option Int :=
  let x := s.dropWhile space
  let signed := x.head? = some 43 ∨ x.head? = some 45
  let digits := (if signed then x.tail else x).takeWhile digit
  let value : Int := if x.head? = some 45 then -number digits else number digits
  if digits = [] ∨ value < -2147483648 ∨ 2147483647 < value then none else some value

/-- An argument that `clipp` has matched, with the text that its action is called with. Those whose
actions set nothing of the above and cannot throw are left out. -/
inductive Argument where
  | atOk
  | ati
  | atCops
  | rcvSms
  | sendSms
  | makeCall
  | rcvCall
  | da (s : List UInt8)
  | smsText (s : List UInt8)
  | baudRate (s : List UInt8)
  | characterSize (s : List UInt8)
  deriving Repr, DecidableEq

/-- What the action does; `none` is an exception. The constructor of `character_size` throws as well
unless it `takes` the size. -/
def Argument.act (takes : Int → Bool) (a : Arguments) : Argument → Option Arguments
  | .atOk => some { a with doAtOk := true }
  | .ati => some { a with doAti := true }
  | .atCops => some { a with doAtCops := true }
  | .rcvSms => some { a with doRcvSms := true }
  | .sendSms => some { a with doSendSms := true }
  | .makeCall => some { a with doMakeCall := true }
  | .rcvCall => some { a with doRcvCall := true }
  | .da s => some { a with da := s }
  | .smsText s => some { a with smsText := s }
  | .baudRate s => (stoi s).map fun _ => a
  | .characterSize s => ((stoi s).filter takes).map fun _ => a

/-- What `clipp::parse` makes of the command line: the actions of the arguments that it has matched
are called in order, also when the line as a whole is not valid. -/
structure Parsed where
  matched : List Argument
  valid : Bool
  deriving Repr, DecidableEq

def Parsed.arguments (takes : Int → Bool) (parsed : Parsed) : Option Arguments :=
  parsed.matched.foldlM (Argument.act takes) .initial

/-- The first of the commands, in the order of the tests. -/
def Arguments.verb (a : Arguments) : Option Verb :=
  if a.doAtOk then some .atOk
  else if a.doAti then some .ati
  else if a.doAtCops then some .atCops
  else if a.doRcvSms then some .rcvSms
  else if a.doSendSms then some (.sendSms a.da a.smsText)
  else if a.doRcvCall then some .rcvCall
  else if a.doMakeCall then some (.makeCall a.da)
  else none

def Verb.headline : Verb → List UInt8
  | .atOk => ascii "Executing AT/OK scenario\n"
  | .ati => ascii "Executing ATI scenario\n"
  | .atCops => ascii "Executing AT+COPS scenario\n"
  | .rcvSms => ascii "Executing \"Receive SMS\" scenario\n"
  | .sendSms da smsText => ascii "Executing \"Send SMS\" scenario\nSMS target: " ++ da ++
      ascii "\nSMS text: " ++ smsText ++ ascii "\n"
  | .makeCall da => ascii "Executing \"Make voice call\" scenario\nVoice call target: " ++ da ++
      ascii "\n"
  | .rcvCall => ascii "Executing \"Receive voice call\" scenario\n"

def doneLine (rv : Int) : List UInt8 :=
  ascii "DONE with status=" ++ (if rv < 0 then ascii "-" else []) ++ decimal rv.natAbs ++ ascii "\n"

/-- What `main` returns, unless it is interrupted or an exception leaves it, and what it prints
before and behind the scenario. -/
structure Process where
  status : Option Int
  before : List UInt8
  behind : List UInt8
  deriving Repr, DecidableEq

/-- `manPage` is what `clipp` makes of the grammar of the arguments. -/
def main (manPage : List UInt8) (takes : Int → Bool) (parsed : Parsed) (port : Port) (n : Nat) :
    Process :=
  match parsed.arguments takes with
  | none => ⟨none, [], []⟩
  | some a =>
    if !parsed.valid then ⟨some (-1), manPage, []⟩
    else
      match a.verb with
      | none => ⟨some 0, [], doneLine 0⟩
      | some v =>
        match (v.run port n).1 with
        | none => ⟨none, v.headline, []⟩
        | some rv => ⟨some rv, v.headline, doneLine rv⟩

/-! ## The exceptions of the arguments -/

/-- The number of a setting cannot be read, or not be set. -/
def Argument.Throws (takes : Int → Bool) : Argument → Prop
  | .baudRate s => stoi s = none
  | .characterSize s => ∀ size, stoi s = some size → takes size = false
  | _ => False

theorem Argument.act_eq_none (takes : Int → Bool) (a : Arguments) (x : Argument) :
    x.act takes a = none ↔ x.Throws takes := by
  cases x with
  | baudRate s => simp only [act, Throws, Option.map_eq_none_iff]
  | characterSize s =>
    simp only [act, Throws, Option.map_eq_none_iff, Option.filter_eq_none_iff, Bool.not_eq_true]
  | _ => simp [act, Throws]

theorem Parsed.arguments_eq_none (takes : Int → Bool) (parsed : Parsed) :
    parsed.arguments takes = none ↔ ∃ x ∈ parsed.matched, x.Throws takes := by
  rw [arguments]
  generalize Arguments.initial = a
  induction parsed.matched generalizing a with
  | nil => simp
  | cons x xs ih =>
    rw [List.foldlM_cons, List.exists_mem_cons_iff, ← x.act_eq_none takes a]
    cases hx : x.act takes a with
    | none => simp
    | some b =>
      rw [Option.bind_eq_bind, Option.bind_some, ih]
      simp

/-- The command line is valid and selects the scenario. -/
structure Parsed.Selects (takes : Int → Bool) (parsed : Parsed) (v : Verb) : Prop where
  valid : parsed.valid = true
  verb : (parsed.arguments takes).bind Arguments.verb = some v

/-! ## The status of the process -/

/-- What a scenario alone returns. -/
theorem Verb.returns (v : Verb) (port : Port) (n : Nat) :
    let r := v.run port (port.calls + n)
    (r.1 = some (-1) ↔ port.opens = false ∨
      ∃ x ∈ v.program.exchanges port (port.calls + n), x.failed = true) ∧
    (r.1 = none ↔ v.isCall = true ∧ ∃ x ∈ r.2.waits, Unparsable x) ∧
    (r.1 = some (-1) ∨ r.1 = some 0 ∨ r.1 = none) := by
  obtain ⟨hfailed, hreturns⟩ := verb_status v port (port.calls + n)
  obtain ⟨hsame, hthrown⟩ := v.ends port n
  refine ⟨hfailed, ?_, hreturns⟩
  rw [← verb_thrown v port (port.calls + n), hsame]
  exact hthrown

/-- Whatever the arguments and the modem, on a stream that ends: given calls enough for what the
modem sends, the process returns 0 or -1 unless an exception leaves it. It returns -1 exactly when
the arguments are not valid, the port cannot be opened or an `execute` of the scenario has failed,
whatever becomes of asynchronous operations. An exception leaves it exactly when a setter of the
port's settings throws, on a valid line or not, or a call scenario has waited for +QCFG and has
found a line of it with less than two characters behind the colon. -/
theorem main_returns (manPage : List UInt8) (takes : Int → Bool) (parsed : Parsed) (port : Port)
    (n : Nat) :
    let r := (main manPage takes parsed port (port.calls + n)).status
    (r = some (-1) ↔
      ((∀ x ∈ parsed.matched, ¬ x.Throws takes) ∧ parsed.valid = false) ∨
      ∃ v, parsed.Selects takes v ∧ (port.opens = false ∨
        ∃ x ∈ v.program.exchanges port (port.calls + n), x.failed = true)) ∧
    (r = none ↔ (∃ x ∈ parsed.matched, x.Throws takes) ∨
      ∃ v, parsed.Selects takes v ∧ v.isCall = true ∧
        ∃ x ∈ (v.run port (port.calls + n)).2.waits, Unparsable x) ∧
    (r = some (-1) ∨ r = some 0 ∨ r = none) := by
  have hthrows : (∀ x ∈ parsed.matched, ¬ x.Throws takes) ↔ parsed.arguments takes ≠ none := by
    rw [Ne, parsed.arguments_eq_none takes]
    simp
  have hselects (v : Verb) : parsed.Selects takes v ↔
      parsed.valid = true ∧ (parsed.arguments takes).bind Arguments.verb = some v :=
    ⟨fun h => ⟨h.valid, h.verb⟩, fun h => ⟨h.1, h.2⟩⟩
  rw [hthrows, ← parsed.arguments_eq_none takes]
  simp only [hselects]
  cases harguments : parsed.arguments takes with
  | none =>
    have hstatus : (main manPage takes parsed port (port.calls + n)).status = none := by
      simp only [main, harguments]
    rw [hstatus]
    simp
  | some a =>
    cases hvalid : parsed.valid with
    | false =>
      have hstatus : (main manPage takes parsed port (port.calls + n)).status = some (-1) := by
        simp only [main, harguments, hvalid, Bool.not_false, if_true]
      rw [hstatus]
      simp
    | true =>
      rw [Option.bind_some]
      cases hv : a.verb with
      | none =>
        have hstatus : (main manPage takes parsed port (port.calls + n)).status = some 0 := by
          simp [main, harguments, hvalid, hv]
        rw [hstatus]
        simp
      | some v =>
        have hstatus : (main manPage takes parsed port (port.calls + n)).status =
            (v.run port (port.calls + n)).1 := by
          simp only [main, harguments, hvalid, hv, Bool.not_true, Bool.false_eq_true, if_false]
          cases (v.run port (port.calls + n)).1 <;> rfl
        have hthis {P : Verb → Prop} :
            (∃ v', (true = true ∧ some v = some v') ∧ P v') ↔ P v := by simp
        obtain ⟨hfailed, hthrown, hreturns⟩ := v.returns port n
        rw [hstatus, hthis, hthis, ← hfailed, ← hthrown]
        exact ⟨by simp, by simp, hreturns⟩

/-- `at_ok` with a `--baud-rate` that is no `int`. -/
example (manPage : List UInt8) (takes : Int → Bool) (port : Port) (n : Nat) :
    (main manPage takes ⟨[.atOk, .baudRate (ascii "9999999999")], true⟩ port n).status = none := by
  have hrate : stoi (ascii "9999999999") = none := by decide +kernel
  simp [main, Parsed.arguments, Argument.act, hrate]

end Ringbeller
