import Ringbeller.Lib.Message
import Ringbeller.X3.Delimited

/-!
# The response grammar

`parser.cpp`: `grammar_spec` over its three setters, and the two ways to call it. The
nested `auto` constants of the source are definitions of the namespace `Grammar`.
-/

namespace Ringbeller
set_option autoImplicit false

open X3

def cr : UInt8 := 13

def lf : UInt8 := 10

/-- `ascii::blank`: a space or a tab. -/
def blank (b : UInt8) : Bool := b == 32 || b == 9

namespace Grammar

section Rules
variable {ε : Type}

def crlf : Parser UInt8 ε Unit := lit blank [cr, lf]

def text : Parser UInt8 ε (List UInt8) := raw blank (plus (diff (char blank) (lit blank [cr])))

variable (rcSetter : ResultCode → ε) (rcTextSetter bodyAppender : List UInt8 → ε)

/-- `lit(s)[set_rc]`. -/
def set (s : String) (rc : ResultCode) : Parser UInt8 ε Unit :=
  act (lit blank (ascii s)) fun _ => rcSetter rc

def ok : Parser UInt8 ε Unit := set rcSetter "OK" .ok

def connect : Parser UInt8 ε Unit :=
  seq (set rcSetter "CONNECT" .connect) (opt (act text rcTextSetter))

def ring : Parser UInt8 ε Unit := set rcSetter "RING" .ring

def noCarrier : Parser UInt8 ε Unit := set rcSetter "NO CARRIER" .noCarrier

def error : Parser UInt8 ε Unit := set rcSetter "ERROR" .error

def noDialtone : Parser UInt8 ε Unit := set rcSetter "NO DIALTONE" .noDialtone

def busy : Parser UInt8 ε Unit := set rcSetter "BUSY" .busy

def noAnswer : Parser UInt8 ε Unit := set rcSetter "NO ANSWER" .noAnswer

def cmeError : Parser UInt8 ε Unit :=
  seq (set rcSetter "+CME ERROR: " .cmeError) (act text rcTextSetter)

def cmsError : Parser UInt8 ε Unit :=
  seq (set rcSetter "+CMS ERROR: " .cmsError) (act text rcTextSetter)

def commandNotSupport : Parser UInt8 ε Unit :=
  set rcSetter "COMMAND NOT SUPPORT" .commandNotSupport

def tooManyParameters : Parser UInt8 ε Unit :=
  set rcSetter "TOO MANY PARAMETERS" .tooMayParameters

def prompt : Parser UInt8 ε Unit := seq crlf (act (raw blank (lit blank (ascii "> "))) bodyAppender)

def responseLine : Parser UInt8 ε Unit := seq (act text bodyAppender) crlf

/-- The alternatives between the two CRLF of `FINAL_RESULT_CODE`, in the order of the source. -/
def codes : List (Parser UInt8 ε Unit) :=
  [ok rcSetter, connect rcSetter rcTextSetter, ring rcSetter, noCarrier rcSetter, error rcSetter,
    noDialtone rcSetter, busy rcSetter, noAnswer rcSetter,
    cmeError rcSetter rcTextSetter, cmsError rcSetter rcTextSetter,
    commandNotSupport rcSetter, tooManyParameters rcSetter]

def finalResultCode : Parser UInt8 ε Unit :=
  seq (seq crlf (alts (codes rcSetter rcTextSetter))) crlf

def response : Parser UInt8 ε Unit :=
  alts
    [finalResultCode rcSetter rcTextSetter,
      seq (seq crlf (plus (responseLine bodyAppender)))
        (opt (finalResultCode rcSetter rcTextSetter)),
      prompt bodyAppender]

end Rules

end Grammar

def grammarSpec {ε : Type} (rcSetter : ResultCode → ε)
    (rcTextSetter bodyAppender : List UInt8 → ε) : Parser UInt8 ε Unit :=
  Grammar.response rcSetter rcTextSetter bodyAppender

def nop1 (_ : ResultCode) : Unit := ()

def nop2 (_ : List UInt8) : Unit := ()

/-- The returned iterator is the part of the range behind it. -/
def matchCondition (range : List UInt8) : List UInt8 × Bool :=
  let r := phraseParse blank (grammarSpec nop1 nop2 nop2) range
  (r.first, r.ok)

/-- The three output parameters of `parse_response`. -/
structure Outputs where
  resultCode : ResultCode
  resultText : List UInt8
  body : List (List UInt8)
  deriving Repr, DecidableEq

namespace Outputs

/-- What the callers pass: `none`, an empty text and an empty body. -/
def fresh : Outputs := ⟨.none, [], []⟩

def rcSetter (rc : ResultCode) (o : Outputs) : Outputs := { o with resultCode := rc }

def rcTextSetter (val : List UInt8) (o : Outputs) : Outputs := { o with resultText := val }

def bodyAppender (val : List UInt8) (o : Outputs) : Outputs := { o with body := o.body ++ [val] }

end Outputs

def outputReply (range : List UInt8) : Reply UInt8 (Outputs → Outputs) Unit :=
  phraseParse blank
    (grammarSpec Outputs.rcSetter Outputs.rcTextSetter Outputs.bodyAppender) range

def parseResponse (range : List UInt8) (o : Outputs) : (List UInt8 × Bool) × Outputs :=
  let r := outputReply range
  ((r.first, r.ok), perform r.ran o)

/-- The outputs that the actions of the successful derivation alone would give. -/
def derivedOutputs (range : List UInt8) (o : Outputs) : Outputs :=
  perform (outputReply range).kept o

end Ringbeller
