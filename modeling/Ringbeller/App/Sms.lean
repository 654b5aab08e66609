import Ringbeller.App.Session

/-!
# Receiving and sending short messages

`do_receive_sms.cpp` and `do_send_sms.cpp`. Progress and error reports that nothing
depends on are left out of the log.
-/

namespace Ringbeller
set_option autoImplicit false

open Script

namespace ReceiveSms

inductive Handler where
  | readHandler
  deriving Repr, DecidableEq

def handle : Handler → Bool → Nat → Session Handler → Session Handler
  | .readHandler, ec, rb, s =>
    if ec then s
    else
      let s := s.consume rb
      if frontMarked "+CMT:" s.response then s.print "SMS received."
      else
        (s.print ("Received message is not an unsolicited +CMT notification." ++
          " Waiting for another unsolicited message\n")).asyncRead .readHandler

def setup : List Request :=
  [makeAtCmgfWrite (ascii "1"), makeAtCscsWrite (ascii "\"GSM\""),
    makeAtCnmiWrite (ascii "1,2,0,0,0")]

end ReceiveSms

/-- A run that the user interrupts after `n` handler calls, if it has not ended by then. -/
def runReceiveSms (port : Port) (n : Nat) : Option Int × Session ReceiveSms.Handler :=
  sequence
    ([openPort port] ++ ReceiveSms.setup.map execute ++
      [does (·.asyncRead .readHandler), run ReceiveSms.handle n])
    (.start port)

namespace SendSms

inductive Handler where
  | textWriteHandler
  | promptReadHandler
  | cmgsWriteHandler
  deriving Repr, DecidableEq

def handle (smsText : List UInt8) : Handler → Bool → Nat → Session Handler → Session Handler
  | .textWriteHandler, _, _, s => s
  | .promptReadHandler, ec, rb, s =>
    if ec then s
    else
      let s := s.consume rb
      if s.response.rc = .none ∧ frontMarked "> " s.response then
        (s.print "Prompt received, sending SMS body\n").asyncWriteText smsText .textWriteHandler
      else s
  | .cmgsWriteHandler, ec, _, s =>
    if ec then s else s.asyncRead .promptReadHandler

end SendSms

def runSendSms (port : Port) (da smsText : List UInt8) (n : Nat) :
    Option Int × Session SendSms.Handler :=
  sequence
    [openPort port, execute (makeAtCmgfWrite (ascii "1")),
      execute (makeAtCscsWrite (ascii "\"GSM\"")),
      does (·.asyncWrite (makeAtCmgsWrite (ascii "\"" ++ da ++ ascii "\"")) .cmgsWriteHandler),
      run (SendSms.handle smsText) n]
    (.start port)

end Ringbeller
