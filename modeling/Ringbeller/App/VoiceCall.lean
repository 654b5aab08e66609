import Ringbeller.App.Session

/-!
# Making and receiving voice calls

`do_make_vcall.cpp` and `do_receive_vcall.cpp`. Both wait for the +QCFG notification with
the same handler; the second one waits once more, for the call.
-/

namespace Ringbeller
set_option autoImplicit false

open Script

namespace VoiceCall

inductive Handler where
  | qcfgReadHandler
  | callReadHandler
  deriving Repr, DecidableEq

/-- `usb_cfg = line.substr(7); usb_cfg.back() = '1';`. The first throws when the line is
shorter; the second is undefined on an empty string, which ends the run here as well. -/
def takeUsbCfg (line : List UInt8) (s : Session Handler) : Session Handler :=
  if line.length < 7 ∨ line.drop 7 = [] then { s with thrown := true }
  else { s with usbCfg := (line.drop 7).dropLast ++ ascii "1" }

def handle : Handler → Bool → Nat → Session Handler → Session Handler
  | .qcfgReadHandler, ec, rb, s =>
    if ec then s
    else
      let s := s.consume rb
      if frontMarked "+QCFG:" s.response then
        takeUsbCfg (s.response.body.headD []) (s.print "+QCFG received.\n")
      else
        (s.print ("Received message is not an unsolicited +QCFG notification." ++
          " Waiting for another URC\n")).asyncRead .qcfgReadHandler
  | .callReadHandler, ec, rb, s =>
    if ec then s
    else
      let s := s.consume rb
      let s :=
        if frontMarked "RING" s.response then
          (((s.print "Received RING, respond with ATA\n").write makeAta).2).print
            "You can capture PCM audio now\n"
        else s
      s.asyncRead .qcfgReadHandler

/-- What both scenarios begin with: the query, the wait for +QCFG, and three commands. -/
def configure (port : Port) (n : Nat) : List (Step (Session Handler)) :=
  [openPort port, execute (makeAtQcfgWrite (ascii "\"USBCFG\"")),
    does (·.asyncRead .qcfgReadHandler), run handle n,
    fun s => execute (makeAtQcfgWrite s.usbCfg) s,
    execute (makeAtQpcmvWrite (ascii "1,2")), execute (makeAtCscsWrite (ascii "\"GSM\""))]

end VoiceCall

/-- The address is not formatted into the dial command. -/
def runMakeVcall (port : Port) (_da : List UInt8) (n : Nat) :
    Option Int × Session VoiceCall.Handler :=
  sequence
    (VoiceCall.configure port n ++
      [execute (makeAtd (ascii "\"{}\";")), execute makeAth,
        execute (makeAtQpcmvWrite (ascii "0"))])
    (.start port)

def runReceiveVcall (port : Port) (n : Nat) : Option Int × Session VoiceCall.Handler :=
  sequence
    (VoiceCall.configure port n ++
      [does (·.asyncRead .callReadHandler), run VoiceCall.handle n,
        execute (makeAtQpcmvWrite (ascii "0"))])
    (.start port)

end Ringbeller
