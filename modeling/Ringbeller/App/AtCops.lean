import Ringbeller.App.Session

/-!
# Asking for the operator

`do_at_cops.cpp`. The only scenario whose one message is written and read asynchronously. What
the handlers print of it is left out of the log.
-/

namespace Ringbeller
set_option autoImplicit false

open Script

def makeAtCopsRead : Request := ⟨false, false, true, false, false, ascii "COPS", []⟩

namespace AtCops

inductive Handler where
  | readHandler
  | writeHandler
  deriving Repr, DecidableEq

def handle : Handler → Bool → Nat → Session Handler → Session Handler
  | .readHandler, _, _, s => s
  | .writeHandler, ec, _, s => if ec then s else s.asyncRead .readHandler

end AtCops

def runAtCops (port : Port) (n : Nat) : Option Int × Session AtCops.Handler :=
  sequence [openPort port, does (·.asyncWrite makeAtCopsRead .writeHandler), run AtCops.handle n]
    (.start port)

end Ringbeller
