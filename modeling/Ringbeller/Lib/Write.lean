import Ringbeller.Asio.Write
import Ringbeller.Lib.Message

/-!
# Writing a request

`write.hpp`, and the requests of `messages/` that the scenarios send.
-/

namespace Ringbeller
set_option autoImplicit false

open Asio

def toString (msg : Request) : List UInt8 :=
  let line :=
    if msg.isSet then ascii "S" ++ msg.command ++ ascii "=" ++ msg.args
    else if msg.isXTest then ascii "+" ++ msg.command ++ ascii "=?"
    else if msg.isXRead then ascii "+" ++ msg.command ++ ascii "?"
    else if msg.isXWrite then ascii "+" ++ msg.command ++ ascii "=" ++ msg.args
    else if msg.isXExec then ascii "+" ++ msg.command
    else msg.command ++ msg.args
  ascii "AT" ++ line ++ ascii "\r\n"

def write (msg : Request) (puts : List (Put UInt8)) : Written UInt8 := Asio.write (toString msg) puts

/-- The string lives until the call returns. -/
def asyncWrite (msg : Request) (puts : List (Put UInt8)) :
    Writing × List UInt8 × List (Put UInt8) := Asio.asyncWrite (toString msg) puts

/-- The text and a Ctrl-Z. -/
def asyncWriteText (text : List UInt8) (puts : List (Put UInt8)) :
    Writing × List UInt8 × List (Put UInt8) := Asio.asyncWrite (text ++ [26]) puts

def basicRequest (command args : List UInt8) : Request :=
  ⟨false, false, false, false, false, command, args⟩

def writeRequest (command args : List UInt8) : Request :=
  ⟨false, false, false, true, false, command, args⟩

def makeAt : Request := basicRequest [] []

def makeAta : Request := basicRequest (ascii "A") []

def makeAtd (params : List UInt8) : Request := basicRequest (ascii "D") params

def makeAth : Request := basicRequest (ascii "H") []

def makeAtCmgfWrite (params : List UInt8) : Request := writeRequest (ascii "CMGF") params

def makeAtCmgsWrite (params : List UInt8) : Request := writeRequest (ascii "CMGS") params

def makeAtCnmiWrite (params : List UInt8) : Request := writeRequest (ascii "CNMI") params

def makeAtCscsWrite (params : List UInt8) : Request := writeRequest (ascii "CSCS") params

def makeAtQcfgWrite (params : List UInt8) : Request := writeRequest (ascii "QCFG") params

def makeAtQpcmvWrite (params : List UInt8) : Request := writeRequest (ascii "QPCMV") params

end Ringbeller
