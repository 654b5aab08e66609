import Mathlib.Data.List.Basic

/-!
# Requests and responses

`message.hpp`. A `char` is a byte and a `std::string` a list of bytes.
-/

namespace Ringbeller
set_option autoImplicit false

def ascii (s : String) : List UInt8 := s.toList.map fun c => c.toNat.toUInt8

inductive ResultCode where
  | none
  | ok
  | connect
  | ring
  | noCarrier
  | error
  | noDialtone
  | busy
  | noAnswer
  | cmeError
  | cmsError
  | commandNotSupport
  | tooMayParameters
  deriving Repr, DecidableEq

/-- The boolean template parameters of `request` are fields here. -/
structure Request where
  isSet : Bool
  isXTest : Bool
  isXRead : Bool
  isXWrite : Bool
  isXExec : Bool
  command : List UInt8
  args : List UInt8
  deriving Repr, DecidableEq

structure Response where
  rc : ResultCode
  rcText : List UInt8
  body : List (List UInt8)
  deriving Repr, DecidableEq

def Response.new : Response := ⟨.none, [], []⟩

end Ringbeller
