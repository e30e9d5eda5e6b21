import Drt.Lib.Outcome

/-!
# Exceptions of the core library

Each constructor is an exception class with the arguments of its constructor.
-/

namespace Drt

/-- The exception objects the modelled code throws. -/
inductive Exception where
  /-- `Exception()`. -/
  | exception
  /-- `EndOfDataException(data_type, value_name)`. -/
  | endOfDataException (data_type value_name : String)
  /-- `OverflowException(message)`. -/
  | overflowException (message : String)
  /-- `InvalidFormatException(format_type, value)`. -/
  | invalidFormatException (format_type value : String)
  /-- `DataNotFoundException(container, name)`. -/
  | dataNotFoundException (container name : String)
  /-- `UnsupportedException(whom, originator, option, value)`; `whom` is left out. -/
  | unsupportedException (originator option : String) (value : List UInt8)
  /-- `TimeoutException()`. -/
  | timeoutException
  /-- `RpcException(previous, description)`. -/
  | rpcException (previous : Exception) (description : String)
  deriving DecidableEq, Repr

/-- A call of library code. -/
abbrev Call (α : Type) := Outcome Exception α

end Drt
