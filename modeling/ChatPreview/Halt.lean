import ChatPreview.Decimal.Digits

namespace ChatPreview

/-- What stops a call that is no fault of what the call reads. -/
inductive Halt where
  | digits (limit : DigitLimit)
  | longNumber
  | tooDeep
  deriving DecidableEq, Repr

def Halt.message : Halt → String
  | digits limit => limit.message
  | longNumber =>
    s!"Exceeds the limit ({maxDigits} digits) for integer string conversion; " ++
      "use sys.set_int_max_str_digits() to increase the limit"
  | tooDeep => "maximum recursion depth exceeded"

end ChatPreview
