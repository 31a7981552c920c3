import FastGraph.Misc.Numeral

/-!
# The RESP encoder

`RespEncoder` (`protocol/encoder.cpp`): the reply frames, and the command frame that
clients send, which is `array`.
-/

namespace FastGraph.RespEncoder

/-- `RespEncoder::simple_string` (`encoder.cpp:3-5`). -/
def simpleString (s : Bytes) : Bytes := charByte '+' :: s ++ crlf

/-- `RespEncoder::error` (`encoder.cpp:7-9`). -/
def error (msg : Bytes) : Bytes := str "-ERR " ++ msg ++ crlf

/-- `RespEncoder::integer` (`encoder.cpp:11-13`). -/
def integer (n : Int) : Bytes := charByte ':' :: decimalInt n ++ crlf

/-- `RespEncoder::bulk_string` (`encoder.cpp:15-17`). -/
def bulkString (s : Bytes) : Bytes := charByte '$' :: decimal s.length ++ crlf ++ s ++ crlf

/-- `RespEncoder::null_bulk` (`encoder.cpp:19-21`). -/
def nullBulk : Bytes := str "$-1" ++ crlf

/-- `RespEncoder::array` (`encoder.cpp:23-27`). -/
def array (items : List Bytes) : Bytes :=
  items.foldl (fun out item => out ++ bulkString item)
    (charByte '*' :: decimal items.length ++ crlf)

/-- `RespEncoder::empty_array` (`encoder.cpp:29-31`). -/
def emptyArray : Bytes := str "*0" ++ crlf

/-- The loop of `array` appends the items' frames in order. -/
theorem array_eq (items : List Bytes) :
    array items = charByte '*' :: decimal items.length ++ crlf ++ items.flatMap bulkString := by
  have append (out : Bytes) :
      items.foldl (fun out item => out ++ bulkString item) out = out ++ items.flatMap bulkString := by
    induction items generalizing out with
    | nil => simp
    | cons item items ih => rw [List.foldl_cons, ih, List.flatMap_cons, List.append_assoc]
  exact append _

theorem length_bulkString (s : Bytes) :
    (bulkString s).length = (decimal s.length).length + s.length + 5 := by
  simp [bulkString, crlf]
  omega

end FastGraph.RespEncoder
