import FastGraph.Misc.Numeral

/-!
# Exceptions of the standard library

What the number readers throw, what the constructor of `std::string` throws on a null
pointer and what a `std::vector` throws on a length no vector can have, with the texts of
`what()`. The readers name themselves there and nothing else.
-/

namespace FastGraph

/-- The number readers of the standard library that the program calls. -/
inductive NumReader where
  | stoi
  | stoll
  | stof
  | stod
  deriving DecidableEq, Repr

/-- The calls that give a `std::vector` its length: `assign` and the constructors, `resize`. -/
inductive VectorCall where
  | create
  | resize
  deriving DecidableEq, Repr

/-- The exceptions the program can meet, memory being enough. -/
inductive StdException where
  | number (reader : NumReader) (error : NumError)
  | nullString
  | length (call : VectorCall)
  deriving DecidableEq, Repr

namespace StdException

/-- `what()`. -/
def what : StdException → Bytes
  | number .stoi _ => str "stoi"
  | number .stoll _ => str "stoll"
  | number .stof _ => str "stof"
  | number .stod _ => str "stod"
  | nullString => str "basic_string: construction from null is not valid"
  | length .create => str "cannot create std::vector larger than max_size()"
  | length .resize => str "vector::_M_default_append"

end StdException

/-- A call of a number reader. -/
def readNumber {α : Type} (reader : NumReader) : Except NumError α → Except StdException α
  | .ok a => .ok a
  | .error e => .error (.number reader e)

end FastGraph
