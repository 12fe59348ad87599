namespace QueuePair

/-- A failed system call. -/
inductive SystemError
  | noEntry
  | listTooLong
  | outOfMemory
  | exists
  | notDirectory
  | isDirectory
  | invalidArgument
  | fileTooLarge
  | outOfRange
  | nameTooLong
deriving DecidableEq, Repr

namespace SystemError

def code : SystemError → Nat
  | .noEntry => 2
  | .listTooLong => 7
  | .outOfMemory => 12
  | .exists => 17
  | .notDirectory => 20
  | .isDirectory => 21
  | .invalidArgument => 22
  | .fileTooLarge => 27
  | .outOfRange => 34
  | .nameTooLong => 36

def reason : SystemError → String
  | .noEntry => "No such file or directory"
  | .listTooLong => "Argument list too long"
  | .outOfMemory => "Cannot allocate memory"
  | .exists => "File exists"
  | .notDirectory => "Not a directory"
  | .isDirectory => "Is a directory"
  | .invalidArgument => "Invalid argument"
  | .fileTooLarge => "File too large"
  | .outOfRange => "Numerical result out of range"
  | .nameTooLong => "File name too long"

def message (e : SystemError) : String :=
  e.reason ++ " (os error " ++ toString e.code ++ ")"

end SystemError

end QueuePair
