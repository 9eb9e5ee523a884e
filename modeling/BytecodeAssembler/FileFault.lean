/-!
# Why something cannot be done to a file

A `FileFault` tells which of the four things that can be done to a file did not work, and why.
-/

namespace BytecodeAssembler

/-- Why something cannot be done to a file. -/
inductive Cause
  | notFound | noDevice | notDirectory | isDirectory | noSpace | nameTooLong | notText
  | other (description : String)
  deriving Repr, DecidableEq

/-- The wording of a cause. -/
def Cause.message : Cause → String
  | notFound => "No such file or directory (os error 2)"
  | noDevice => "No such device or address (os error 6)"
  | notDirectory => "Not a directory (os error 20)"
  | isDirectory => "Is a directory (os error 21)"
  | noSpace => "No space left on device (os error 28)"
  | nameTooLong => "File name too long (os error 36)"
  | notText => "stream did not contain valid UTF-8"
  | other description => description

/-- What could not be done to a file. -/
inductive FileFault
  | cannotOpen (path : String) (cause : Cause)
  | cannotRead (cause : Cause)
  | cannotCreate (path : String) (cause : Cause)
  | cannotWrite (path : String) (cause : Cause)
  deriving Repr, DecidableEq

namespace FileFault

/-- The wording of a file fault, without its cause. -/
def message : FileFault → String
  | cannotOpen path _ => "Failed to open file: " ++ path
  | cannotRead _ => "Failed to read line"
  | cannotCreate path _ => "Failed to create file: " ++ path
  | cannotWrite path _ => "Failed to write file: " ++ path

/-- The cause of a file fault. -/
def cause : FileFault → Cause
  | cannotOpen _ cause => cause
  | cannotRead cause => cause
  | cannotCreate _ cause => cause
  | cannotWrite _ cause => cause

end FileFault

end BytecodeAssembler
