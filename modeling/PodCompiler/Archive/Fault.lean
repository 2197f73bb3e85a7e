namespace PodCompiler.Archive

-- The ways in which bytes fail to be a zip archive that can be read.
inductive Fault where
  | tooSmall
  | noEndRecord
  | badCentralHeader (pos : Nat)
  | badLocalHeader (name : String)
  | wrongSize (name : String) (found expected : Nat)
  | unknownMethod (name : String) (method : UInt16)
  deriving DecidableEq, Repr

def Fault.message : Fault → String
  | .tooSmall => "archive too small"
  | .noEndRecord => "end of central directory not found"
  | .badCentralHeader pos => s!"bad central header at {pos}"
  | .badLocalHeader name => s!"bad local header for {name}"
  | .wrongSize name found expected => s!"{name}: inflated {found} bytes, expected {expected}"
  | .unknownMethod name method => s!"{name}: unsupported compression method {method.toNat}"

-- What the system refuses while a file or a packed entry is read or written.
inductive IoFault where
  | corruptStream
  | notFound
  | alreadyExists
  | notADirectory
  | isADirectory
  | nameTooLong
  | nulInName
  | invalidText
  deriving DecidableEq, Repr

def IoFault.message : IoFault → String
  | .corruptStream => "corrupt deflate stream"
  | .notFound => "No such file or directory (os error 2)"
  | .alreadyExists => "File exists (os error 17)"
  | .notADirectory => "Not a directory (os error 20)"
  | .isADirectory => "Is a directory (os error 21)"
  | .nameTooLong => "File name too long (os error 36)"
  | .nulInName => "file name contained an unexpected NUL byte"
  | .invalidText => "stream did not contain valid UTF-8"

end PodCompiler.Archive
