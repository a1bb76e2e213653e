import RoundRobin.Text.Quoted
import RoundRobin.Text.Utf8

/-!
# Failures of file access

Why a file could not be opened or its text not be read, with the message for each reason.
-/

namespace RoundRobin

/-- Why the system below denies an access: the number it gives to the reason, and its words. -/
structure Denial where
  number : Nat
  reason : String
  deriving DecidableEq, Repr, Inhabited

/-- A failed access to the file of a path. -/
inductive FileFault where
  | missing (path : String)
  | notDirectory (path : String)
  | isDirectory (path : String)
  | nameTooLong (path : String)
  | denied (path : String) (denial : Denial)
  | empty (path : String)
  | undecodable (flaw : Text.Flaw)
  | nullInPath
  deriving DecidableEq, Repr

namespace FileFault

def message : FileFault → String
  | missing path => "[Errno 2] No such file or directory: " ++ Text.quoted path
  | notDirectory path => "[Errno 20] Not a directory: " ++ Text.quoted path
  | isDirectory path => "[Errno 21] Is a directory: " ++ Text.quoted path
  | nameTooLong path => "[Errno 36] File name too long: " ++ Text.quoted path
  | denied path denial =>
    "[Errno " ++ toString denial.number ++ "] " ++ denial.reason ++ ": " ++ Text.quoted path
  | empty path => "Could not read from file '" ++ path ++ "'"
  | undecodable flaw => flaw.message
  | nullInPath => "embedded null byte"

/-- Whether the simulation reports the failure and goes on. A path that cannot name any file is a
fault of the caller and ends the operation. -/
def isReported : FileFault → Bool
  | nullInPath => false
  | _ => true

end FileFault

end RoundRobin
