/-
  Screenmark — what can go wrong with a file.
-/

namespace Screenmark

/-- Why a file cannot be read or written. -/
inductive FileFault where
  | missing
  | notFolder
  | isFolder
  | nameTooLong
  | occupied
  | notText
deriving DecidableEq

/-- The wording of a file fault. -/
def FileFault.message : FileFault → String
  | .missing => "No such file or directory (os error 2)"
  | .notFolder => "Not a directory (os error 20)"
  | .isFolder => "Is a directory (os error 21)"
  | .nameTooLong => "File name too long (os error 36)"
  | .occupied => "File exists (os error 17)"
  | .notText => "stream did not contain valid UTF-8"

end Screenmark
