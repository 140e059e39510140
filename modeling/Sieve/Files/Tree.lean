import Sieve.Entries

/-!
# Directory trees

Files are read from a tree that is a value, so what a program reads is a function of it.

## Main definitions

* `Node` — a file or a directory
* `ReadError` — why a file cannot be read
* `Node.text?` — the text of a file
-/

namespace Sieve.Files

/-- A file or a directory. -/
inductive Node where
  /-- A file with its text; `none` if its bytes are not UTF-8. -/
  | file (text : Option String)
  | directory (entries : List (String × Node))
deriving Inhabited

/-- Why a file cannot be read. -/
inductive ReadError where
  | missing
  | notADirectory
  | isADirectory
  | nameTooLong
  /-- No name has a character of code zero. -/
  | zeroInName
  | notText
deriving Repr, DecidableEq, Inhabited

/-- What went wrong, in words. -/
def ReadError.message : ReadError → String
  | missing => "No such file or directory (os error 2)"
  | notADirectory => "Not a directory (os error 20)"
  | isADirectory => "Is a directory (os error 21)"
  | nameTooLong => "File name too long (os error 36)"
  | zeroInName => "file name contained an unexpected NUL byte"
  | notText => "stream did not contain valid UTF-8"

/-- The text of a file. -/
def Node.text? : Node → Except ReadError String
  | .file (some text) => .ok text
  | .file none => .error .notText
  | .directory _ => .error .isADirectory

end Sieve.Files
