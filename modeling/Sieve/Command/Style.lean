/-!
# Styled output

Lines for people to read, with styles that a terminal shows. What is made for programs to read is
written plain.

## Main definitions

* `Output` — what goes to standard output and to standard error
* `bold`, `dim`, `cyan`, `green`, `yellow`, `red` — styles
* `header`, `heading`, `entry`, `item`, `success`, `warning`, `failure` — lines
-/

namespace Sieve.Command

/-- What a command writes. -/
structure Output where
  out : String := ""
  err : String := ""
deriving Repr, DecidableEq, Inhabited

/-- Text between the codes that begin and end a style. -/
def styled (opening closing text : String) : String :=
  "\x1b[" ++ opening ++ "m" ++ text ++ "\x1b[" ++ closing ++ "m"

/-- Bold text. -/
def bold (text : String) : String := styled "1" "0" text

/-- Dim text. -/
def dim (text : String) : String := styled "2" "0" text

/-- Cyan text. -/
def cyan (text : String) : String := styled "36" "39" text

/-- Green text. -/
def green (text : String) : String := styled "32" "39" text

/-- Yellow text. -/
def yellow (text : String) : String := styled "33" "39" text

/-- Red text. -/
def red (text : String) : String := styled "31" "39" text

/-- A title, ruled off over its whole width, with empty lines around. -/
def header (title : String) : String :=
  let rule := String.ofList (List.replicate title.length '─')
  "\n" ++ cyan (bold title) ++ "\n" ++ dim rule ++ "\n\n"

/-- The title of a section. -/
def heading (title : String) : String := bold title ++ "\n"

/-- A value under a name. -/
def entry (name value : String) : String := "  " ++ dim name ++ ": " ++ value ++ "\n"

/-- An item of a list. -/
def item (text : String) : String := "  " ++ dim "•" ++ " " ++ text ++ "\n"

/-- A line that says how something went, behind a mark. -/
def status (colour : String → String) (mark text : String) : String :=
  bold (colour mark) ++ " " ++ colour text ++ "\n"

/-- A line that says that all went well. -/
def success (text : String) : String := status green "✔" text

/-- A line that warns. -/
def warning (text : String) : String := status yellow "⚠" text

/-- A line that says what went wrong. -/
def failure (text : String) : String := status red "✖" text

end Sieve.Command
