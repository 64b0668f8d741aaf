import ContextFree.Command.Options

/-! # The explanation of the command

How the command is called and what its options do, and how it complains about its arguments.
-/

namespace ContextFree.Command

/-- How the command calls itself. -/
def programName : String := "chomsky-normalize"

/-- The explanation of the command. -/
def usage : String :=
  "usage: " ++ programName ++ " [-h] [--start START] [--output OUTPUT]\n" ++
  "                         [--log-file LOG_FILE] [--quiet]\n" ++
  "                         [input]\n\n" ++
  "Convert a context-free grammar to Chomsky Normal Form, printing the grammar\n" ++
  "after each step of the conversion.\n\n" ++
  "positional arguments:\n" ++
  "  input                A grammar file. If omitted, a built-in example grammar\n" ++
  "                       is used.\n\n" ++
  "options:\n" ++
  "  -h, --help           show this help message and exit\n" ++
  "  --start START        Use this start symbol instead of the one in the grammar\n" ++
  "                       file.\n" ++
  "  --output OUTPUT      Write the final grammar to this file.\n" ++
  "  --log-file LOG_FILE  Write a structured log of each conversion step to this\n" ++
  "                       file.\n" ++
  "  --quiet              Do not print the grammar after each step.\n"

/-- The complaint about a misuse. -/
def complaint (cause : Misuse) : String :=
  programName ++ ": error: " ++ cause.message

end ContextFree.Command
