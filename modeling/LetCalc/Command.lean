import LetCalc.Interpreter
import LetCalc.Outline

/-!
# The command

The command reads one program, from a file or from standard input, and runs it.  `Options.ofArgs`
reads its arguments, `finish` does the rest once the program text has been fetched, and `execute`
is both together, in a **world** to fetch it from.  What comes of a call is a **report**: an exit
code and what is written to the two outputs.

The usage text speaks of a log.  If the variable `RUST_LOG` asks for one, it goes to the second
output while the command is at work.  It is left out here: a report is on a call without a log, as
it is when the variable is not set.
-/

namespace LetCalc.Command

/-! ### Arguments -/

/-- What is wrong with the arguments. -/
inductive UsageFault where
  | unknownOption (arg : String)
  | unexpectedArgument (arg : String)
  | noInput
  deriving DecidableEq, Repr

/-- The fault in words. -/
def UsageFault.message : UsageFault → String
  | unknownOption arg => "Unknown option '" ++ arg ++ "'"
  | unexpectedArgument arg => "Unexpected argument '" ++ arg ++ "'"
  | noInput => "No input file provided"

/-- What the arguments ask for. -/
structure Options where
  /-- Whether to print the outline of the program before it is run. -/
  outline : Bool
  /-- The path of the program, or a dash for standard input. -/
  input : String
  deriving DecidableEq, Repr

/-- Whether an argument is written as an option. -/
def isOption (arg : String) : Bool :=
  ['-', '-'].isPrefixOf arg.toList

/-- Reads arguments from left to right, after the flag and the input found so far.  The first that
does not fit is the fault. -/
def Options.read (outline : Bool) (input : Option String) :
    List String → Except UsageFault Options
  | [] =>
    match input with
    | none => .error .noInput
    | some path => .ok ⟨outline, path⟩
  | arg :: args =>
    if arg = "--ast" then Options.read true input args
    else if isOption arg then .error (.unknownOption arg)
    else if input.isSome then .error (.unexpectedArgument arg)
    else Options.read outline (some arg) args

/-- Reads the arguments of the command. -/
def Options.ofArgs (args : List String) : Except UsageFault Options :=
  Options.read false none args

/-- How the command is called, by its name. -/
def usage (name : String) : String :=
  "\nUsage: " ++ name ++ " [--ast] <file.mfl>\n" ++
  "       " ++ name ++ " [--ast] -            # read the program from stdin\n" ++
  "\nSet RUST_LOG=mfl=debug (or trace) to see interpreter logs.\n"

/-! ### Inputs -/

/-- Why an input cannot be read as text. -/
inductive ReadFault where
  /-- The path leads nowhere. -/
  | notFound
  /-- The path leads to a folder. -/
  | isFolder
  /-- The path goes on behind a file. -/
  | notFolder
  /-- The path, or a name in it, is longer than any can be. -/
  | tooLong
  /-- The bytes are not UTF-8. -/
  | notText
  /-- Any other reason, in the words of the system. -/
  | other (reason : String)
  deriving DecidableEq, Repr

/-- The fault in words. -/
def ReadFault.message : ReadFault → String
  | notFound => "No such file or directory (os error 2)"
  | isFolder => "Is a directory (os error 21)"
  | notFolder => "Not a directory (os error 20)"
  | tooLong => "File name too long (os error 36)"
  | notText => "stream did not contain valid UTF-8"
  | other reason => reason

/-- The text that bytes encode. -/
def decode (content : ByteArray) : Except ReadFault String :=
  match String.fromUTF8? content with
  | some text => .ok text
  | none => .error .notText

/-- What the command can read: its standard input, and files by their paths.  Either may fail.  The
monad says how they are read: `Id` where they are given, `IO` where the system is asked. -/
structure World (m : Type → Type) where
  stdin : m (Except ReadFault ByteArray)
  file : String → m (Except ReadFault ByteArray)

/-- The bytes of an input. -/
def World.fetch {m : Type → Type} (w : World m) (input : String) :
    m (Except ReadFault ByteArray) :=
  if input = "-" then w.stdin else w.file input

/-! ### Reports -/

/-- What a run of the command leaves to be seen. -/
structure Report where
  exitCode : UInt32
  stdout : String
  stderr : String
  deriving DecidableEq, Repr

/-- A failure, after something may have been written. -/
def Report.failure (stdout message : String) : Report :=
  ⟨1, stdout, message⟩

/-- The report on arguments that do not fit. -/
def usageReport (name : String) (fault : UsageFault) : Report :=
  .failure "" ("Error: " ++ fault.message ++ "\n" ++ usage name)

/-- A result as it is printed. -/
def resultText : Option Value → String
  | some v => v.text
  | none => "(no result)"

/-- Runs a program text. -/
def runText (outline : Bool) (text : String) : Report :=
  match parse text with
  | .error e => .failure "" ("Parser error: " ++ e.message ++ "\n")
  | .ok program =>
    let shown := if outline then program.outlineText else ""
    match (program.run .empty).result with
    | .error e => .failure shown ("Runtime error: " ++ e.message ++ "\n")
    | .ok result => ⟨0, shown ++ resultText result ++ "\n", ""⟩

/-- The report once the input has been fetched. -/
def finish (options : Options) (content : Except ReadFault ByteArray) : Report :=
  match content.bind decode with
  | .error fault =>
    .failure "" ("Error: cannot read '" ++ options.input ++ "': " ++ fault.message ++ "\n")
  | .ok text => runText options.outline text

/-! ### The whole command -/

/-- The report on a call.  The command line has the name of the command first, and its arguments
behind that. -/
def execute {m : Type → Type} [Monad m] (line : List String) (w : World m) : m Report :=
  match Options.ofArgs line.tail with
  | .error fault => return usageReport (line.headD "mfl") fault
  | .ok options => return finish options (← w.fetch options.input)

end LetCalc.Command
