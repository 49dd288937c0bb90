import Lox.Session
import Lox.Token.Text
import Lox.Tree.Text

namespace Lox.CommandLine

/-- What there is under a file name. -/
inductive FileContents where
  | missing
  | directory
  | bytes (contents : ByteArray)

/-- What a command leaves behind. -/
structure Result where
  exit : Nat
  stdout : String
  stderr : String
deriving DecidableEq, Repr

/-- The exit codes of errors in a program, of errors in its run, and of a failure to read it. -/
def exitStaticError : Nat := 65
/-- What a program comes to that fails while it runs. -/
def exitRuntimeError : Nat := 70
/-- What a command comes to that could not read its file. -/
def exitFailure : Nat := 1
/-- What arguments come to that ask for no command. -/
def exitUsage : Nat := 2

/-- The commands of the program, each with the file it works on. -/
inductive Command where
  | tokenize (file : String) (json : Bool)
  | parse (file : String)
  | run (file : String)
  | repl
deriving DecidableEq, Repr

/-- The command that the arguments ask for. `--log` may stand anywhere and asks for nothing else. -/
def Command.ofArguments? (arguments : List String) : Option Command :=
  match arguments.filter (· != "--log") with
  | ["tokenize", "--json", file] | ["tokenize", file, "--json"] => some (.tokenize file true)
  | ["tokenize", file] => some (.tokenize file false)
  | ["parse", file] => some (.parse file)
  | ["run", file] => some (.run file)
  | ["repl"] => some .repl
  | _ => none

/-- The lines with an end behind each of them. -/
def unlines (lines : List String) : String :=
  String.join (lines.map (· ++ "\n"))

/-- A report as it is written on standard error. -/
def Report.line : Report → String
  | .error d => d.text
  | .warning w => "Warning: " ++ w.text

/-- The character as it stands in a quoted file name: both quotes, the backslash and the controls are
    escaped. -/
def escapeInName (c : Char) : List Char :=
  if c = '"' || c = '\'' || c = '\\' then ['\\', c]
  else if c = '\n' then ['\\', 'n']
  else if c = '\r' then ['\\', 'r']
  else if c = '\t' then ['\\', 't']
  else if c.toNat = 0 then ['\\', '0']
  else if c.toNat < 32 || (127 ≤ c.toNat && c.toNat < 160) then
    '\\' :: 'u' :: '\x7b' :: Nat.toDigits 16 c.toNat ++ ['\x7d']
  else [c]

/-- A file name in quotes, with what must be escaped in it escaped. -/
def quoteName (name : String) : String :=
  String.ofList ('"' :: name.toList.flatMap escapeInName ++ ['"'])

/-- A failure with the reason behind it. -/
def failure (what reason : String) : Result :=
  ⟨exitFailure, "", "Error: " ++ what ++ "\n\nCaused by:\n    " ++ reason ++ "\n"⟩

/-- Reads a file as text and goes on with the text. -/
def withSource (read : String → FileContents) (file : String) (go : String → Result) : Result :=
  let cannotRead := failure ("Failed to read file " ++ quoteName file)
  match read file with
  | .missing =>
    failure ("Failed to open file " ++ quoteName file) "No such file or directory (os error 2)"
  | .directory => cannotRead "Is a directory (os error 21)"
  | .bytes contents =>
    match String.fromUTF8? contents with
    | none => cannotRead "stream did not contain valid UTF-8"
    | some source => go source

/-- The exit code of a command that has found these errors before running anything. -/
def exitOf (errors : List Diagnostic) : Nat :=
  if errors.isEmpty then 0 else exitStaticError

/-- Lists the tokens, also of a source with errors. -/
def tokenizeSource (json : Bool) (source : String) : Result :=
  let found := items source
  let tokens := found.filterMap Item.token?
  let errors := (found.filterMap Item.error?).map Diagnostic.lexical
  let lines := if json then [(tokensJson tokens).pretty] else tokens.map Token.text
  ⟨exitOf errors, unlines lines, unlines (errors.map Diagnostic.text)⟩

/-- Shows the tree of a source without errors. -/
def parseSource (source : String) : Result :=
  let tree := Grammar.readSource source 0
  let errors := tree.errors
  let lines := if errors.isEmpty then [programText tree.parsed.program] else []
  ⟨exitOf errors, unlines lines, unlines (errors.map Diagnostic.text)⟩

/-- The exit code of a run that ended so. -/
def exitOfStatus : Status → Nat
  | .ok => 0
  | .staticError => exitStaticError
  | .runtimeError => exitRuntimeError
  | .outOfFuel => exitFailure

/-- Runs a source from a file in a session of its own. Reports go to standard error, in their order.
    -/
def runSource (fuel : Nat) (clock : Clock) (source : String) : Result :=
  let (outcome, _) := (Session.start .unlimited clock).run fuel source
  ⟨exitOfStatus outcome.status, outcome.output, unlines (outcome.reports.map Report.line)⟩

/-- What the dialogue shows before it reads a line. -/
def prompt : String := "> "

/-- Answers one line: the session goes on, whatever the line comes to. -/
def answer (fuel : Nat) (session : Session) (line : String) : String × String × Session :=
  let (outcome, session) := session.runLine fuel line
  (outcome.output, unlines (outcome.reports.map Report.line), session)

/-- Splits a text into its lines, without their ends. A carriage return before a newline belongs to
    the end; the characters read of the current line come last first. -/
def splitLines (line : List Char) : List Char → List String
  | [] => if line.isEmpty then [] else [String.ofList line.reverse]
  | '\r' :: '\n' :: rest | '\n' :: rest => String.ofList line.reverse :: splitLines [] rest
  | c :: rest => splitLines (c :: line) rest

/-- The lines of the whole standard input. -/
def linesOf (text : String) : List String :=
  splitLines [] text.toList

/-- Answers the lines in order, each behind a prompt, and closes with an empty line. -/
def dialogue (fuel : Nat) (session : Session) : List String → String × String
  | [] => (prompt ++ "\n", "")
  | line :: rest =>
    let (output, errors, session) := answer fuel session line
    let (moreOutput, moreErrors) := dialogue fuel session rest
    (prompt ++ output ++ moreOutput, errors ++ moreErrors)

/-- Answers a whole dialogue in one session, so that a line sees what the lines before it defined.
    -/
def converse (fuel : Nat) (clock : Clock) (input : String) : Result :=
  let (output, errors) := dialogue fuel (Session.start .unlimited clock) (linesOf input)
  ⟨0, output, errors⟩

/-- What is shown when the arguments ask for no command. -/
def usage : String :=
  unlines ["Usage: lox [--log] <COMMAND>", "",
    "Commands: tokenize [--json] <FILE>, parse <FILE>, run <FILE>, repl"]

/-- Runs a command on what the world holds: the files and the standard input. -/
def Command.result (fuel : Nat) (clock : Clock) (read : String → FileContents) (input : String) :
    Command → Result
  | .tokenize file json => withSource read file (tokenizeSource json)
  | .parse file => withSource read file parseSource
  | .run file => withSource read file (runSource fuel clock)
  | .repl => converse fuel clock input

/-- The program as a function of its arguments, of the files and of the standard input. Arguments
    that ask for no command are answered with the usage text. -/
def result (fuel : Nat) (clock : Clock) (read : String → FileContents) (input : String)
    (arguments : List String) : Result :=
  match Command.ofArguments? arguments with
  | some command => command.result fuel clock read input
  | none => ⟨exitUsage, "", usage⟩

end Lox.CommandLine
