import Fexpr.Behaviour
import Fexpr.CommandLine.Arguments
import Fexpr.CommandLine.Files
import Fexpr.Eval
import Fexpr.Tree.Dump
import Fexpr.Tree.Listing
import Fexpr.Value.Render

/-!
# Runs of the program

The program reads one script from an argument, a file or the standard input, and evaluates it with
the single procedure `ECHO`, which prints its operands. On request it prints the tree of the script
before, or the tree as JSON and nothing else.
-/

namespace Fexpr.CommandLine

open Listing (Style)

/-- The one procedure of the program. -/
inductive Echo where
  | echo

namespace Echo

/-- Prints the values of operands in order and answers `count`. -/
def printAll (count : Nat) : List Operand → Action Echo
  | [] => .done (.int (Int64.ofNat count))
  | x :: xs => .value x fun v => .emit v.render (printAll count xs)

/-- What the procedure does. -/
def host : Host Echo := fun _ call => printAll call.operands.length call.operands

/-- The procedure under its identifier. -/
def environment : Environment Echo := Bindings.ofList [("ECHO", .procedure ⟨0, .echo, []⟩)]

end Echo

/-- Where the script comes from. -/
inductive Input where
  /-- From the arguments themselves. -/
  | argument (text : String)
  /-- From a file. -/
  | file (path : String)
  /-- From the standard input. -/
  | standardInput

/-- Where the options say that the script comes from. -/
def Options.input (o : Options) : Input :=
  match o.file, o.script with
  | some path, _ => .file path
  | none, some text => .argument text
  | none, none => .standardInput

/-- The name that the script goes by. -/
def Input.name : Input → String
  | argument _ => "<argument>"
  | file path => path
  | standardInput => "<stdin>"

/-- What a run leaves behind. -/
structure Report where
  /-- The exit code. -/
  exitCode : Nat
  /-- What was written to the standard output. -/
  stdout : String
  /-- What was written to the standard error. -/
  stderr : String

/-- Colours are used unless they are switched off by an option or a setting, or the terminal is not
known to have them. -/
def usesColour (o : Options) (settings : List (String × String)) : Bool :=
  !o.noColour && (settings.lookup "NO_COLOR").isNone &&
    match settings.lookup "TERM" with
    | some terminal => terminal != "dumb"
    | none => false

/-- The report of a run that failed with an error. -/
def failure (stdout : String) (e : Error) : Report :=
  ⟨1, stdout, e.code ++ "\n\n  " ++ e.render ++ "\n"⟩

/-- Evaluates a program after `shown` was printed. -/
def evaluate (o : Options) (style : Style) (p : Program) (shown : String) : Report :=
  let context := Context.new 0 Echo.environment (o.maxDepth.getD defaultMaxDepth) .absent
  match (World.mk context .fresh 1).run Echo.host p with
  | .abort a => ⟨101, shown, a.message ++ "\n"⟩
  | .reply r w =>
    let printed := shown ++ String.join (w.host.out.toList.map (· ++ "\n"))
    match r with
    | .ok v => ⟨0, printed ++ style.result ++ v.render ++ style.reset ++ "\n", ""⟩
    | .error e => failure printed e

/-- Carries the options out on a script that was read. -/
def execute (o : Options) (style : Style) (source : Source) : Report :=
  match Program.compile source with
  | .error e => failure "" e
  | .ok p =>
    match p.tree? with
    | none => evaluate o style p ""
    | some t =>
      if o.json then ⟨0, (t.dump source.chars).pretty 0 ++ "\n", ""⟩
      else evaluate o style p (if o.printTree then t.styledListing style source.chars else "")

/-- Carries the options out, given the bytes of the script or why they could not be read. -/
def runOn (o : Options) (settings : List (String × String))
    (content : Except ReadError ByteArray) : Report :=
  let style := if usesColour o settings then Style.colour else Style.plain
  let text : Except ReadError String :=
    match content with
    | .error e => .error e
    | .ok bytes =>
      match String.fromUTF8? bytes with
      | some text => .ok text
      | none => .error .notText
  match text with
  | .error e => ⟨1, "", "Error: " ++ e.message ++ "\n"⟩
  | .ok text => execute o style ⟨o.input.name, text⟩

/-- What is printed when help is asked for. -/
def helpText : String :=
  String.intercalate "\n"
    ["Evaluate a gendsl script. (ECHO a b ...) prints each operand and returns their count.",
      "",
      "Usage: gendsl [OPTIONS] [SCRIPT]",
      "",
      "Arguments:",
      "  [SCRIPT]  Script text. Read from stdin when neither this nor --file is given",
      "",
      "Options:",
      "  -f, --file <PATH>            Read the script from a file",
      "  -t, --print-tree             Print the syntax tree before evaluating",
      "      --json                   Print the syntax tree as JSON and exit without evaluating",
      "      --max-depth <MAX_DEPTH>  Maximum nesting of expression calls [default: 512]",
      "      --no-color               Disable colored output",
      "  -h, --help                   Print help",
      "  -V, --version                Print version",
      ""]

/-- The report of a run whose arguments ask for none. -/
def usage : Usage → Report
  | .help => ⟨0, helpText, ""⟩
  | .version => ⟨0, "gendsl 0.1.0\n", ""⟩
  | u => ⟨u.exitCode, "", "error: invalid arguments\n\nUsage: gendsl [OPTIONS] [SCRIPT]\n"⟩

/-- What the program finds around it. -/
structure Surroundings where
  /-- The bytes of the standard input. -/
  stdin : ByteArray
  /-- The files of the directory it runs in. -/
  files : Files
  /-- The settings of the surrounding shell. -/
  settings : List (String × String)

/-- A whole run. -/
def run (arguments : List String) (around : Surroundings) : Report :=
  match parse arguments with
  | .error u => usage u
  | .ok o =>
    runOn o around.settings <|
      match o.input with
      | .argument text => .ok text.toUTF8
      | .file path => around.files.read path
      | .standardInput => .ok around.stdin

end Fexpr.CommandLine
