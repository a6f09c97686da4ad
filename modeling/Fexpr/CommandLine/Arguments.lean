import Fexpr.Literal.Integer

/-!
# Arguments of the command line

Arguments are read one after the other. Long options take their value after an equals sign or as
the next argument; short ones take it right behind the letter, after an equals sign, or as the next
argument, and can be bundled. Two dashes end the options.

The value of an option is looked at when the next option or the script is met, or at the end.
An argument that is not known, and a value given to a flag, are therefore reported before a bad
value that is still waiting.
-/

namespace Fexpr.CommandLine

/-- What the arguments ask for. -/
structure Options where
  /-- The script itself. -/
  script : Option String := none
  /-- The file that holds the script. -/
  file : Option String := none
  /-- Whether to print the tree first. -/
  printTree : Bool := false
  /-- Whether to print the tree as JSON and stop. -/
  json : Bool := false
  /-- The limit of calls in progress, if it was given. -/
  maxDepth : Option Nat := none
  /-- Whether to print without colours. -/
  noColour : Bool := false

/-- The limit of calls in progress unless another one is given. -/
def defaultMaxDepth : Nat := 512

/-- The largest limit of calls in progress that can be asked for. -/
def maxDepthCeiling : Nat := 1024

/-- Why the arguments ask for no run. -/
inductive Usage where
  /-- Two arguments exclude each other, or one is given twice. -/
  | conflict
  /-- An argument is not known. -/
  | unknown
  /-- A value is missing or empty. -/
  | invalidValue
  /-- A value is not of the right form. -/
  | validation
  /-- A flag was given a value. -/
  | tooManyValues
  /-- Help was asked for. -/
  | help
  /-- The version was asked for. -/
  | version
deriving DecidableEq

/-- The exit code of a program that was called this way. -/
def Usage.exitCode : Usage → Nat
  | help => 0
  | version => 0
  | _ => 2

/-- The options that take a value. -/
inductive Valued where
  | file
  | maxDepth
deriving DecidableEq

/-- The options that take none. -/
inductive Flag where
  | printTree
  | json
  | noColour
  | help
  | version
deriving DecidableEq

/-- An option, by what it takes. -/
inductive Known where
  | valued (o : Valued)
  | flag (f : Flag)

/-- The option of a long name. -/
def ofLong? : String → Option Known
  | "file" => some (.valued .file)
  | "max-depth" => some (.valued .maxDepth)
  | "print-tree" => some (.flag .printTree)
  | "json" => some (.flag .json)
  | "no-color" => some (.flag .noColour)
  | "help" => some (.flag .help)
  | "version" => some (.flag .version)
  | _ => none

/-- The option of a letter. -/
def ofShort? : Char → Option Known
  | 'f' => some (.valued .file)
  | 't' => some (.flag .printTree)
  | 'h' => some (.flag .help)
  | 'V' => some (.flag .version)
  | _ => none

/-- How far the arguments have been read. -/
structure Progress where
  /-- What was asked for so far. -/
  options : Options
  /-- An option whose value was not looked at yet, and the value if it is there. -/
  pending : Option (Valued × Option String)
  /-- Whether the options have ended. -/
  ended : Bool

namespace Progress

/-- Takes the value of an option. -/
def setValue (o : Options) : Valued → String → Except Usage Options
  | .file, v =>
    if o.file.isSome then .error .conflict
    else if v.isEmpty then .error .invalidValue
    else .ok { o with file := some v }
  | .maxDepth, v =>
    if o.maxDepth.isSome then .error .conflict
    else
      match Literal.word? 10 v.toList with
      | some n =>
        if 1 ≤ n ∧ n ≤ maxDepthCeiling then .ok { o with maxDepth := some n }
        else .error .validation
      | none => .error .validation

/-- Looks at the value that is waiting. -/
def resolve (p : Progress) : Except Usage Progress :=
  match p.pending with
  | none => .ok p
  | some (_, none) => .error .invalidValue
  | some (o, some v) =>
    (setValue p.options o v).map fun options => { p with options, pending := none }

/-- Sets a flag. -/
def setFlag (p : Progress) (f : Flag) : Except Usage Progress :=
  match p.resolve with
  | .error u => .error u
  | .ok p =>
    let once (isSet : Bool) (options : Options) : Except Usage Progress :=
      if isSet then .error .conflict else .ok { p with options }
    match f with
    | .printTree => once p.options.printTree { p.options with printTree := true }
    | .json => once p.options.json { p.options with json := true }
    | .noColour => once p.options.noColour { p.options with noColour := true }
    | .help => .error .help
    | .version => .error .version

/-- Meets an option that takes a value, which may be at hand. -/
def meet (p : Progress) (o : Valued) (value : Option String) : Except Usage Progress :=
  match p.resolve with
  | .error u => .error u
  | .ok p =>
    match value with
    | none => .ok { p with pending := some (o, none) }
    | some v => (setValue p.options o v).map fun options => { p with options }

/-- Reads a long option without its dashes. -/
def long (p : Progress) (text : List Char) : Except Usage Progress :=
  let name := String.ofList (text.takeWhile (· ≠ '='))
  let value : Option String :=
    match text.dropWhile (· ≠ '=') with
    | [] => none
    | _ :: v => some (String.ofList v)
  match ofLong? name, value with
  | some (.valued o), value => p.meet o value
  | some (.flag _), some _ => .error .tooManyValues
  | some (.flag f), none => p.setFlag f
  | none, _ => .error .unknown

/-- Reads bundled short options without their dash. -/
def short (p : Progress) : List Char → Except Usage Progress
  | [] => .ok p
  | c :: cs =>
    match ofShort? c with
    | none => .error .unknown
    | some (.flag f) =>
      match p.setFlag f with
      | .error u => .error u
      | .ok p => short p cs
    | some (.valued o) =>
      match cs with
      | [] => p.meet o none
      | '=' :: v => p.meet o (some (String.ofList v))
      | v => p.meet o (some (String.ofList v))

/-- Takes an argument as the script. -/
def positional (p : Progress) (text : String) : Except Usage Progress :=
  if p.options.script.isSome then .error .unknown
  else p.resolve.map fun p => { p with options := { p.options with script := some text } }

/-- Reads an argument that is no option: a value that is waited for, or the script. -/
def plain (p : Progress) (text : String) : Except Usage Progress :=
  match p.pending with
  | some (o, none) => .ok { p with pending := some (o, some text) }
  | _ => p.positional text

/-- Reads an argument. -/
def next (p : Progress) (text : String) : Except Usage Progress :=
  if p.ended then p.positional text
  else
    match text.toList with
    | ['-', '-'] => .ok { p with ended := true }
    | '-' :: '-' :: cs => p.long cs
    | ['-'] => p.plain text
    | '-' :: cs => p.short cs
    | _ => p.plain text

/-- Reads arguments in order. -/
def readAll (p : Progress) : List String → Except Usage Progress
  | [] => .ok p
  | text :: texts =>
    match p.next text with
    | .error u => .error u
    | .ok p => readAll p texts

end Progress

/-- Reads the arguments. A script and a file exclude each other. -/
def parse (arguments : List String) : Except Usage Options :=
  match (Progress.mk {} none false).readAll arguments with
  | .error u => .error u
  | .ok p =>
    match p.resolve with
    | .error u => .error u
    | .ok p =>
      if p.options.script.isSome && p.options.file.isSome then .error .conflict
      else .ok p.options

end Fexpr.CommandLine
