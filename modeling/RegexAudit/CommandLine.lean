import RegexAudit.CharSet.KnownProperties
import RegexAudit.Lint.Linter

/-!
# The command line

`run` takes the arguments and the bytes of the standard input to what is written and the exit code.
Literals are checked one after the other; without any, each line of the input that is not blank is
one. The exit code is 2 if something could not be read, 1 if something was reported, and 0
otherwise.
-/

namespace RegexAudit.CommandLine

variable [Properties]

/-- What a run is asked to do. -/
structure Options where
  literals : List String := []
  /-- Replacement texts that the literals are used with. -/
  replacements : List String := []
  /-- The rules to report; all if there are none. -/
  rules : List String := []
  /-- Whether to show fixed patterns. -/
  showFix : Bool := false

/-- What a run writes, and how it ends. -/
structure Outcome where
  code : Nat
  out : String
  err : String

/-! ## Arguments -/

/-- Read arguments; after `--` everything is a literal. -/
def Options.ofArgs? : List String → Options → Option Options
  | [], o => some o
  | "--" :: rest, o => some { o with literals := o.literals ++ rest }
  | "--fix" :: rest, o => ofArgs? rest { o with showFix := true }
  | "--rule" :: value :: rest, o => ofArgs? rest { o with rules := o.rules ++ [value] }
  | "--replacement" :: value :: rest, o =>
    ofArgs? rest { o with replacements := o.replacements ++ [value] }
  | "-r" :: value :: rest, o =>
    ofArgs? rest { o with replacements := o.replacements ++ [value] }
  | arg :: rest, o =>
    match Text.strip? "--rule=".toList arg.toList,
      Text.strip? "--replacement=".toList arg.toList with
    | some value, _ => ofArgs? rest { o with rules := o.rules ++ [String.ofList value] }
    | _, some value =>
      ofArgs? rest { o with replacements := o.replacements ++ [String.ofList value] }
    | none, none =>
      if arg.toList.head? == some '-' then none
      else ofArgs? rest { o with literals := o.literals ++ [arg] }

/-! ## Input -/

/-- White space that makes a line blank. -/
def isBlank (c : Char) : Bool := Unicode.isIn Unicode.whiteSpace c

/-- A line without the carriage return before its end; `line` is kept last character first. -/
def endLine : (line : List Char) → List Char
  | '\r' :: line => line.reverse
  | line => line.reverse

/-- The lines of a text. A line ends with a line feed, and a carriage return before it goes too.
`line` is the line in the making, last character first. -/
def linesFrom (line : List Char) : List Char → List (List Char)
  | [] => if line.isEmpty then [] else [line.reverse]
  | '\n' :: cs => endLine line :: linesFrom [] cs
  | c :: cs => linesFrom (c :: line) cs

/-- The literals of an input: its lines that are not blank. -/
def literalsOf (input : List Char) : List (List Char) :=
  (linesFrom [] input).filter fun line => !line.all isBlank

/-! ## Reports -/

/-- Number of characters before a byte offset. -/
def column (source : List Char) (offset : Nat) : Nat :=
  match Text.cut? offset source with
  | some (front, _) => front.length
  | none => 0

/-- The lines about a diagnostic: the message, the source, a mark below it and the fixed pattern. -/
def report (literal : List Char) (regex : Regex) (showFix : Bool) (d : Diagnostic) : String :=
  let f := d.finding
  let source := String.ofList regex.source
  let start := column regex.source f.start
  let width := max 1 (column regex.source f.stop - start)
  let fixed :=
    match showFix, f.fix.bind (·.result? regex.source) with
    | true, some text =>
      "    fixed: /" ++ String.ofList text ++ "/" ++ String.ofList regex.flags.toText ++ "\n"
    | _, _ => ""
  String.ofList literal ++ ":" ++ Nat.repr f.start ++ "-" ++ Nat.repr f.stop ++ ": " ++ f.message
    ++ " [" ++ d.rule.name ++ "]\n    " ++ source ++ "\n    "
    ++ String.ofList (List.replicate start ' ' ++ List.replicate width '^') ++ "\n" ++ fixed

/-- Whether the diagnostics of a rule are wanted. -/
def isWanted (options : Options) (d : Diagnostic) : Bool :=
  options.rules.isEmpty || options.rules.contains d.rule.name

/-- What the run has written so far, and whether something failed or was reported. -/
structure Progress where
  out : String := ""
  err : String := ""
  failed : Bool := false
  reported : Bool := false

/-- Check one literal. -/
def checkLiteral (options : Options) (captures : Option CaptureUses) (progress : Progress)
    (literal : List Char) : Progress :=
  match Regex.ofLiteral literal with
  | .error e =>
    { progress with
      err := progress.err ++ String.ofList literal ++ ": " ++ e.message ++ "\n"
      failed := true }
  | .ok regex =>
    let wanted := (lint Rule.all ⟨regex, captures⟩).filter (isWanted options)
    { progress with
      out := wanted.foldl (fun out d => out ++ report literal regex options.showFix d) progress.out
      reported := progress.reported || !wanted.isEmpty }

/-- The uses of captures in the replacement texts, if there are any. -/
def capturesOf (options : Options) : Option CaptureUses :=
  if options.replacements.isEmpty then none
  else some (options.replacements.foldl (fun uses text => uses.addReplacement text.toList) .none)

/-- Check literals and end the run. -/
def runOn (options : Options) (literals : List (List Char)) : Outcome :=
  let progress := literals.foldl (checkLiteral options (capturesOf options)) {}
  ⟨if progress.failed then 2 else if progress.reported then 1 else 0, progress.out, progress.err⟩

/-- Rules that are asked for and do not exist. -/
def unknownRules (options : Options) : List String :=
  options.rules.filter fun name => (Rule.ofName? name).isNone

/-- Names in quotes, as a list. -/
def quotedList (names : List String) : String :=
  "[" ++ String.ofList (Text.join [',', ' '] (names.map fun name => Text.quote name.toList)) ++ "]"

/-- Whether the standard input is read at all. -/
def readsInput (options : Options) : Bool :=
  (unknownRules options).isEmpty && options.literals.isEmpty

/-- The whole run. -/
def run (options : Options) (input : ByteArray) : Outcome :=
  if !(unknownRules options).isEmpty then
    ⟨2, "", "unknown rules: " ++ quotedList (unknownRules options) ++ "\n"⟩
  else if !options.literals.isEmpty then runOn options (options.literals.map String.toList)
  else
    match String.fromUTF8? input with
    | some text => runOn options (literalsOf text.toList)
    | none => ⟨2, "", "stdin: stream did not contain valid UTF-8\n"⟩

end RegexAudit.CommandLine
