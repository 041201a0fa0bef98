/-
**The command line.**

The arguments are read from left to right.  Each one is an option, the value of the option before
it, the sign `--` behind which there are no options any more, or the formula itself.  The first
argument that breaks a rule ends the reading, and so does a call for help; only whether a formula
and a file were both given is asked at the end.

Main definitions:

* `BoolLut.Command.Threshold` — how detailed a record may be to be shown;
* `BoolLut.Command.Source` — where the formula comes from;
* `BoolLut.Command.Options`, `BoolLut.Command.Request` — what a command line asks for;
* `BoolLut.Command.UsageError` — the rules that a command line can break;
* `BoolLut.Command.Argument` — what one argument is, by its text alone;
* `BoolLut.Command.Draft` — what has been asked for so far;
* `BoolLut.Command.Request.ofArguments` — what a list of arguments asks for.
-/

import BoolLut.Formula.Text
import BoolLut.Log

set_option relaxedAutoImplicit false
set_option autoImplicit false

namespace BoolLut

namespace Command

/-! ### What can be asked for -/

/-- How detailed a record may be to be shown. -/
inductive Threshold where
  /-- Nothing is shown. -/
  | off
  /-- What is as detailed as this, or less, is shown. -/
  | upTo (severity : Severity)
deriving DecidableEq, Repr

namespace Threshold

/-- Whether a record is shown. -/
def admits : Threshold → Record → Bool
  | off, _ => false
  | upTo severity, r => decide (r.severity.rank ≤ severity.rank)

/-- What is shown unless something else is asked for. -/
def default : Threshold := upTo .warn

/-- The threshold that a word stands for, whatever the case of its letters. -/
def ofText? (text : String) : Option Threshold :=
  match String.ofList (text.toList.map Char.toLower) with
  | "off" => some off
  | "error" => some (upTo .error)
  | "warn" => some (upTo .warn)
  | "info" => some (upTo .info)
  | "debug" => some (upTo .debug)
  | "trace" => some (upTo .trace)
  | _ => none

end Threshold

/-- Where the formula comes from. -/
inductive Source where
  /-- It stands on the command line. -/
  | formula (text : String)
  /-- It is the content of a file. -/
  | file (path : String)
  /-- It is what comes in. -/
  | stdin
deriving DecidableEq, Repr

/-- What a truth table is asked for with. -/
structure Options where
  /-- Where the formula comes from. -/
  source : Source
  /-- How the tree is written. -/
  style : TreeStyle
  /-- How the width of codes is found. -/
  policy : WidthPolicy
  /-- Which records are shown. -/
  threshold : Threshold
deriving DecidableEq, Repr

/-- What a command line asks for. -/
inductive Request where
  /-- The help text. -/
  | help
  /-- The truth table of a formula. -/
  | generate (options : Options)
deriving DecidableEq, Repr

/-- A rule that a command line breaks. -/
inductive UsageError where
  /-- There is no such option. -/
  | unknownOption (argument : String)
  /-- An option is given twice. -/
  | repeatedOption (name : String)
  /-- An option that takes a value has none. -/
  | missingValue (name : String)
  /-- There is no such threshold. -/
  | unknownThreshold (text : String)
  /-- There is a second formula. -/
  | secondFormula (text : String)
  /-- There are both a formula and a file. -/
  | formulaAndFile
deriving DecidableEq, Repr

/-- The broken rule in words. -/
def UsageError.message : UsageError → String
  | unknownOption argument => "unexpected argument '" ++ argument ++ "'"
  | repeatedOption name => "the argument '" ++ name ++ "' cannot be used multiple times"
  | missingValue name => "a value is required for '" ++ name ++ "'"
  | unknownThreshold text => "invalid value '" ++ text ++ "' for '--log-level'"
  | secondFormula text => "unexpected argument '" ++ text ++ "'"
  | formulaAndFile => "the argument '[FORMULA]' cannot be used with '--file'"

/-! ### One argument -/

/-- What an argument is. -/
inductive Argument where
  /-- A call for help. -/
  | help
  /-- The call for exact widths. -/
  | exact
  /-- The call for symbols in the tree. -/
  | symbols
  /-- The option for a file, perhaps with its value. -/
  | file (path? : Option String)
  /-- The option for a threshold, perhaps with its value. -/
  | logLevel (word? : Option String)
  /-- The sign behind which there are no options. -/
  | separator
  /-- A formula. -/
  | formula (text : String)
  /-- An option that does not exist. -/
  | unknown (text : String)
deriving DecidableEq, Repr

/-- What comes after `front` in a text that begins with it. -/
def after? (front text : String) : Option String :=
  (front.toList.isPrefixOf? text.toList).map String.ofList

/-- Whether a text reads as an option: it begins with `-` and has more to it. -/
def looksLikeOption (text : String) : Bool :=
  match text.toList with
  | '-' :: _ :: _ => true
  | _ => false

/-- What an argument is that begins with a single `-` and a letter: the letter is the option, and
what comes after it is its value.  A call for help takes no value, and is heard before anything
after it is looked at. -/
def Argument.ofLetter? (text : String) : Option Argument :=
  match after? "-h" text, after? "-f=" text, after? "-f" text with
  | some _, _, _ => some help
  | none, some path, _ => some (file path)
  | none, none, some path => some (file path)
  | none, none, none => none

/-- What an argument is that is not one of the fixed words: an option joined to its value, a
formula, or an option that does not exist. -/
def Argument.ofJoined (text : String) : Argument :=
  match after? "--file=" text, after? "--log-level=" text, Argument.ofLetter? text with
  | some path, _, _ => file path
  | none, some word, _ => logLevel word
  | none, none, some argument => argument
  | none, none, none => if looksLikeOption text then unknown text else formula text

/-- What an argument is, by its text alone. -/
def Argument.ofText (text : String) : Argument :=
  match text with
  | "-h" => help
  | "--help" => help
  | "--exact" => exact
  | "--symbols" => symbols
  | "-f" => file none
  | "--file" => file none
  | "--log-level" => logLevel none
  | "--" => separator
  | text => ofJoined text

/-! ### All arguments -/

/-- What has been asked for so far. -/
structure Draft where
  /-- The formula, if there was one. -/
  formula? : Option String
  /-- The file, if there was one. -/
  file? : Option String
  /-- The threshold, if there was one. -/
  threshold? : Option Threshold
  /-- Whether exact widths were asked for. -/
  exact : Bool
  /-- Whether symbols were asked for. -/
  symbols : Bool
deriving DecidableEq, Repr

namespace Draft

/-- Nothing has been asked for. -/
def empty : Draft := ⟨none, none, none, false, false⟩

/-- Asks for the table of a formula. -/
def addFormula (d : Draft) (text : String) : Except UsageError Draft :=
  match d.formula? with
  | some _ => .error (.secondFormula text)
  | none => .ok { d with formula? := some text }

/-- Asks for the table of several formulas, which is one too many unless there is but one. -/
def addFormulas (d : Draft) : List String → Except UsageError Draft
  | [] => .ok d
  | text :: texts =>
      match d.addFormula text with
      | .error e => .error e
      | .ok d => d.addFormulas texts

/-- Asks for the table of the formula in a file. -/
def addFile (d : Draft) (path : String) : Except UsageError Draft :=
  match d.file? with
  | some _ => .error (.repeatedOption "--file")
  | none => if path = "" then .error (.missingValue "--file") else .ok { d with file? := some path }

/-- Asks for records up to a threshold. -/
def addThreshold (d : Draft) (word : String) : Except UsageError Draft :=
  match d.threshold? with
  | some _ => .error (.repeatedOption "--log-level")
  | none =>
      match Threshold.ofText? word with
      | none => .error (.unknownThreshold word)
      | some threshold => .ok { d with threshold? := some threshold }

/-- Asks for exact widths. -/
def addExact (d : Draft) : Except UsageError Draft :=
  if d.exact then .error (.repeatedOption "--exact") else .ok { d with exact := true }

/-- Asks for symbols in the tree. -/
def addSymbols (d : Draft) : Except UsageError Draft :=
  if d.symbols then .error (.repeatedOption "--symbols") else .ok { d with symbols := true }

/-- What was asked for, once all arguments are read. -/
def finish (d : Draft) : Except UsageError Request :=
  let request source : Request :=
    .generate
      { source
        style := if d.symbols then .symbols else .placeholders
        policy := if d.exact then .exact else .snapped
        threshold := d.threshold?.getD .default }
  match d.formula?, d.file? with
  | some _, some _ => .error .formulaAndFile
  | some text, none => .ok (request (.formula text))
  | none, some path => .ok (request (.file path))
  | none, none => .ok (request .stdin)

/-- What is asked for by the arguments that are left, after those that led to the draft. -/
def read (d : Draft) : List String → Except UsageError Request
  | [] => d.finish
  | text :: rest =>
      match Argument.ofText text, rest with
      | .help, _ => .ok .help
      | .exact, rest => do (← d.addExact).read rest
      | .symbols, rest => do (← d.addSymbols).read rest
      | .file (some path), rest => do (← d.addFile path).read rest
      | .file none, [] => .error (.missingValue text)
      | .file none, path :: rest =>
          if looksLikeOption path then .error (.missingValue text)
          else do (← d.addFile path).read rest
      | .logLevel (some word), rest => do (← d.addThreshold word).read rest
      | .logLevel none, [] => .error (.missingValue text)
      | .logLevel none, word :: rest =>
          if looksLikeOption word then .error (.missingValue text)
          else do (← d.addThreshold word).read rest
      | .separator, rest => do (← d.addFormulas rest).finish
      | .formula text, rest => do (← d.addFormula text).read rest
      | .unknown text, _ => .error (.unknownOption text)

end Draft

/-- What a list of arguments asks for. -/
def Request.ofArguments (arguments : List String) : Except UsageError Request :=
  Draft.empty.read arguments

end Command

end BoolLut
