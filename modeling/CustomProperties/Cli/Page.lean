import CustomProperties.Cli.Arguments
import CustomProperties.Text.Quoted

/-!
What the program says about itself: the help of the program and of its two commands, its version,
and what is wrong with the way it was called.
-/

namespace CustomProperties.Cli

inductive Page where
  | program
  | process
  | inspect
deriving DecidableEq, Repr

inductive Misuse where
  | argument (e : ArgumentError)
  | missingArgument
  | missingOption
  | extra (operands : List String)
  | unknownCommand (name : String) (meant : List String)
  | missingCommand
  /-- The value of a parameter names no entry of the kind that is wanted. -/
  | badEntry (parameter kind path trouble : String)
deriving DecidableEq, Repr

def versionLine : String := "var-fallback, version 0.1.0\n"

namespace Page

def name : Page → String
  | program => "var-fallback"
  | process => "var-fallback process"
  | inspect => "var-fallback inspect"

def usage : Page → String
  | program => "Usage: var-fallback [OPTIONS] COMMAND [ARGS]...\n"
  | process => "Usage: var-fallback process [OPTIONS] TARGET\n"
  | inspect => "Usage: var-fallback inspect [OPTIONS]\n"

def options : Page → List OptionSpec
  | program => [⟨.version, ["--version"], false⟩, ⟨.help, ["--help"], false⟩]
  | process =>
      [⟨.fallback, ["-f", "--fallback"], true⟩, ⟨.output, ["-o", "--output"], true⟩,
        ⟨.verbose, ["--verbose"], false⟩, ⟨.help, ["--help"], false⟩]
  | inspect =>
      [⟨.fallback, ["-f", "--fallback"], true⟩, ⟨.base, ["--base"], true⟩,
        ⟨.help, ["--help"], false⟩]

def body : Page → String
  | program =>
      "  var-fallback - add computed fallbacks to CSS var() references.\n\n" ++
      "Options:\n" ++
      "  --version  Show the version and exit.\n" ++
      "  --help     Show this message and exit.\n\n" ++
      "Commands:\n" ++
      "  inspect  Show the merged variables of the fallback sources.\n" ++
      "  process  Add computed fallbacks to every var() reference in TARGET.\n"
  | process =>
      "  Add computed fallbacks to every var() reference in TARGET.\n\n" ++
      "  Fallback paths are resolved relative to TARGET's directory. Warnings are\n" ++
      "  printed to stderr; the run only fails if TARGET cannot be parsed.\n\n" ++
      "Options:\n" ++
      "  -f, --fallback TEXT  Stylesheet defining variables; repeat in precedence order\n" ++
      "                       (last wins).\n" ++
      "  -o, --output FILE    Write the result here instead of stdout.\n" ++
      "  --verbose            Log engine activity to stderr.\n" ++
      "  --help               Show this message and exit.\n"
  | inspect =>
      "  Show the merged variables of the fallback sources.\n\n" ++
      "  Lists every variable with its winning raw value and the fallback that would be\n" ++
      "  written for it, and marks circular variables.\n\n" ++
      "Options:\n" ++
      "  -f, --fallback TEXT  Stylesheet defining variables; repeat in precedence order\n" ++
      "                       (last wins).  [required]\n" ++
      "  --base DIRECTORY     Directory that fallback paths are relative to (default:\n" ++
      "                       cwd).\n" ++
      "  --help               Show this message and exit.\n"

def help (p : Page) : String := p.usage ++ "\n" ++ p.body

end Page

def commands : List String := ["inspect", "process"]

def quotedString (s : String) : String := String.ofList (Text.quoted s.toList)

/-- What is said about the names that may have been meant, in alphabetical order. -/
def suggestion (meant : List String) : String :=
  match (sorted (fun a b => !Text.isBefore b.toList a.toList) meant).map quotedString with
  | [] => ""
  | [name] => " Did you mean " ++ name ++ "?"
  | names => " (Did you mean one of: " ++ ", ".intercalate names ++ "?)"

namespace Misuse

def text : Misuse → String
  | argument (.unknown spelling meant) =>
      "No such option " ++ quotedString spelling ++ "." ++ suggestion meant
  | argument (.lacksValue spelling) =>
      "Option " ++ quotedString spelling ++ " requires an argument."
  | argument (.takesNoValue spelling) =>
      "Option " ++ quotedString spelling ++ " does not take a value."
  | missingArgument => "Missing argument 'TARGET'."
  | missingOption => "Missing option '-f' / '--fallback'."
  | extra operands =>
      "Got unexpected extra argument" ++ (if operands.length = 1 then "" else "s") ++ " (" ++
        " ".intercalate operands ++ ")"
  | unknownCommand name meant =>
      "No such command " ++ quotedString name ++ "." ++ suggestion meant
  | missingCommand => "Missing command."
  | badEntry parameter kind path trouble =>
      "Invalid value for " ++ parameter ++ ": " ++ kind ++ " " ++ quotedString path ++ " " ++
        trouble ++ "."

/-- What is told of a misuse. A value that is missing, or not wanted, is told without the usage. -/
def message (p : Page) (m : Misuse) : String :=
  let error := "Error: " ++ m.text ++ "\n"
  match m with
  | argument (.lacksValue _) => error
  | argument (.takesNoValue _) => error
  | _ => p.usage ++ "Try '" ++ p.name ++ " --help' for help.\n\n" ++ error

end Misuse

end CustomProperties.Cli
