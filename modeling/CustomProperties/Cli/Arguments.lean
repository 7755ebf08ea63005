import CustomProperties.Text.Likeness

/-!
The arguments of a command: options by their spellings, and operands. A long option may have its
value attached by an equals sign, a short one right behind its letter, and short options without
values may share one dash. An option that needs a value takes the next argument, whatever it is.
Two dashes alone end the options; a single dash is an operand.
-/

namespace CustomProperties.Cli

inductive OptionName where
  | fallback
  | output
  | base
  | verbose
  | version
  | help
deriving DecidableEq, Repr

structure OptionSpec where
  name : OptionName
  spellings : List String
  takesValue : Bool

/-- What cannot be read as options. An unknown spelling comes with those it may have been meant
for. -/
inductive ArgumentError where
  | unknown (spelling : String) (meant : List String)
  | lacksValue (spelling : String)
  | takesNoValue (spelling : String)
deriving DecidableEq, Repr

/-- Options in the order given, those without a value with an empty one, and the operands. -/
structure Arguments where
  options : List (OptionName × String)
  operands : List String
deriving Repr

namespace Arguments

def addOption (name : OptionName) (value : String) (a : Arguments) : Arguments :=
  { a with options := (name, value) :: a.options }

def addOptions (options : List (OptionName × String)) (a : Arguments) : Arguments :=
  { a with options := options ++ a.options }

def addOperand (operand : String) (a : Arguments) : Arguments :=
  { a with operands := operand :: a.operands }

def values (a : Arguments) (name : OptionName) : List String :=
  (a.options.filter (·.1 = name)).map Prod.snd

/-- The value of an option that counts, the last one. -/
def value? (a : Arguments) (name : OptionName) : Option String := (a.values name).getLast?

def has (a : Arguments) (name : OptionName) : Bool := !(a.values name).isEmpty

end Arguments

def spelled? (specs : List OptionSpec) (spelling : String) : Option OptionSpec :=
  specs.find? (·.spellings.contains spelling)

def shortOption? (specs : List OptionSpec) (letter : Char) : Option OptionSpec :=
  spelled? specs (String.ofList ['-', letter])

def longOption? (specs : List OptionSpec) (spelling : String) : Option OptionSpec :=
  match spelling.toList with
  | '-' :: '-' :: _ => spelled? specs spelling
  | _ => none

def longSpellings (specs : List OptionSpec) : List String :=
  (specs.flatMap (·.spellings)).filter (·.startsWith "--")

def meantFor (name : String) (names : List String) : List String :=
  (Text.closest name.toList (names.map String.toList)).map String.ofList

/-- The options behind a single dash, the last of which may still need its value. -/
structure Cluster where
  options : List (OptionName × String)
  open? : Option (OptionName × String)

def readCluster (specs : List OptionSpec) : List Char → Except ArgumentError Cluster
  | [] => .ok ⟨[], none⟩
  | letter :: rest =>
      let spelling := String.ofList ['-', letter]
      match shortOption? specs letter with
      | none => .error (.unknown spelling [])
      | some spec =>
          if spec.takesValue then
            if rest = [] then .ok ⟨[], some (spec.name, spelling)⟩
            else .ok ⟨[(spec.name, String.ofList rest)], none⟩
          else
            (readCluster specs rest).map fun c =>
              { c with options := (spec.name, "") :: c.options }

def splitValue (argument : String) : String × Option String :=
  let cs := argument.toList
  let spelling := String.ofList (cs.takeWhile (· != '='))
  match cs.dropWhile (· != '=') with
  | _ :: value => (spelling, some (String.ofList value))
  | [] => (spelling, none)

def isOption (argument : String) : Bool :=
  argument.startsWith "-" && argument != "-"

/-- Read arguments. Unless options and operands may be mixed, the first operand ends the
options. -/
def readArguments (specs : List OptionSpec) (mixed : Bool) :
    List String → Except ArgumentError Arguments
  | [] => .ok ⟨[], []⟩
  | argument :: rest =>
      if argument = "--" then .ok ⟨[], rest⟩
      else if isOption argument then
        let (spelling, attached) := splitValue argument
        match longOption? specs spelling with
        | some spec =>
            match spec.takesValue, attached with
            | true, some value => (readArguments specs mixed rest).map (.addOption spec.name value)
            | true, none =>
                match rest with
                | [] => .error (.lacksValue spelling)
                | value :: rest =>
                    (readArguments specs mixed rest).map (.addOption spec.name value)
            | false, some _ => .error (.takesNoValue spelling)
            | false, none => (readArguments specs mixed rest).map (.addOption spec.name "")
        | none =>
            if argument.startsWith "--" then
              .error (.unknown spelling (meantFor spelling (longSpellings specs)))
            else
              match readCluster specs (argument.toList.drop 1) with
              | .error e => .error e
              | .ok ⟨options, none⟩ => (readArguments specs mixed rest).map (.addOptions options)
              | .ok ⟨options, some (name, spelling)⟩ =>
                  match rest with
                  | [] => .error (.lacksValue spelling)
                  | value :: rest =>
                      (readArguments specs mixed rest).map
                        fun a => (a.addOption name value).addOptions options
      else if mixed then (readArguments specs mixed rest).map (.addOperand argument)
      else .ok ⟨[], argument :: rest⟩

end CustomProperties.Cli
