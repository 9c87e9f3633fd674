import KilnLang.Compiler

/-!
# Command line options

What the command line asks for (`Options`). How arguments are read is a parameter of the program
(`ArgReader`), as it comes from a library, and what is relied on is in `ArgReader.Documented`. The
reader that the program runs with (`Options.read`) goes from left to right. The first thing that ends
the reading decides: a request for help or for the version, or an argument that is wrong.

**Arguments.** `--name` and `--name=value` are long flags. `-abc` are short flags; the first one
that takes a value takes what is left of the argument, with or without an equals sign. A value
that is not in the same argument is the next one, unless that looks like a flag. A lone `-` is an
input, and all that follows `--` are inputs.
-/

namespace KilnLang.CommandLine

/-- What the arguments ask for. -/
structure Options where
  inputs : List String := []
  output : Option String := none
  emit : Option EmitFormat := none
  includeDirs : List String := []
  dataModel : Option DataModel := none
  verbosity : Nat := 0
  deriving DecidableEq, Repr, Inhabited

/-- How the program ends when its arguments are no options. -/
structure Exit where
  code : Nat
  stdout : String
  stderr : String
  deriving DecidableEq, Repr, Inhabited

/-- A way to read arguments. -/
abbrev ArgReader := List String → Except Exit Options

/-- What is relied on of the reading of arguments: an option whose value is a path does not take an
empty one. -/
structure ArgReader.Documented (read : ArgReader) : Prop where
  output_ne_empty : ∀ args o, read args = .ok o → o.output ≠ some ""

/-! ## Flags -/

/-- The flags of the command line. -/
inductive Flag where
  | output
  | emit
  | includeDir
  | dataModel
  | verbose
  | help
  | version
  deriving DecidableEq, Repr, Inhabited

namespace Flag

/-- Whether a flag takes a value. -/
def takesValue : Flag → Bool
  | .output | .emit | .includeDir | .dataModel => true
  | .verbose | .help | .version => false

/-- The flag with a long name. -/
def ofLong? : String → Option Flag
  | "output" => some .output
  | "emit" => some .emit
  | "include-dir" => some .includeDir
  | "data-model" => some .dataModel
  | "verbose" => some .verbose
  | "help" => some .help
  | "version" => some .version
  | _ => none

/-- The flag with a short name. -/
def ofShort? : Char → Option Flag
  | 'o' => some .output
  | 'I' => some .includeDir
  | 'v' => some .verbose
  | 'h' => some .help
  | 'V' => some .version
  | _ => none

/-- A flag as messages write it. -/
def render : Flag → String
  | .output => "--output <PATH>"
  | .emit => "--emit <FORMAT>"
  | .includeDir => "--include-dir <DIR>"
  | .dataModel => "--data-model <MODEL>"
  | .verbose => "--verbose"
  | .help => "--help"
  | .version => "--version"

end Flag

/-- What is wrong with the arguments. -/
inductive UsageError where
  | unknown (text : String)
  | missingValue (flag : Flag)
  | unexpectedValue (flag : Flag) (value : String)
  | invalidValue (flag : Flag) (value reason : String)
  | emptyInput
  | repeated (flag : Flag)
  deriving DecidableEq, Repr, Inhabited

/-- The message for wrong arguments. -/
def UsageError.message : UsageError → String
  | .unknown text => s!"unexpected argument '{text}' found"
  | .missingValue flag => s!"a value is required for '{flag.render}' but none was supplied"
  | .unexpectedValue flag value =>
    s!"unexpected value '{value}' for '{flag.render}' found; no more were expected"
  | .invalidValue flag value reason => s!"invalid value '{value}' for '{flag.render}': {reason}"
  | .emptyInput => "a value is required for '[INPUTS]...' but none was supplied"
  | .repeated flag => s!"the argument '{flag.render}' cannot be used multiple times"

/-- Why the reading of arguments ends before the last of them. -/
inductive Stop where
  | help
  | version
  | usage (error : UsageError)
  deriving DecidableEq, Repr, Inhabited

namespace Options

/-- Adds an input. -/
def addInput (o : Options) (input : String) : Except Stop Options :=
  if input == "" then .error (.usage .emptyInput)
  else .ok { o with inputs := o.inputs ++ [input] }

/-- Fills an option that can be given once. -/
def once {α : Type} (flag : Flag) (old : Option α) (new : α) : Except Stop (Option α) :=
  if old.isSome then .error (.usage (.repeated flag)) else .ok (some new)

/-- Gives a flag its value. -/
def set (o : Options) (flag : Flag) (value : String) : Except Stop Options :=
  match flag with
  | .output =>
    if value == "" then .error (.usage (.missingValue flag))
    else return { o with output := ← once flag o.output value }
  | .emit =>
    match EmitFormat.ofName? value with
    | none =>
      .error (.usage (.invalidValue flag value (CompileError.unsupportedFormat value).message))
    | some format => return { o with emit := ← once flag o.emit format }
  | .includeDir =>
    if value == "" then .error (.usage (.missingValue flag))
    else .ok { o with includeDirs := o.includeDirs ++ [value] }
  | .dataModel =>
    match DataModel.ofName? value with
    | none =>
      .error (.usage (.invalidValue flag value (CompileError.unknownDataModel value).message))
    | some model => return { o with dataModel := ← once flag o.dataModel model }
  | .verbose | .help | .version => .error (.usage (.unexpectedValue flag value))

/-- Raises a flag that takes no value. -/
def raise (o : Options) (flag : Flag) : Except Stop Options :=
  match flag with
  | .verbose => .ok { o with verbosity := o.verbosity + 1 }
  | .help => .error .help
  | .version => .error .version
  | .output | .emit | .includeDir | .dataModel => .error (.usage (.missingValue flag))

end Options

/-! ## Reading -/

/-- What one argument says: inputs, and flags with the values that the argument itself holds. -/
inductive Item where
  | input (value : String)
  | flag (flag : Flag) (value : Option String)
  | unknown (text : String)
  deriving DecidableEq, Repr, Inhabited

/-- The text after an equals sign at the start, or all of it. -/
def afterEquals : List Char → List Char
  | '=' :: cs => cs
  | cs => cs

/-- The short flags of an argument. -/
def shortItems : List Char → List Item
  | [] => []
  | c :: cs =>
    match Flag.ofShort? c with
    | none => [.unknown (String.ofList ['-', c])]
    | some flag =>
      if !flag.takesValue then .flag flag none :: shortItems cs
      else if cs.isEmpty then [.flag flag none]
      else [.flag flag (some (String.ofList (afterEquals cs)))]

/-- The long flag of an argument, without its dashes. -/
def longItem (cs : List Char) : Item :=
  let name := String.ofList (cs.takeWhile (· != '='))
  let value := match cs.dropWhile (· != '=') with
    | [] => none
    | _ :: value => some (String.ofList value)
  match Flag.ofLong? name with
  | none => .unknown ("--" ++ name)
  | some flag => .flag flag value

/-- What an argument says. -/
def itemsOf (arg : String) : List Item :=
  match arg.toList with
  | '-' :: '-' :: cs => [longItem cs]
  | '-' :: c :: cs => shortItems (c :: cs)
  | _ => [.input arg]

/-- Whether an argument cannot be the value of the flag before it. -/
def looksLikeFlag (arg : String) : Bool :=
  match arg.toList with
  | '-' :: _ :: _ => true
  | _ => false

/-- Reads what one argument says, up to a flag whose value is still to come. -/
def readItems (o : Options) : List Item → Except Stop (Options × Option Flag)
  | [] => .ok (o, none)
  | .unknown text :: _ => .error (.usage (.unknown text))
  | .input value :: more => do readItems (← o.addInput value) more
  | .flag flag (some value) :: more => do readItems (← o.set flag value) more
  | .flag flag none :: more =>
    if flag.takesValue then .ok (o, some flag)
    else do readItems (← o.raise flag) more

/-- Reads inputs only. -/
def readInputs (o : Options) : List String → Except Stop Options
  | [] => .ok o
  | arg :: args => do readInputs (← o.addInput arg) args

/-- Reads arguments; `pending` is a flag that waits for its value. -/
def readArgs (o : Options) (pending : Option Flag) : List String → Except Stop Options
  | [] =>
    match pending with
    | none => .ok o
    | some flag => .error (.usage (.missingValue flag))
  | arg :: args =>
    match pending with
    | some flag =>
      if looksLikeFlag arg then .error (.usage (.missingValue flag))
      else do readArgs (← o.set flag arg) none args
    | none =>
      if arg == "--" then readInputs o args
      else do
        let (o, pending) ← readItems o (itemsOf arg)
        readArgs o pending args

/-- The options that arguments ask for. -/
def Options.ofArgs (args : List String) : Except Stop Options := readArgs {} none args

/-! ## Help -/

/-- The summary of how the program is called. -/
def usage : String := "Usage: kiln [OPTIONS] [INPUTS]..."

/-- An entry of the help text: what is written on the command line, and what it does. -/
structure HelpEntry where
  form : String
  description : String
  deriving DecidableEq, Repr, Inhabited

/-- The entries for what is no flag. -/
def argumentEntries : List HelpEntry := [
  ⟨"[INPUTS]...", "Source files or directories of `.kn` files; stdin when omitted"⟩]

/-- The entries for flags. -/
def optionEntries : List HelpEntry := [
  ⟨"-o, --output <PATH>",
    "Output file for a single input, output directory for several (defaults to stdout)"⟩,
  ⟨"    --emit <FORMAT>", "Output format: c, ast [default: c]"⟩,
  ⟨"-I, --include-dir <DIR>", "Add a header search directory"⟩,
  ⟨"    --data-model <MODEL>",
    "C data model for platform-sized integers: lp64, llp64, ilp32 [default: lp64]"⟩,
  ⟨"-v, --verbose...", "Log more (-v info, -vv debug, -vvv trace)"⟩,
  ⟨"-h, --help", "Print help"⟩,
  ⟨"-V, --version", "Print version"⟩]

/-- The lines of entries: the descriptions start in one column, two spaces after the longest form,
and are never broken. -/
def helpLines (entries : List HelpEntry) : List String :=
  let width := (entries.map (·.form.length)).foldl max 0
  entries.map fun e =>
    "  " ++ e.form ++ String.ofList (List.replicate (width - e.form.length + 2) ' ') ++ e.description

/-- The text for help. -/
def helpText : String :=
  "\n".intercalate (
    ["Compile Kiln sources to C", "", usage, "", "Arguments:"] ++ helpLines argumentEntries ++
    ["", "Options:"] ++ helpLines optionEntries ++ [""])

/-- The text for the version. -/
def versionText : String := "kiln 0.1.0\n"

/-- The text for wrong arguments. -/
def UsageError.render (e : UsageError) : String :=
  s!"error: {e.message}\n\n{usage}\n\nFor more information, try '--help'.\n"

/-- How the program ends when the reading of its arguments does. -/
def Stop.exit : Stop → Exit
  | .help => ⟨0, helpText, ""⟩
  | .version => ⟨0, versionText, ""⟩
  | .usage e => ⟨2, "", e.render⟩

/-- Reads arguments from left to right. -/
def Options.read : ArgReader := fun args => (Options.ofArgs args).mapError Stop.exit

end KilnLang.CommandLine
