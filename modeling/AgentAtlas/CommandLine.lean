import AgentAtlas.Build

/-!
# The command line

`build ROOT` and `check ROOT`, with `b` and `c` for short. Switches and options may stand anywhere;
an option takes the next argument, or what follows `=` or its letter in the same one, and an
argument that looks like an option is never such a value. After `--` every argument is a root.
Nothing may be given twice.

Arguments are read one after the other (`State.step`); the first that cannot be read ends the
reading, and so does a request for help.
-/

set_option autoImplicit false

namespace AgentAtlas.CommandLine

/-- Which arguments are known: those before the command, or those of a command. -/
inductive Scope where
  | top
  | build
  | check
  deriving DecidableEq, Repr

/-- An argument without a value. -/
inductive Switch where
  | verbose
  | help
  | releasedNow
  | gzip
  deriving DecidableEq, Repr

/-- An argument with a value. -/
inductive Setting where
  | output
  | flavor
  | format
  | version
  | released
  deriving DecidableEq, Repr

/-- Why reading ends before the last argument. -/
inductive Stop where
  /-- The arguments make no sense. -/
  | usage
  /-- Help is asked for. -/
  | help
  deriving DecidableEq, Repr

/-- The switch of a long name. -/
def Scope.longSwitch? (scope : Scope) (name : String) : Option Switch :=
  match scope, name with
  | _, "verbose" => some .verbose
  | _, "help" => some .help
  | .build, "released-now" => some .releasedNow
  | .build, "gzip" => some .gzip
  | _, _ => none

/-- The option of a long name. -/
def Scope.longSetting? (scope : Scope) (name : String) : Option Setting :=
  match scope, name with
  | .build, "output" => some .output
  | .build, "flavor" => some .flavor
  | .build, "format" => some .format
  | .build, "data-version" => some .version
  | .build, "released" => some .released
  | _, _ => none

/-- The switch of a letter. -/
def Scope.shortSwitch? : Scope → Char → Option Switch
  | _, 'v' => some .verbose
  | _, 'h' => some .help
  | _, _ => none

/-- The option of a letter. -/
def Scope.shortSetting? : Scope → Char → Option Setting
  | .build, 'o' => some .output
  | _, _ => none

/-- What has been given so far. -/
structure Given where
  switches : List Switch := []
  root? : Option String := none
  output? : Option String := none
  flavor? : Option Flavor := none
  format? : Option Format := none
  version? : Option String := none
  released? : Option String := none
  deriving DecidableEq, Repr

namespace Given

/-- Turn a switch on, once. -/
def turnOn (given : Given) : Switch → Except Stop Given
  | .help => .error .help
  | switch =>
    if given.switches.contains switch then .error .usage
    else .ok { given with switches := switch :: given.switches }

/-- Store a value where none is. -/
def once {α : Type} (old : Option α) (value : Option α) : Except Stop (Option α) :=
  match old, value with
  | none, some v => .ok (some v)
  | _, _ => .error .usage

/-- A path, which is not empty. -/
def path? (s : String) : Option String := if s = "" then none else some s

/-- Give an option its value, once. -/
def assign (given : Given) (setting : Setting) (value : String) : Except Stop Given :=
  match setting with
  | .output => return { given with output? := ← once given.output? (path? value) }
  | .flavor => return { given with flavor? := ← once given.flavor? (Flavor.ofName? value) }
  | .format => return { given with format? := ← once given.format? (Format.ofName? value) }
  | .version => return { given with version? := ← once given.version? (some value) }
  | .released => return { given with released? := ← once given.released? (some value) }

/-- Name the root, once. -/
def nameRoot (scope : Scope) (given : Given) (value : String) : Except Stop Given :=
  match scope with
  | .top => .error .usage
  | _ => return { given with root? := ← once given.root? (path? value) }

end Given

/-- How the next argument is read. -/
inductive Mode where
  /-- As whatever it looks like. -/
  | free
  /-- As the value of an option. -/
  | valueOf (setting : Setting)
  /-- As a root. -/
  | rootOnly
  deriving DecidableEq, Repr

/-- What has been given, and how the next argument is read. -/
structure State where
  mode : Mode := .free
  given : Given := {}
  deriving DecidableEq, Repr

namespace State

/-- An argument after two dashes: its name, and its value behind an equals sign. -/
def stepLong (state : State) (scope : Scope) (argument : List Char) : Except Stop State :=
  let name := String.ofList (argument.takeWhile (· != '='))
  let value? := match argument.dropWhile (· != '=') with
    | [] => none
    | _ :: value => some (String.ofList value)
  match scope.longSwitch? name, scope.longSetting? name, value? with
  | some switch, _, none => return { state with given := ← state.given.turnOn switch }
  | none, some setting, some value =>
    return { state with given := ← state.given.assign setting value }
  | none, some setting, none => return { state with mode := .valueOf setting }
  | _, _, _ => throw .usage

/-- The letters after one dash: switches, and at the end an option with or without its value. -/
def stepShort (state : State) (scope : Scope) : List Char → Except Stop State
  | [] => .ok state
  | letter :: rest =>
    match scope.shortSwitch? letter, scope.shortSetting? letter with
    | some switch, _ =>
      match state.given.turnOn switch with
      | .ok given => stepShort { state with given := given } scope rest
      | .error stop => .error stop
    | none, some setting =>
      -- An option takes all letters after its own as its value.
      match rest with
      | [] => .ok { state with mode := .valueOf setting }
      | '=' :: value =>
        return { state with given := ← state.given.assign setting (String.ofList value) }
      | value => return { state with given := ← state.given.assign setting (String.ofList value) }
    | none, none => .error .usage

/-- Whether an argument can be no value: it starts with a dash and is more than that. -/
def looksLikeOption : List Char → Bool
  | '-' :: _ :: _ => true
  | _ => false

/-- One argument. -/
def step (scope : Scope) (state : State) (argument : String) : Except Stop State :=
  match state.mode with
  | .rootOnly => return { state with given := ← state.given.nameRoot scope argument }
  | .valueOf setting =>
    if looksLikeOption argument.toList then throw .usage
    else return { mode := .free, given := ← state.given.assign setting argument }
  | .free =>
    match argument.toList with
    | ['-', '-'] => return { state with mode := .rootOnly }
    | '-' :: '-' :: long => state.stepLong scope long
    | '-' :: letter :: letters => state.stepShort scope (letter :: letters)
    | _ => return { state with given := ← state.given.nameRoot scope argument }

end State

/-- Everything the arguments of a command give. -/
def given (scope : Scope) (arguments : List String) : Except Stop Given := do
  let last ← arguments.foldlM (State.step scope) {}
  match last.mode with
  | .valueOf _ => throw .usage
  | _ => return last.given

/-- What the program is asked to do. -/
inductive Request where
  | check (root : String)
  /-- Build, with the present time as the release date if `stamped`. -/
  | build (root : String) (options : BuildOptions) (stamped : Bool) (output? : Option String)
    (gzip : Bool)
  deriving DecidableEq, Repr

/-- The resource tree of a request. -/
def Request.root : Request → String
  | .check root => root
  | .build root _ _ _ _ => root

/-- The request to check. -/
def checkRequest (arguments : List String) : Except Stop Request := do
  match (← given .check arguments).root? with
  | some root => return .check root
  | none => throw .usage

/-- The request to build. A release date and the present time exclude each other. -/
def buildRequest (arguments : List String) : Except Stop Request := do
  let g ← given .build arguments
  let stamped := g.switches.contains .releasedNow
  if stamped && g.released?.isSome then throw .usage
  match g.root? with
  | none => throw .usage
  | some root =>
    let options : BuildOptions := {
      flavor := g.flavor?.getD .full
      format := g.format?.getD .json
      version? := g.version?
      released? := g.released? }
    return .build root options stamped g.output? (g.switches.contains .gzip)

/-- The names after which help is given on a command. -/
def helpTopics : List String := ["build", "b", "check", "c", "help"]

/-- Arguments before the command, then the command. -/
def requestFrom (state : State) : List String → Except Stop Request
  | [] => .error .usage
  | argument :: rest =>
    if state.mode = .rootOnly then .error .usage
    else if argument = "build" ∨ argument = "b" then buildRequest rest
    else if argument = "check" ∨ argument = "c" then checkRequest rest
    else if argument = "help" then
      match rest with
      | [] => .error .help
      | [topic] => .error (if helpTopics.contains topic then .help else .usage)
      | _ => .error .usage
    else
      match state.step .top argument with
      | .ok next => requestFrom next rest
      | .error stop => .error stop

/-- The request which arguments make. -/
def request (arguments : List String) : Except Stop Request := requestFrom {} arguments

/-- What help shows. -/
def helpText : String :=
  String.intercalate "\n" [
    "Compile a browser capability database into a user-agent lookup artifact",
    "",
    "Usage: browscap [OPTIONS] <COMMAND>",
    "",
    "Commands:",
    "  build  Compile a resource tree into an artifact",
    "  check  Validate a resource tree without writing anything",
    "  help   Print this message or the help of the given subcommand(s)",
    "",
    "Options:",
    "  -v, --verbose  Verbose output (debug logging on stderr)",
    "  -h, --help     Print help",
    ""]

end AgentAtlas.CommandLine
