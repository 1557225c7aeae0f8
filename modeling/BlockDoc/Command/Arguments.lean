/-
# Command lines

    [options] (unpack | pack | decode | encode | code) [options] input output

Arguments are taken from left to right.  An option and its value stand in one argument, with an
equals sign between them, or in two.  What an argument says is not judged at once: it stays
*pending* until the next one is understood, so that a mistake in an argument is reported only if
the argument behind it is no worse.

Options of a command stand behind its name, the two common options anywhere.  A common option
behind the name wins over one before it, any of them over the environment, and that over the
default.
-/
import BlockDoc.Command.Config

namespace BlockDoc.Command

/-- Why a command line does not give a request. -/
inductive UsageError where
  /-- There are no arguments at all. -/
  | helpOnMissing
  /-- Help was asked for. -/
  | help
  /-- The version was asked for. -/
  | version
  /-- There is no such command. -/
  | invalidSubcommand
  /-- A command is missing. -/
  | missingSubcommand
  /-- There is no such option here, or no place for a value. -/
  | unknownArgument
  /-- A path is missing. -/
  | missingRequired
  /-- An option has no value, or a path is empty. -/
  | invalidValue
  /-- A value is not of the form it should have. -/
  | valueValidation
  /-- An option was given twice. -/
  | conflict
  /-- An option without value was given one. -/
  | tooManyValues
  deriving DecidableEq

/-- The commands. -/
inductive Name where
  | unpack
  | pack
  | decode
  | encode
  | code
  deriving DecidableEq

/-- The command with a name. -/
def Name.ofString? : String → Option Name
  | "unpack" => some .unpack
  | "pack" => some .pack
  | "decode" => some .decode
  | "encode" => some .encode
  | "code" => some .code
  | _ => none

/-- The options. -/
inductive Opt where
  | encoding
  | logLevel
  | seed
  | grouped
  | help
  | version
  deriving DecidableEq

/-- Whether an option has a value. -/
def Opt.hasValue : Opt → Bool
  | .encoding => true
  | .logLevel => true
  | .seed => true
  | _ => false

/-- The option with a long name, in front of the command (`none`) or behind it. -/
def Opt.ofLong? (scope : Option Name) (name : String) : Option Opt :=
  match name with
  | "encoding" => some .encoding
  | "log-level" => some .logLevel
  | "help" => some .help
  | "version" => if scope = none then some .version else none
  | "seed" => if scope = some .pack then some .seed else none
  | "grouped" =>
    if scope = some .decode ∨ scope = some .encode then some .grouped else none
  | _ => none

/-- The option with a short name. -/
def Opt.ofShort? (scope : Option Name) (c : Char) : Option Opt :=
  if c = 'h' then some .help
  else if c = 'V' ∧ scope = none then some .version
  else none

/-! ## 1. What was given -/

/-- What the arguments on one side of the command have said. -/
structure Given where
  encoding? : Option String := none
  logLevel? : Option String := none
  seed? : Option Int32 := none
  grouped : Bool := false
  input? : Option String := none
  output? : Option String := none

/-- An argument that was not judged yet. -/
inductive Pending where
  /-- An option with its value, unless that is still missing. -/
  | option (o : Opt) (value? : Option String)
  /-- A path. -/
  | path (value : String)
  deriving DecidableEq

/-- The seed that a text stands for: a sign or none, and digits. -/
def seedOfString? (s : String) : Option Int32 :=
  let value? : Option Int := match s.toList with
    | '-' :: rest => (digitsValue? rest).map fun n => -(n : Int)
    | '+' :: rest => (digitsValue? rest).map fun n => (n : Int)
    | cs => (digitsValue? cs).map fun n => (n : Int)
  value?.bind fun v => if -0x80000000 ≤ v ∧ v < 0x80000000 then some (Int32.ofInt v) else none

/-- Take a text as the value of an option that must not have one yet. -/
def once (old? : Option String) (value : String) : Except UsageError (Option String) :=
  match old? with
  | none => .ok (some value)
  | some _ => .error .conflict

/-- Judge an option. -/
def Given.setOption (g : Given) (o : Opt) (value? : Option String) : Except UsageError Given :=
  match o, value? with
  | .help, _ => .error .help
  | .version, _ => .error .version
  | .grouped, _ => if g.grouped then .error .conflict else .ok { g with grouped := true }
  | _, none => .error .invalidValue
  | .encoding, some v => (once g.encoding? v).map fun e => { g with encoding? := e }
  | .logLevel, some v => (once g.logLevel? v).map fun l => { g with logLevel? := l }
  | .seed, some v =>
    if g.seed?.isSome then .error .conflict
    else match seedOfString? v with
      | some n => .ok { g with seed? := some n }
      | none => .error .valueValidation

/-- Judge a path: the first is read, the second written. -/
def Given.addPath (g : Given) (path : String) : Except UsageError Given :=
  if path = "" then .error .invalidValue
  else match g.input? with
    | none => .ok { g with input? := some path }
    | some _ => .ok { g with output? := some path }

/-! ## 2. From left to right -/

/-- The state between two arguments. -/
structure Scan where
  /-- What was judged. -/
  given : Given := {}
  /-- The argument before this one. -/
  pending? : Option Pending := none
  /-- Whether all further arguments are paths. -/
  onlyPaths : Bool := false
  /-- How many paths there were. -/
  paths : Nat := 0

/-- Judge the pending argument. -/
def Scan.settle (s : Scan) : Except UsageError Scan :=
  match s.pending? with
  | none => .ok s
  | some (.option o value?) =>
    (s.given.setOption o value?).map fun g => { s with given := g, pending? := none }
  | some (.path value) =>
    (s.given.addPath value).map fun g => { s with given := g, pending? := none }

/-- The option whose value comes next. -/
def Scan.awaiting? (s : Scan) : Option Opt :=
  match s.pending? with
  | some (.option o none) => some o
  | _ => none

/-- Whether a text looks like a number: digits, a point behind the first of them, and an
exponent. -/
def looksNumeric (cs : List Char) : Bool :=
  let mantissa := cs.takeWhile (· ≠ 'e')
  let rest := cs.dropWhile (· ≠ 'e')
  let dotted := mantissa.head? != some '.' && mantissa.count '.' ≤ 1 &&
    mantissa.all fun c => c.isDigit || c == '.'
  match rest with
  | [] => dotted
  | _ :: digits => mantissa ≠ [] && dotted && digits ≠ [] && digits.all Char.isDigit

/-- What an argument is by its form. -/
inductive Form where
  /-- Two dashes: only paths follow. -/
  | escape
  /-- A long option, with the value behind an equals sign. -/
  | long (name : String) (value? : Option String)
  /-- Short options. -/
  | short (names : List Char)
  /-- Anything else. -/
  | plain
  deriving DecidableEq

/-- The form of an argument. -/
def Form.ofString (arg : String) : Form :=
  match arg.toList with
  | ['-', '-'] => .escape
  | '-' :: '-' :: rest =>
    match rest.takeWhile (· ≠ '='), rest.dropWhile (· ≠ '=') with
    | name, [] => .long (String.ofList name) none
    | name, _ :: value => .long (String.ofList name) (some (String.ofList value))
  | '-' :: c :: rest => .short (c :: rest)
  | _ => .plain

/-- Take a long option. -/
def Scan.long (scope : Option Name) (s : Scan) (name : String) (value? : Option String) :
    Except UsageError Scan :=
  match Opt.ofLong? scope name with
  | none => .error .unknownArgument
  | some o =>
    if o.hasValue then do
      let s ← s.settle
      match value? with
      | none => .ok { s with pending? := some (.option o none) }
      | some v => Scan.settle { s with pending? := some (.option o (some v)) }
    else if value?.isSome then .error .tooManyValues
    else do
      let s ← s.settle
      Scan.settle { s with pending? := some (.option o none) }

/-- Take short options.  Each of them ends the command line, so the first one counts. -/
def Scan.short (scope : Option Name) (s : Scan) (names : List Char) : Except UsageError Scan :=
  match names.head?.bind (Opt.ofShort? scope) with
  | none => .error .unknownArgument
  | some o => do
    let s ← s.settle
    Scan.settle { s with pending? := some (.option o none) }

/-- Take an argument that stands where a path stands. -/
def Scan.path (scope : Option Name) (s : Scan) (arg : String) : Except UsageError Scan :=
  match scope with
  | none =>
    if s.onlyPaths && ((Name.ofString? arg).isSome || arg == "help") then
      .error .unknownArgument
    else .error .invalidSubcommand
  | some _ =>
    if s.paths ≥ 2 then .error .unknownArgument
    else do
      let s ← s.settle
      .ok { s with pending? := some (.path arg), paths := s.paths + 1 }

/-- Take an argument that is neither a command nor an option: a value if one is awaited. -/
def Scan.plain (scope : Option Name) (s : Scan) (arg : String) : Except UsageError Scan :=
  match s.awaiting? with
  | some o => .ok { s with pending? := some (.option o (some arg)) }
  | none => s.path scope arg

/-- Take an argument. -/
def Scan.take (scope : Option Name) (s : Scan) (arg : String) : Except UsageError Scan :=
  if s.onlyPaths then s.path scope arg
  else match Form.ofString arg with
    | .escape => .ok { s with onlyPaths := true }
    | .long name value? => s.long scope name value?
    | .short names =>
      if s.awaiting? = some .seed ∧ looksNumeric names then s.plain scope arg
      else s.short scope names
    | .plain => s.plain scope arg

/-- What the help command says about the arguments behind it. -/
def helpOn : List String → UsageError
  | [] => .help
  | [arg] => if (Name.ofString? arg).isSome || arg == "help" then .help else .invalidSubcommand
  | _ => .invalidSubcommand

/-- Take the arguments in front of the command; the command and what follows it, if there is
one. -/
def scanFront (s : Scan) : List String → Except UsageError (Scan × Option (Name × List String))
  | [] => .ok (s, none)
  | arg :: rest =>
    if !s.onlyPaths && s.awaiting?.isNone then
      match Name.ofString? arg with
      | some name => .ok (s, some (name, rest))
      | none =>
        if arg = "help" then .error (helpOn rest)
        else do
          let s ← s.take none arg
          scanFront s rest
    else do
      let s ← s.take none arg
      scanFront s rest

/-- Take the arguments behind the command. -/
def scanBack (name : Name) (s : Scan) (args : List String) : Except UsageError Scan :=
  args.foldlM (fun s arg => s.take (some name) arg) s

/-! ## 3. Requests -/

/-- What the environment says. -/
structure Environment where
  encoding? : Option String := none
  logLevel? : Option String := none
  seed? : Option String := none

/-- The label of the character set if nothing is said. -/
def defaultLabel : String := "windows-1251"

/-- The log level if nothing is said. -/
def defaultLogLevel : String := "info"

/-- The seed of an archive: that of the arguments, or of the environment, or zero. -/
def seedOf (env : Environment) (g : Given) : Except UsageError Int32 :=
  match g.seed?, env.seed? with
  | some n, _ => .ok n
  | none, none => .ok 0
  | none, some s => match seedOfString? s with
    | some n => .ok n
    | none => .error .valueValidation

/-- The conversion that a command and its options ask for. -/
def conversionOf (env : Environment) (name : Name) (g : Given) : Except UsageError Conversion :=
  match name with
  | .unpack => .ok .unpack
  | .pack => (seedOf env g).map .pack
  | .decode => .ok (.decode g.grouped)
  | .encode => .ok (.encode g.grouped)
  | .code => .ok .code

/-- The request of a command line. -/
def parseArguments (env : Environment) (args : List String) : Except UsageError Config := do
  let (front, command?) ← scanFront {} args
  match command? with
  | none =>
    let front ← front.settle
    if front.given.encoding?.isNone && front.given.logLevel?.isNone &&
        env.encoding?.isNone && env.logLevel?.isNone then .error .helpOnMissing
    else .error .missingSubcommand
  | some (name, rest) =>
    let back ← scanBack name {} rest
    let back ← back.settle
    let conversion ← conversionOf env name back.given
    match back.given.input?, back.given.output? with
    | some input, some output =>
      let front ← front.settle
      let pick (a b c : Option String) (default : String) : String :=
        ((a.or b).or c).getD default
      .ok {
        label := pick back.given.encoding? front.given.encoding? env.encoding? defaultLabel
        logLevel := pick back.given.logLevel? front.given.logLevel? env.logLevel? defaultLogLevel
        conversion, input, output }
    | _, _ => .error .missingRequired

end BlockDoc.Command
