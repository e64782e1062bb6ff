import Routing.Settings
import Routing.Text.Digit

/-!
# Arguments of the command

A request is the path of a route table and what to do with it. Options start with a dash. A long option may be
shortened as long as it is told from all others, and takes its argument after an equals sign or as the next word;
short options may be written as one word, in which an equals sign may follow the first one. After the word `--`
nothing is an option. A negative number or a text with a blank, where it names no option, is not one either.
-/

namespace Routing.Command

/-- What the command is asked to do. -/
structure Request where
  /-- The path of the file with the route table. -/
  table : Text
  /-- Whether to list all routes. -/
  listing : Bool := false
  /-- The location to match. -/
  location : Option Text := none
  /-- The location that is left. -/
  origin : Option Text := none
  /-- The name of the route to link to. -/
  link : Option Text := none
  /-- The parameters of the link, each as `KEY=VALUE`. -/
  params : List Text := []
  verbosity : Nat := 1
  deriving DecidableEq, Repr

/-- The verbosity of a request; debugging raises it. -/
def Request.noteLevel (q : Request) (settings : Settings) : Nat :=
  if settings.debugMode then max q.verbosity 3 else q.verbosity

/-- An option. -/
inductive Switch where
  | help
  | listing
  | location
  | origin
  | link
  | param
  | verbosity
  | version
  deriving DecidableEq, Repr

/-- The long names of the options. -/
def longNames : List (Text × Switch) :=
  [("--help", .help), ("--list", .listing), ("--match", .location), ("--from", .origin), ("--link", .link),
    ("--param", .param), ("--verbosity", .verbosity), ("--version", .version)].map fun (name, s) => (name.toList, s)

/-- The options with a letter. None of them takes an argument. -/
def ofLetter : Char → Option Switch
  | 'h' => some .help
  | 'v' => some .verbosity
  | 'V' => some .version
  | _ => none

/-- Whether an option takes an argument. -/
def Switch.takesArgument : Switch → Bool
  | location | origin | link | param => true
  | help | listing | verbosity | version => false

/-- What a word of the command line is. -/
inductive Word where
  /-- A word that is no option. -/
  | plain (t : Text)
  /-- Options by their letters. -/
  | letters (switches : List Switch)
  /-- An option, and the argument after its equals sign. -/
  | option (s : Switch) (argument : Option Text)
  /-- The end of the options. -/
  | separator
  deriving DecidableEq, Repr

/-- The options that letters stand for. -/
def ofLetters (letters : Text) : Option Word := (letters.mapM ofLetter).map .letters

/-- Whether a text is a negative number, with or without a point; a newline may follow. -/
def isNegativeNumber : Text → Bool
  | '-' :: rest =>
    let rest := if rest.getLast? = some '\n' then rest.dropLast else rest
    match Text.cut '.' rest with
    | (whole, none) => !whole.isEmpty && whole.all Text.isDecimal
    | (whole, some part) => whole.all Text.isDecimal && !part.isEmpty && part.all Text.isDecimal
  | _ => false

/-- The long options that a name may be short for; the full name is short for itself only. -/
def candidates (name : Text) : List Switch :=
  match longNames.lookup name with
  | some s => [s]
  | none => (longNames.filter fun (long, _) => name.isPrefixOf long).map Prod.snd

/-- A word that starts with a dash and is neither an option nor anything close to one. -/
def readUnknown (t : Text) : Option Word := if isNegativeNumber t || t.contains ' ' then some (.plain t) else none

/-- What a word before the end of the options is; `none` if it is refused. -/
def readWord (t : Text) : Option Word :=
  match t with
  | ['-', '-'] => some .separator
  | '-' :: '-' :: _ =>
    let (name, argument) := Text.cut '=' t
    match candidates name with
    | [s] => some (.option s argument)
    | [] => readUnknown t
    | _ => none
  | '-' :: c :: '=' :: rest =>
    if (ofLetter c).isNone then readUnknown t else if rest.isEmpty then none else ofLetters (c :: rest)
  | '-' :: c :: rest => if (ofLetter c).isSome then ofLetters (c :: rest) else readUnknown t
  | _ => some (.plain t)

/-- What the words of a command line are. -/
def readWords : List Text → Option (List Word)
  | [] => some []
  | t :: rest => do
    match ← readWord t with
    | .separator => return .separator :: rest.map .plain
    | word => return word :: (← readWords rest)

/-- What the words read so far ask for. -/
structure Reading where
  request : Request := { table := [] }
  /-- Whether the path of the table was read. -/
  hasTable : Bool := false
  /-- Whether nothing but information on the command is wanted. -/
  informing : Bool := false
  deriving Repr

namespace Reading

/-- The reading after an option without an argument. -/
def apply (r : Reading) : Switch → Reading
  | .help | .version => { r with informing := true }
  | .listing => { r with request := { r.request with listing := true } }
  | .verbosity => { r with request := { r.request with verbosity := r.request.verbosity + 1 } }
  | .location | .origin | .link | .param => r

/-- The reading after an option with an argument. -/
def applyTo (r : Reading) (argument : Text) : Switch → Reading
  | .location => { r with request := { r.request with location := some argument } }
  | .origin => { r with request := { r.request with origin := some argument } }
  | .link => { r with request := { r.request with link := some argument } }
  | .param => { r with request := { r.request with params := r.request.params ++ [argument] } }
  | .help | .version | .listing | .verbosity => r

/-- The reading after the path of the table, of which there is one only. -/
def setTable (r : Reading) (path : Text) : Option Reading :=
  if r.hasTable then none else some { r with request := { r.request with table := path }, hasTable := true }

/-- The reading after all words; `none` if they are refused. -/
def readAll (r : Reading) : List Word → Option Reading
  | [] => some r
  | .plain t :: .separator :: rest => if rest.isEmpty then r.setTable t else none
  | .plain t :: rest => do readAll (← r.setTable t) rest
  | .separator :: .plain t :: rest => do readAll (← r.setTable t) rest
  | .separator :: _ => none
  | .letters switches :: rest => readAll (switches.foldl apply r) rest
  | .option s (some argument) :: rest => if s.takesArgument then readAll (r.applyTo argument s) rest else none
  | .option s none :: rest =>
    if s.takesArgument then
      match rest with
      | .plain t :: more => readAll (r.applyTo t s) more
      | _ => none
    else readAll (r.apply s) rest

end Reading

/-- What a command line asks for. -/
inductive Invocation where
  | run (q : Request)
  /-- Information on the command itself. -/
  | information
  /-- The command line is refused. -/
  | refused
  deriving DecidableEq, Repr

/-- The verbosity of the run that a command line asks for. -/
def Invocation.noteLevel (settings : Settings) : Invocation → Nat
  | run q => q.noteLevel settings
  | information | refused => 0

/-- What the words of a command line ask for. -/
def Invocation.read (words : List Text) : Invocation :=
  match (readWords words).bind (Reading.readAll {}) with
  | none => refused
  | some r => if r.informing then information else if r.hasTable then run r.request else refused

end Routing.Command
