import Routing.Value
import Routing.Mapping

/-!
# Settings

What an application can set once for all routes, and the reading of settings from arguments and environment
variables. An argument wins over a variable. The names of both are read without regard to case, and those of
variables carry a prefix. Every fault is reported, the known settings first in their order, then the unknown
arguments.
-/

namespace Routing

/-- The settings of an application. -/
structure Settings where
  /-- A variable without a capture of its own takes a run of other characters than these. -/
  delimiter : Text := ['/']
  /-- The base path that links start with and locations are freed from. -/
  basePath : Text := []
  defaultScheme : Text := "http".toList
  defaultHost : Text := "localhost".toList
  /-- The file name that is cut off the end of a location. -/
  indexFile : Text := "index.html".toList
  highlightPatterns : Bool := true
  debugMode : Bool := false
  deriving DecidableEq, Repr

/-- A base path with one slash before it and none after it; nothing for one that is empty but for slashes. -/
def normalizeBase (base : Text) : Text :=
  let core := Text.strip '/' base
  if core.isEmpty then [] else '/' :: core

/-- The base path given for a link, or the one that is set, in normal form. -/
def Settings.base (settings : Settings) (given : Option Text) : Text :=
  normalizeBase (given.getD settings.basePath)

namespace Settings

/-- Why a given setting is refused. -/
inductive Fault where
  | notText
  | notSingle
  | notTruth
  | notTruthKind
  | unknown
  deriving DecidableEq, Repr

/-- The start of the names of environment variables. -/
def variableStart : Text := "routetree_".toList

/-- A text setting. -/
def readText : Value → Except Fault Text
  | .str t => .ok t
  | _ => .error .notText

/-- The delimiter, which is one character. -/
def readDelimiter (v : Value) : Except Fault Text :=
  match readText v with
  | .ok [c] => .ok [c]
  | .ok _ => .error .notSingle
  | .error f => .error f

/-- The words for true and for false. -/
def truthWords : List (Text × Bool) :=
  [("1", true), ("t", true), ("y", true), ("on", true), ("yes", true), ("true", true), ("0", false),
    ("f", false), ("n", false), ("no", false), ("off", false), ("false", false)].map
    fun (word, truth) => (word.toList, truth)

/-- The truth that a number stands for. Any but 0 and 1 is a wrong number if it is an integer of 64 bits, and of
the wrong kind otherwise. -/
def truthOf (fits : Bool) (n : Int) : Except Fault Bool :=
  if n = 0 then .ok false else if n = 1 then .ok true else if fits then .error .notTruth else .error .notTruthKind

/-- A truth setting: a truth value, 0 or 1, or a word for one in any case. The least integer of 64 bits does not
count as one with a point. -/
def readTruth : Value → Except Fault Bool
  | .bool b => .ok b
  | .int n => truthOf (-wordHalf ≤ n && n < wordHalf) n
  | .float x =>
    match x.toInt? with
    | some n => truthOf (-wordHalf < n && n < wordHalf) n
    | none => .error .notTruthKind
  | .str t =>
    match truthWords.lookup (t.map Char.toLower) with
    | some b => .ok b
    | none => .error .notTruth
  | _ => .error .notTruthKind

/-- The names of the settings, in order. -/
def names : List Text :=
  ["delimiter", "base_path", "default_scheme", "default_host", "index_file", "highlight_patterns",
    "debug_mode"].map String.toList

/-- The settings with the one called `name` set to a value, if the value is fit for it. -/
def assign (s : Settings) (name : Text) (v : Value) : Except Fault Settings :=
  if name = "delimiter".toList then (readDelimiter v).map fun t => { s with delimiter := t }
  else if name = "base_path".toList then (readText v).map fun t => { s with basePath := t }
  else if name = "default_scheme".toList then (readText v).map fun t => { s with defaultScheme := t }
  else if name = "default_host".toList then (readText v).map fun t => { s with defaultHost := t }
  else if name = "index_file".toList then (readText v).map fun t => { s with indexFile := t }
  else if name = "highlight_patterns".toList then (readTruth v).map fun b => { s with highlightPatterns := b }
  else if name = "debug_mode".toList then (readTruth v).map fun b => { s with debugMode := b }
  else .error .unknown

/-- A name in lower case, in which names of settings are. -/
def lowerName (name : Text) : Text := name.map Char.toLower

/-- The argument for a setting: the one of that very name, else the first one that differs from it by case only. -/
def argument (args : Mapping Value) (name : Text) : Option Value :=
  (args.get? name).or ((args.entries.find? fun (k, _) => lowerName k == name).map Prod.snd)

/-- The last variable for a setting. -/
def variableFor (environment : Mapping Text) (name : Text) : Option Text :=
  ((environment.entries.filter fun (k, _) => lowerName k == variableStart ++ name).getLast?).map Prod.snd

/-- The value given for a setting. -/
def given (args : Mapping Value) (environment : Mapping Text) (name : Text) : Option Value :=
  (argument args name).or ((variableFor environment name).map .str)

/-- The settings after those names that a value is given for, with the faults found. -/
def readAll (args : Mapping Value) (environment : Mapping Text) :
    List Text → Settings → Settings × List (Text × Fault)
  | [], s => (s, [])
  | name :: rest, s =>
    match given args environment name with
    | none => readAll args environment rest s
    | some v =>
      match s.assign name v with
      | .ok s' => readAll args environment rest s'
      | .error f =>
        let (s', faults) := readAll args environment rest s
        (s', (name, f) :: faults)

/-- The settings that arguments and environment variables give, or every fault in them. -/
def read (args : Mapping Value) (environment : Mapping Text) : Except (List (Text × Fault)) Settings :=
  let (s, faults) := readAll args environment names {}
  let unknown := (args.keys.filter fun k => !names.contains (lowerName k)).map fun k => (k, Fault.unknown)
  match faults ++ unknown with
  | [] => .ok s
  | all => .error all

end Settings

end Routing
