import Routing.Document.Reader
import Routing.Router

/-!
# Route tables

A route table is a document that lists the routes of an application, every parent before its children. A list of
routes by itself is a table with nothing else.

A document is checked as a whole: `Table.ofDocument` gives the table and all defects with their places, the known
fields of a record first in their order, then the unknown ones. `Table.build` makes the router.
-/

namespace Routing

/-- A step on the way to a place in a document. -/
inductive Step where
  | key (name : Text)
  | index (n : Int)
  deriving DecidableEq, Repr

/-- What is wrong with a place in a document. -/
inductive Fault where
  | missing
  | unknown
  | notText
  | emptyText
  /-- A name with an empty segment. -/
  | emptySegment
  | notList
  | notMapping
  | notRecord
  | badKey
  deriving DecidableEq, Repr

/-- A fault and its place. -/
structure Defect where
  place : List Step
  fault : Fault
  deriving DecidableEq, Repr

/-- What could be read, with all defects found on the way. -/
structure Checked (α : Type) where
  value : α
  defects : List Defect := []

namespace Checked

instance : Monad Checked where
  pure a := ⟨a, []⟩
  bind x f :=
    let y := f x.value
    ⟨y.value, x.defects ++ y.defects⟩

/-- A value with one defect. -/
def fault {α : Type} (value : α) (place : List Step) (fault : Fault) : Checked α := ⟨value, [⟨place, fault⟩]⟩

/-- The value, or the defects if there are any. -/
def toExcept {α : Type} (x : Checked α) : Except (List Defect) α :=
  if x.defects.isEmpty then .ok x.value else .error x.defects

end Checked

/-- The step into a field with a given key. A key that is an integer of 64 bits leads to an index, any other one to
the name that it is shown by. -/
def Key.step : Key → Step
  | .int n => if -wordHalf ≤ n ∧ n < wordHalf then .index n else .key (Text.ofInt n)
  | .bool b => .index (if b then 1 else 0)
  | .str t => .key t
  | key => .key key.shown

namespace Document

/-- The fields of a record. -/
abbrev Fields := List (Key × Document)

/-- Reads a field, or takes `default` where it is not written. -/
def readField {α : Type} (place : List Step) (fields : Fields) (name : String) (default : Checked α)
    (read : List Step → Document → Checked α) : Checked α :=
  match field name.toList fields with
  | some d => read (place ++ [.key name.toList]) d
  | none => default

/-- A text. -/
def readText (place : List Step) : Document → Checked Text
  | str t => pure t
  | _ => .fault [] place .notText

/-- A text or null. -/
def readOptionalText (place : List Step) : Document → Checked (Option Text)
  | null => pure none
  | str t => pure (some t)
  | _ => .fault none place .notText

/-- The keys of a mapping, all of which are to be texts. -/
def checkKeys (place : List Step) : Fields → Checked Unit
  | [] => pure ()
  | (.str _, _) :: rest => checkKeys place rest
  | (key, _) :: rest => do
    .fault () (place ++ [key.step, .key "[key]".toList]) .notText
    checkKeys place rest

/-- The fields with a text as their key. -/
def namedFields : Fields → List (Text × Value)
  | [] => []
  | (.str name, d) :: rest => (name, d.toValue) :: namedFields rest
  | _ :: rest => namedFields rest

/-- A mapping. -/
def readMapping (place : List Step) : Document → Checked (Mapping Value)
  | map fields => do
    checkKeys place fields
    return .ofList (namedFields fields)
  | _ => .fault .empty place .notMapping

/-- The fields of a record, none of which is to be unknown. -/
def checkNames (place : List Step) (names : List String) : Fields → Checked Unit
  | [] => pure ()
  | (.str name, _) :: rest => do
    if !(names.map String.toList).contains name then .fault () (place ++ [.key name]) .unknown
    checkNames place names rest
  | (key, _) :: rest => do
    .fault () (place ++ [key.step]) .badKey
    checkNames place names rest

end Document

/-- One route of a table. -/
structure Definition where
  /-- The dotted name. -/
  name : Text
  /-- What the route adds to the pattern of its parent. -/
  pattern : Text := []
  content : Mapping Value := .empty
  params : Mapping Value := .empty
  deriving Repr, Inhabited

namespace Definition

/-- A dotted name, which is not empty and has no empty segment. -/
def readName (place : List Step) (d : Document) : Checked Text :=
  match d with
  | .str [] => .fault [] place .emptyText
  | .str t => if (Text.splitOn '.' t).any List.isEmpty then .fault t place .emptySegment else pure t
  | _ => .fault [] place .notText

/-- The definition that a document writes. -/
def ofDocument (place : List Step) : Document → Checked Definition
  | .map fields => do
    let name ← Document.readField place fields "name" (.fault [] (place ++ [.key "name".toList]) .missing) readName
    let pattern ← Document.readField place fields "pattern" (pure []) Document.readText
    let content ← Document.readField place fields "content" (pure .empty) Document.readMapping
    let params ← Document.readField place fields "params" (pure .empty) Document.readMapping
    Document.checkNames place ["name", "pattern", "content", "params"] fields
    return { name, pattern, content, params }
  | _ => .fault default place .notRecord

/-- The definitions that the items of a list write, the first of which is number `index`. -/
def ofDocuments (place : List Step) (index : Nat) : List Document → Checked (List Definition)
  | [] => pure []
  | d :: rest => do
    let first ← ofDocument (place ++ [.index index]) d
    let others ← ofDocuments place (index + 1) rest
    return first :: others

/-- A list of definitions. -/
def readList (place : List Step) : Document → Checked (List Definition)
  | .seq items => ofDocuments place 0 items
  | _ => .fault [] place .notList

/-- What the route is added with. -/
def spec (d : Definition) : RouteSpec := { pattern := d.pattern, content := d.content, defaults := d.params }

end Definition

/-- A route table. -/
structure Table where
  /-- The base path, where the table sets one. -/
  basePath : Option Text := none
  routes : List Definition := []
  deriving Repr, Inhabited

/-- Why there is no route table. -/
inductive TableError where
  /-- There is no text to read. -/
  | unread
  /-- The text is no document. -/
  | unparsed
  /-- An integer in the document has no digits. -/
  | noDigits (cause : Document.NoDigits)
  /-- The document is no route table. -/
  | invalid (defects : List Defect)
  deriving DecidableEq, Repr

/-- The wording of an error. -/
def TableError.message : TableError → Text
  | unread => "Failed to read".toList
  | unparsed => "Failed to parse".toList
  | noDigits cause => (RouteError.noDigits cause.base).message
  | invalid _ => "Invalid route table".toList

namespace Table

/-- The table that a document writes. -/
def ofDocument : Document → Checked Table
  | .null => pure {}
  | .seq items => do
    let routes ← Definition.readList [.key "routes".toList] (.seq items)
    return { routes }
  | .map fields => do
    let basePath ← Document.readField [] fields "base_path" (pure none) Document.readOptionalText
    let routes ← Document.readField [] fields "routes" (pure []) Definition.readList
    Document.checkNames [] ["base_path", "routes"] fields
    return { basePath, routes }
  | _ => .fault {} [] .notRecord

/-- The table that a text writes. -/
def ofText (t : Text) : Except TableError Table :=
  match Document.read t with
  | .error .malformed => .error .unparsed
  | .error (.noDigits cause) => .error (.noDigits cause)
  | .ok d => (ofDocument d).toExcept.mapError .invalid

/-- The table in a file, given the text of the file if there is one. -/
def read : Option Text → Except TableError Table
  | none => .error .unread
  | some t => ofText t

/-- A router with the routes of some definitions added in order. -/
def addAll (r : Router) : List Definition → Traced Router
  | [] => pure r
  | d :: rest => do addAll (← r.add (.dotted d.name) d.spec) rest

/-- The router of a table. -/
def build (t : Table) (settings : Settings) : Traced Router := do
  addAll (← Router.create settings t.basePath none) t.routes

end Table

end Routing
