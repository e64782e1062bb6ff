import Routing.Regex

/-!
# Alternatives with a common start

An expression can be matched with fewer choices when what all alternatives start with is taken out of them, and when
alternatives that are single characters become one set: `ab|ac` is `a[bc]`. `Regex.factor` does both everywhere in
an expression. Only parts that match in one way are taken out, so the ways of the expression stay the same.
-/

namespace Routing.Regex

/-- Whether an expression matches in one way at most and captures nothing, whatever its place. -/
def isPlain : Regex → Bool
  | oneOf _ | anchor _ | backref _ _ => true
  | _ => false

/-- The plain parts that a branch and others start with in common. -/
def commonStart : List Regex → List (List Regex) → List Regex
  | [], _ => []
  | r :: rest, others =>
    if r.isPlain && others.all (·.head? == some r) then r :: commonStart rest (others.map (·.drop 1)) else []

/-- The set that a branch is, if it is one that lists its characters. -/
def listedSet : List Regex → Option CharSet
  | [oneOf set] => if set.complement then none else some set
  | _ => none

/-- The set of all characters of some sets, if they regard case alike. -/
def unionSet : List CharSet → Option CharSet
  | [] => none
  | set :: others =>
    if others.all (·.anyCase == set.anyCase) then
      some { set with items := ((set :: others).flatMap CharSet.items).eraseDups }
    else none

/-- The choice between branches that have nothing in common. -/
def choose (branches : List (List Regex)) : Regex :=
  match (branches.mapM listedSet).bind unionSet with
  | some set => oneOf set
  | none => altAll (branches.map seqAll)

/-- The parts of a choice between branches. -/
def joinBranches : List (List Regex) → List Regex
  | [] => []
  | [branch] => branch
  | branch :: others =>
    let common := commonStart branch others
    common ++ [choose ((branch :: others).map (·.drop common.length))]

/-- The branches of an expression, each with its alternatives factored. -/
def branches : Regex → List (List Regex)
  | empty => [[]]
  | oneOf set => [[oneOf set]]
  | seq first second => [joinBranches first.branches ++ joinBranches second.branches]
  | alt first second => joinBranches first.branches :: second.branches
  | capture index body => [[capture index (seqAll (joinBranches body.branches))]]
  | loop body least most reluctant => [[loop (seqAll (joinBranches body.branches)) least most reluctant]]
  | possessive body least most nested => [[possessive body least most nested]]
  | atomic body => [[atomic (seqAll (joinBranches body.branches))]]
  | look wanted body => [[look wanted (seqAll (joinBranches body.branches))]]
  | backref index anyCase => [[backref index anyCase]]
  | anchor place => [[anchor place]]

/-- The expression with its alternatives factored. -/
def factor (r : Regex) : Regex := seqAll (joinBranches r.branches)

end Routing.Regex
