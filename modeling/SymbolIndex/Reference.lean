import SymbolIndex.Position
import SymbolIndex.SymbolTable

/-!
# References

The places of a document where names are used. They stand in a tree of scopes: the file, a
namespace block, the body of a class or of a function.
-/

namespace SymbolIndex

open SymbolIndex.Text

/-- A use of a name. For a member, `scope` is the type it is looked up in. `altName` is a second
name tried when the first has no declaration, such as the global function behind an unqualified
one. -/
structure Reference where
  kind : SymbolKind
  name : String
  scope : String := ""
  altName : Option String := none
  type : String := ""
  location : Location
  deriving DecidableEq, Repr, Inhabited

namespace Reference

def range (reference : Reference) : Range :=
  reference.location.range

def covers (reference : Reference) (position : Position) : Bool :=
  reference.location.range.contains position

/-- The names a reference may go by. -/
def names (reference : Reference) : List String :=
  reference.name :: reference.altName.toList

/-- The reference goes by a name, in any case of ASCII letters if its kind disregards case. -/
def isNamed (reference : Reference) (name : String) : Bool :=
  reference.names.any fun candidate =>
    if reference.kind.isCaseSensitive then candidate == name else eqIgnoringCase candidate name

def start (reference : Reference) : Position :=
  reference.location.range.start

/-- The order of references by document and place. -/
def precedes (left right : Reference) : Bool :=
  left.location.uri < right.location.uri ||
    (left.location.uri == right.location.uri && decide (left.start ≤ right.start))

end Reference

mutual

inductive ScopeChild where
  | scope (inner : Scope)
  | reference (reference : Reference)
  deriving Repr

/-- A scope with its references and inner scopes, in document order. -/
structure Scope where
  location : Location
  children : List ScopeChild
  deriving Repr

end

namespace Scope

instance : Inhabited Scope := ⟨⟨default, []⟩⟩

/-- The scopes directly inside. -/
def scopes (scope : Scope) : List Scope :=
  scope.children.filterMap fun
    | .scope inner => some inner
    | .reference _ => none

/-- The references directly inside. -/
def references (scope : Scope) : List Reference :=
  scope.children.filterMap fun
    | .scope _ => none
    | .reference reference => some reference

def covers (scope : Scope) (position : Position) : Bool :=
  scope.location.range.contains position

mutual

/-- All references inside, at any depth, in document order. -/
def allReferences : Scope → List Reference
  | ⟨_, children⟩ => allReferencesIn children

def allReferencesIn : List ScopeChild → List Reference
  | [] => []
  | .reference reference :: rest => reference :: allReferencesIn rest
  | .scope inner :: rest => inner.allReferences ++ allReferencesIn rest

end

mutual

/-- The innermost scope at a position, going down into the first that contains it. -/
def innermost (position : Position) : Scope → Scope
  | scope@⟨_, children⟩ => (innermostIn? position children).getD scope

def innermostIn? (position : Position) : List ScopeChild → Option Scope
  | [] => none
  | .reference _ :: rest => innermostIn? position rest
  | .scope inner :: rest =>
    if inner.covers position then some (innermost position inner) else innermostIn? position rest

end

mutual

/-- The reference at a position. The scopes that contain the position come before the references
beside them. -/
def referenceAt? (position : Position) : Scope → Option Reference
  | scope@⟨_, children⟩ =>
    (nestedAt? position children).or (scope.references.find? (·.covers position))

def nestedAt? (position : Position) : List ScopeChild → Option Reference
  | [] => none
  | .reference _ :: rest => nestedAt? position rest
  | .scope inner :: rest =>
    if inner.covers position then (referenceAt? position inner).or (nestedAt? position rest)
    else nestedAt? position rest

end

mutual

/-- The first scope with a given range, looked for through the scopes that contain it. -/
def withRange? (range : Range) : Scope → Option Scope
  | scope@⟨location, children⟩ =>
    if location.range = range then some scope else withRangeIn? range children

def withRangeIn? (range : Range) : List ScopeChild → Option Scope
  | [] => none
  | .reference _ :: rest => withRangeIn? range rest
  | .scope inner :: rest =>
    if inner.location.range.containsRange range then
      (withRange? range inner).or (withRangeIn? range rest)
    else withRangeIn? range rest

end

end Scope

/-- The references of one document. -/
structure ReferenceTable where
  uri : String
  hash : UInt64
  root : Scope
  deriving Inhabited

/-- The lower-cased names used in a document, kept when its table is not. -/
structure ReferenceSummary where
  uri : String
  hash : UInt64
  identifiers : List String
  deriving DecidableEq, Repr, Inhabited

namespace ReferenceTable

def new (uri : String) (root : Scope) : ReferenceTable :=
  ⟨uri, uriHash uri, root⟩

def references (table : ReferenceTable) : List Reference :=
  table.root.allReferences

def scopeAt (table : ReferenceTable) (position : Position) : Scope :=
  table.root.innermost position

def referenceAt? (table : ReferenceTable) (position : Position) : Option Reference :=
  table.root.referenceAt? position

def scopeWithRange? (table : ReferenceTable) (range : Range) : Option Scope :=
  table.root.withRange? range

/-- The names of references that are found from other documents: all but variables. -/
def summary (table : ReferenceTable) : ReferenceSummary :=
  let global := table.references.filter fun reference => !reference.kind.isVariable
  let keys := (global.flatMap Reference.names).map lower
  ⟨table.uri, table.hash, (keys.filter (· ≠ "")).eraseDups⟩

end ReferenceTable

end SymbolIndex
