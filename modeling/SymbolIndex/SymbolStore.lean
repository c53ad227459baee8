import SymbolIndex.Hierarchy
import SymbolIndex.NameIndex
import SymbolIndex.Reference

/-!
# Symbol store

The symbol tables at hand, with an index of the declarations that can be reached by name. Tables
are filed by the digest of their document's name.
-/

namespace SymbolIndex

open SymbolIndex.Text

/-- A table and the number that tells its declarations from all others. -/
structure ResidentTable where
  number : Nat
  table : SymbolTable
  deriving Inhabited

structure SymbolStore where
  hashOf : String → UInt64 := uriHash
  resident : List ResidentTable := []
  index : NameIndex Declared := {}
  nextNumber : Nat := 0

namespace SymbolStore

def empty : SymbolStore := {}

/-- The declarations of a table that can be reached by name. -/
def indexed (entry : ResidentTable) : List Declared :=
  (Declared.preorderAll entry.number [] 0 entry.table.root.children).filter
    fun declared => declared.symbol.isIndexable

def keysOf (declared : Declared) : List String :=
  SearchKey.keys declared.symbol.kind declared.symbol.name

/-- The table is filed where a document of this name is looked for. -/
def holds (store : SymbolStore) (uri : String) (entry : ResidentTable) : Bool :=
  entry.table.hash == store.hashOf uri && entry.table.uri == uri

def resident? (store : SymbolStore) (uri : String) : Option ResidentTable :=
  store.resident.find? (store.holds uri)

def get? (store : SymbolStore) (uri : String) : Option SymbolTable :=
  (store.resident? uri).map (·.table)

def contains (store : SymbolStore) (uri : String) : Bool :=
  (store.get? uri).isSome

def unindex (index : NameIndex Declared) (declared : Declared) : NameIndex Declared :=
  index.remove (keysOf declared) (Declared.same declared)

/-- Takes the table of a document away. -/
def remove (store : SymbolStore) (uri : String) : SymbolStore :=
  match store.resident? uri with
  | none => store
  | some entry =>
    { store with
      resident := store.resident.eraseP (store.holds uri)
      index := (indexed entry).foldl unindex store.index }

/-- Puts a table in the place of the one held for its document. -/
def add (store : SymbolStore) (table : SymbolTable) : SymbolStore :=
  let store := store.remove table.uri
  let entry : ResidentTable := ⟨store.nextNumber, table⟩
  { store with
    resident := store.resident ++ [entry]
    index := store.index.addAll keysOf (indexed entry)
    nextNumber := store.nextNumber + 1 }

def tables (store : SymbolStore) : List SymbolTable :=
  store.resident.map (·.table)

def uris (store : SymbolStore) : List String :=
  store.tables.map (·.uri)

/-- The declarations with a full name. -/
def findDeclared (store : SymbolStore) (text : String) (p : Symbol → Bool) : List Declared :=
  Declared.distinct ((store.index.find text).filter fun declared =>
    declared.symbol.nameEquals text && p declared.symbol)

def find (store : SymbolStore) (text : String) (p : Symbol → Bool) : List Symbol :=
  (store.findDeclared text p).map (·.symbol)

/-- The declarations with a search key that begins with a text. -/
def startingWith (store : SymbolStore) (text : String) (p : Symbol → Bool) : List Symbol :=
  (Declared.distinct ((store.index.startingWith text).filter fun declared =>
    p declared.symbol)).map (·.symbol)

/-- The class-like declarations of a name, which may start with backslashes. -/
def classLike (store : SymbolStore) (name : String) : List Declared :=
  store.findDeclared (String.ofList (name.toList.dropWhile (· == '\\'))) (·.kind.isClassLike)

def lookup (store : SymbolStore) : ClassLookup where
  declarations := store.resident.flatMap indexed
  find := store.classLike

def hierarchy? (store : SymbolStore) (name : String) : Option Hierarchy :=
  Hierarchy.ofName? store.lookup name

/-- The members of a class-like name and of all it inherits from. -/
def members (store : SymbolStore) (name : String) (policy : MemberPolicy) : List Symbol :=
  match store.hierarchy? name with
  | some hierarchy => (hierarchy.members policy fun _ => true).map (·.symbol)
  | none => []

/-- All that a class-like name inherits from. -/
def associated (store : SymbolStore) (name : String) : List Symbol :=
  match store.hierarchy? name with
  | some hierarchy => hierarchy.associated.map (·.symbol)
  | none => []

/-- The class-like symbol that declares a member, looked for in the member's document. -/
def declaringType? (store : SymbolStore) (member : Symbol) : Option Symbol := do
  let location ← member.location
  let table ← store.get? location.uri
  table.declaringType? member

def resolveMember (store : SymbolStore) (reference : Reference) (policy : MemberPolicy) :
    List Symbol :=
  let found := (TypeExpr.classNames reference.scope).flatMap fun className =>
    match store.hierarchy? className with
    | some hierarchy => hierarchy.membersNamed policy reference.kind reference.name
    | none => []
  (Declared.distinct found).map (·.symbol)

def resolveGlobal (store : SymbolStore) (reference : Reference) : List Symbol :=
  let ofKind (name : String) := store.find name (·.kind == reference.kind)
  let found := ofKind reference.name
  match reference.altName with
  | some alternative => if found.isEmpty then ofKind alternative else found
  | none => found

def resolveVariable (store : SymbolStore) (reference : Reference) : List Symbol :=
  match store.get? reference.location.uri with
  | none => []
  | some table =>
    (table.scopeAt reference.range.start).children.filter fun symbol =>
      symbol.kind.isVariable && symbol.name == reference.name

/-- The symbols that a reference refers to. -/
def resolve (store : SymbolStore) (reference : Reference) (policy : MemberPolicy) :
    List Symbol :=
  match reference.kind with
  | .classType | .interfaceType | .traitType => store.find reference.name (·.kind.isClassLike)
  | .function | .constant | .namespaceMark => store.resolveGlobal reference
  | .method | .constructor | .property | .classConstant => store.resolveMember reference policy
  | .localVariable | .parameter => store.resolveVariable reference
  | .file => []

end SymbolStore

/-- What a reader asks for the declarations behind a reference. -/
structure SymbolSource where
  resolve : Reference → MemberPolicy → List Symbol

namespace SymbolSource

/-- Knows nothing outside the document. -/
def unknown : SymbolSource :=
  ⟨fun _ _ => []⟩

def ofStore (store : SymbolStore) : SymbolSource :=
  ⟨store.resolve⟩

end SymbolSource

end SymbolIndex
