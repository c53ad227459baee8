import SymbolIndex.Digest
import SymbolIndex.Symbol.Basic

/-!
# Symbol tables

The declarations of one document, below a root symbol that stands for the file. Lookups by position
go down through the symbols that contain it.
-/

namespace SymbolIndex

/-- The digest under which a document is filed. -/
def uriHash (uri : String) : UInt64 :=
  Digest.ofString uri

structure SymbolTable where
  uri : String
  hash : UInt64
  root : Symbol
  deriving Inhabited

/-- The namespace and the imports in effect at a place of a document. -/
structure ImportContext where
  namespaceName : String
  imports : List Symbol
  deriving Inhabited

namespace SymbolTable

def new (uri : String) (root : Symbol) : SymbolTable :=
  ⟨uri, uriHash uri, root⟩

/-- The table of a document without declarations. -/
def empty (uri : String) : SymbolTable :=
  new uri { kind := .file, name := uri }

/-- The symbols below the root, each before those below it. -/
def symbols (table : SymbolTable) : List Symbol :=
  Symbol.preorderAll table.root.children

def find? (table : SymbolTable) (p : Symbol → Bool) : Option Symbol :=
  table.symbols.find? p

def contains (table : SymbolTable) (id : SymbolId) : Bool :=
  table.symbols.any fun symbol => symbol.kind == id.kind && symbol.nameEquals id.name

/-- The parent of the symbol at a path of child places. The root has none. -/
def parentAt? (table : SymbolTable) (path : List Nat) : Option Symbol :=
  if path.isEmpty then none
  else (table.root.at? path).bind fun _ => table.root.at? path.dropLast

/-- `member` stands among the children of `owner`. It is recognised by kind, name and location,
so that a copy with another type is recognised too. -/
def declares (owner member : Symbol) : Bool :=
  owner.kind.isClassLike &&
    owner.children.any fun child =>
      child.kind == member.kind && child.name == member.name && child.location == member.location

/-- The class, interface or trait that declares a member. -/
def declaringType? (table : SymbolTable) (member : Symbol) : Option Symbol :=
  table.find? (declares · member)

/-- The symbols that contain a position, outermost first. -/
def enclosing (table : SymbolTable) (position : Position) : List Symbol :=
  Symbol.enclosingAll position table.root.children

/-- The innermost function, method or class-like symbol at a position, else the root. -/
def scopeAt (table : SymbolTable) (position : Position) : Symbol :=
  ((table.enclosing position).filter (·.kind.isScope)).getLast?.getD table.root

/-- The innermost symbol at a position. -/
def symbolAt? (table : SymbolTable) (position : Position) : Option Symbol :=
  (table.enclosing position).getLast?

/-- A namespace starts over; an import adds to the imports. -/
def extendContext (context : ImportContext) (symbol : Symbol) : ImportContext :=
  if symbol.kind = .namespaceMark then ⟨symbol.name, []⟩
  else if symbol.isUse then ⟨context.namespaceName, context.imports ++ [symbol]⟩
  else context

/-- The top-level symbols with a location, up to the first one that starts after a position. -/
def marksBefore (table : SymbolTable) (position : Position) : List Symbol :=
  (table.root.children.filter fun symbol => symbol.location.isSome).takeWhile fun symbol =>
    symbol.range?.all fun range => decide (range.start ≤ position)

/-- The namespace and the imports in effect at a position. -/
def contextAt (table : SymbolTable) (position : Position) : ImportContext :=
  (table.marksBefore position).foldl extendContext ⟨"", []⟩

end SymbolTable

end SymbolIndex
