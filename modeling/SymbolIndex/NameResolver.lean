import SymbolIndex.SymbolTable

/-!
# Resolving names

A name as it is written means a declaration by its full name. Which one depends on the namespace,
the imports and the class around it.
-/

namespace SymbolIndex

open SymbolIndex.Text

/-- The class around a place: its name, and that of its base class. -/
structure ClassContext where
  name : String
  base : Option String
  deriving Repr, Inhabited

/-- What names are resolved against. The classes stand innermost first. -/
structure NameResolver where
  namespaceName : String := ""
  imports : List Symbol := []
  classes : List ClassContext := []
  deriving Inhabited

namespace NameResolver

def ofContext (context : ImportContext) : NameResolver :=
  { namespaceName := context.namespaceName, imports := context.imports }

/-- A namespace starts without imports. -/
def enterNamespace (resolver : NameResolver) (name : String) : NameResolver :=
  { resolver with namespaceName := name, imports := [] }

def addImport (resolver : NameResolver) (symbol : Symbol) : NameResolver :=
  if symbol.isUse then { resolver with imports := resolver.imports ++ [symbol] } else resolver

def enterClass (resolver : NameResolver) (symbol : Symbol) : NameResolver :=
  let base := (symbol.associated.find? (·.kind == .classType)).map (·.name)
  { resolver with classes := ⟨symbol.name, base⟩ :: resolver.classes }

def leaveClass (resolver : NameResolver) : NameResolver :=
  { resolver with classes := resolver.classes.tail }

def className? (resolver : NameResolver) : Option String :=
  resolver.classes.head?.map (·.name)

def baseName? (resolver : NameResolver) : Option String :=
  resolver.classes.head?.bind (·.base)

/-- The name inside the current namespace. -/
def relative (resolver : NameResolver) (name : String) : String :=
  if name = "" || resolver.namespaceName = "" then name
  else resolver.namespaceName ++ "\\" ++ name

/-- Aliases of constants are compared with regard to case, others without. -/
def matchesAlias (kind : SymbolKind) (text : String) (symbol : Symbol) : Bool :=
  symbol.kind == kind &&
    if kind = .constant then symbol.name == text else eqIgnoringCase symbol.name text

/-- The name that an alias stands for. -/
def import? (resolver : NameResolver) (text : String) (kind : SymbolKind) : Option String :=
  (resolver.imports.find? (matchesAlias kind text)).bind fun symbol =>
    symbol.associated.head?.map (·.name)

/-- The part of a name before its first backslash, and the rest from there on. -/
def splitFirst (name : String) : String × String :=
  (String.ofList (name.toList.takeWhile (· != '\\')),
    String.ofList (name.toList.dropWhile (· != '\\')))

def isQualified (name : String) : Bool :=
  name.toList.contains '\\'

/-- The full name of a name that is no class word. The first part of a qualified name is an alias
of classes, whatever the name is used for. -/
def resolvePlain (resolver : NameResolver) (name : String) (kind : SymbolKind) : String :=
  if isQualified name then
    match resolver.import? (splitFirst name).1 .classType with
    | some target => target ++ (splitFirst name).2
    | none => resolver.relative name
  else (resolver.import? name kind).getD (resolver.relative name)

/-- The full name of a name without a leading backslash. `self` and `parent` are the current class
and its base; `static` and `$this` are the current class when `bindStatic` is set, and stay as
they are otherwise. -/
def resolve (resolver : NameResolver) (name : String) (kind : SymbolKind) (bindStatic : Bool) :
    String :=
  if name = "" then ""
  else
    match String.ofList (asciiLower name.toList) with
    | "self" => resolver.className?.getD name
    | "parent" => resolver.baseName?.getD name
    | "static" | "$this" => if bindStatic then resolver.className?.getD name else name
    | _ => resolver.resolvePlain name kind

/-- The name is resolved by an import. -/
def hasImport (resolver : NameResolver) (name : String) (kind : SymbolKind) : Bool :=
  (resolver.import? (splitFirst name).1 (if isQualified name then .classType else kind)).isSome

end NameResolver

end SymbolIndex
