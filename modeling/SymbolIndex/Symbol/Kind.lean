/-!
# Kinds of symbols

What a declaration declares, with the distinctions the rest of the library draws between kinds.
-/

namespace SymbolIndex

inductive SymbolKind where
  | file
  | namespaceMark
  | classType
  | interfaceType
  | traitType
  | function
  | method
  | constructor
  | property
  | classConstant
  | constant
  | parameter
  | localVariable
  deriving DecidableEq, Repr, Inhabited

namespace SymbolKind

def all : List SymbolKind :=
  [file, namespaceMark, classType, interfaceType, traitType, function, method, constructor,
    property, classConstant, constant, parameter, localVariable]

/-- The name under which a kind is stored and exchanged. -/
def name : SymbolKind → String
  | file => "File"
  | namespaceMark => "Namespace"
  | classType => "Class"
  | interfaceType => "Interface"
  | traitType => "Trait"
  | function => "Function"
  | method => "Method"
  | constructor => "Constructor"
  | property => "Property"
  | classConstant => "ClassConstant"
  | constant => "Constant"
  | parameter => "Parameter"
  | localVariable => "Variable"

def ofName? (name : String) : Option SymbolKind :=
  all.find? (·.name == name)

/-- The words for a kind in a sentence. -/
def label : SymbolKind → String
  | file => "file"
  | namespaceMark => "namespace"
  | classType => "class"
  | interfaceType => "interface"
  | traitType => "trait"
  | function => "function"
  | method => "method"
  | constructor => "constructor"
  | property => "property"
  | classConstant => "class constant"
  | constant => "constant"
  | parameter => "parameter"
  | localVariable => "variable"

def isClassLike : SymbolKind → Bool
  | classType | interfaceType | traitType => true
  | _ => false

def isMember : SymbolKind → Bool
  | method | constructor | property | classConstant => true
  | _ => false

/-- Names of these kinds are compared with regard to case. -/
def isCaseSensitive : SymbolKind → Bool
  | property | localVariable | parameter | constant | classConstant => true
  | _ => false

/-- Symbols of these kinds have a scope of their own. -/
def isScope : SymbolKind → Bool
  | function | method | constructor => true
  | kind => kind.isClassLike

def isVariable : SymbolKind → Bool
  | localVariable | parameter => true
  | _ => false

theorem mem_all (kind : SymbolKind) : kind ∈ all := by
  cases kind <;> decide

end SymbolKind

end SymbolIndex
