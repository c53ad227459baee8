import SymbolIndex.Position
import SymbolIndex.Text.Search
import SymbolIndex.Symbol.Modifiers
import SymbolIndex.Symbol.Name

/-!
# Symbols

A symbol is a declaration and, below it, the declarations it contains.
-/

namespace SymbolIndex

open SymbolIndex.Text

/-- Names another symbol by kind and fully qualified name. -/
structure SymbolId where
  kind : SymbolKind
  name : String
  deriving DecidableEq, Repr, Inhabited

/-- The documentation of a symbol. -/
structure DocInfo where
  description : String
  type : String
  deriving DecidableEq, Repr, Inhabited

/-- A declaration. The type is empty when it is unknown; `scope` names the declaring type of a
member. -/
structure Symbol where
  kind : SymbolKind
  name : String
  location : Option Location := none
  modifiers : Modifiers := Modifiers.empty
  doc : Option DocInfo := none
  type : String := ""
  associated : List SymbolId := []
  children : List Symbol := []
  scope : Option String := none
  value : Option String := none
  deriving Repr, Inhabited

namespace Symbol

def range? (symbol : Symbol) : Option Range :=
  symbol.location.map (·.range)

def id (symbol : Symbol) : SymbolId :=
  ⟨symbol.kind, symbol.name⟩

/-- Some of `modifiers` is present. -/
def has (symbol : Symbol) (modifiers : Modifiers) : Bool :=
  symbol.modifiers.meets modifiers

/-- A member without a visibility is public. -/
def isPrivate (symbol : Symbol) : Bool :=
  symbol.modifiers.containsAll Modifiers.isPrivate

def isUse (symbol : Symbol) : Bool :=
  symbol.modifiers.containsAll Modifiers.isUse

/-- The description asks for the documentation of the inherited declaration. -/
def inheritsDoc (symbol : Symbol) : Bool :=
  symbol.doc.any fun doc => contains "inheritdoc".toList (asciiLower doc.description.toList)

def hasDoc (symbol : Symbol) : Bool :=
  symbol.doc.any fun doc => doc.description != "" || doc.type != ""

def parameters (symbol : Symbol) : List Symbol :=
  symbol.children.filter (·.kind = .parameter)

/-- Compares a name the way names of this kind are compared. -/
def nameEquals (symbol : Symbol) (name : String) : Bool :=
  if symbol.kind.isCaseSensitive then symbol.name == name else eqIgnoringCase symbol.name name

/-- The symbol can be reached by its name from other documents. Of variables only those without a
location can: the global ones every document shares. -/
def isIndexable (symbol : Symbol) : Bool :=
  symbol.name != "" && !symbol.has (Modifiers.isUse ∪ Modifiers.anonymous) &&
    match symbol.kind with
    | .file | .parameter => false
    | .localVariable => symbol.location.isNone
    | _ => true

/-- The symbol's range contains a position. -/
def covers (symbol : Symbol) (position : Position) : Bool :=
  symbol.range?.any (·.contains position)

def parameterText (parameter : Symbol) : String :=
  (if parameter.type = "" then "" else parameter.type ++ " ") ++
    (if parameter.modifiers.containsAll .byReference then "&" else "") ++
    (if parameter.modifiers.containsAll .variadic then "..." else "") ++
    parameter.name ++
    (match parameter.value with
      | some value => " = " ++ value
      | none => "")

/-- The parameters and the type of a function, as in `(T $a, &$b = 1): R`. -/
def signature (symbol : Symbol) : String :=
  "(" ++ String.intercalate ", " (symbol.parameters.map parameterText) ++ ")" ++
    (if symbol.type = "" then "" else ": " ++ symbol.type)

mutual

/-- The symbol and all below it, each before those below it. -/
def preorder : Symbol → List Symbol
  | symbol@⟨_, _, _, _, _, _, _, children, _, _⟩ => symbol :: preorderAll children

def preorderAll : List Symbol → List Symbol
  | [] => []
  | symbol :: rest => preorder symbol ++ preorderAll rest

end

mutual

/-- As `preorder`, going below the symbols that contain a position, and only those. -/
def enclosing (position : Position) : Symbol → List Symbol
  | symbol@⟨_, _, _, _, _, _, _, children, _, _⟩ =>
    if symbol.covers position then symbol :: enclosingAll position children else []

def enclosingAll (position : Position) : List Symbol → List Symbol
  | [] => []
  | symbol :: rest => enclosing position symbol ++ enclosingAll position rest

end

mutual

/-- As `preorder`, with the depth of each symbol, leaving out what is below the symbols for which
`descend` fails. -/
def outline (descend : Symbol → Bool) (depth : Nat) : Symbol → List (Nat × Symbol)
  | symbol@⟨_, _, _, _, _, _, _, children, _, _⟩ =>
    (depth, symbol) :: if descend symbol then outlineAll descend (depth + 1) children else []

def outlineAll (descend : Symbol → Bool) (depth : Nat) : List Symbol → List (Nat × Symbol)
  | [] => []
  | symbol :: rest => outline descend depth symbol ++ outlineAll descend depth rest

end

/-- The symbol reached by a path of child places. -/
def at? (symbol : Symbol) : List Nat → Option Symbol
  | [] => some symbol
  | place :: rest => symbol.children[place]? >>= fun child => child.at? rest

end Symbol

end SymbolIndex
