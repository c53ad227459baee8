import SymbolIndex.Workspace.Basic

/-!
# Questions to a workspace

The queries about symbols and references. A query first reads the edits that were put off, of the
document it is about or of all, and answers from the workspace that this leaves; the answer comes
with that workspace.
-/

namespace SymbolIndex.Workspace

variable {σ : Type}

/-! ### Symbols -/

/-- The symbols with a full name. -/
def findSymbols (workspace : Workspace σ) (text : String) : List Symbol × Workspace σ :=
  let workspace := workspace.flushAll
  (workspace.symbols.find text fun _ => true, workspace)

/-- The symbols with a search key that begins with a text. -/
def matchSymbols (workspace : Workspace σ) (text : String) : List Symbol × Workspace σ :=
  let workspace := workspace.flushAll
  (workspace.symbols.startingWith text fun _ => true, workspace)

/-- The symbols of a document, each before those below it. -/
def documentSymbols (workspace : Workspace σ) (uri : String) : List Symbol × Workspace σ :=
  let workspace := workspace.flush uri
  (match workspace.symbols.get? uri with
    | some table => table.symbols
    | none => [],
    workspace)

/-- The members of a class-like name and of all it inherits from, as they are known now. -/
def typeMembers (workspace : Workspace σ) (name : String) (policy : MemberPolicy) :
    List Symbol :=
  workspace.symbols.members name policy

section

variable [ByteStore σ]

/-- The references of a document, open or in the cache. -/
def fetch? (workspace : Workspace σ) (uri : String) : Option ReferenceTable :=
  workspace.references.fetch? workspace.cache uri

/-- The references to a name in all documents for which `p` holds. -/
def findUses (workspace : Workspace σ) (name : String) (p : Reference → Bool) :
    List Reference :=
  workspace.references.find workspace.cache name p

/-! ### References -/

def referenceAt? (workspace : Workspace σ) (uri : String) (position : Position) :
    Option Reference × Workspace σ :=
  let workspace := workspace.flush uri
  ((workspace.fetch? uri).bind (·.referenceAt? position), workspace)

/-- The symbols that the reference at a position refers to. -/
def symbolsAt (workspace : Workspace σ) (uri : String) (position : Position)
    (policy : MemberPolicy) : List Symbol × Workspace σ :=
  let (reference?, workspace) := workspace.referenceAt? uri position
  (match reference? with
    | some reference => workspace.symbols.resolve reference policy
    | none => [],
    workspace)

/-- The reference may refer to the symbol at the target's place. -/
def resolvesTo (workspace : Workspace σ) (reference : Reference) (target : Symbol) : Bool :=
  (workspace.symbols.resolve reference .every).any (·.location == target.location)

/-- A type names a class or something that inherits from it. -/
def scopeIncludes (workspace : Workspace σ) (scope className : String) : Bool :=
  (TypeExpr.classNames scope).any fun name =>
    Text.eqIgnoringCase name className ||
      (workspace.symbols.associated name).any fun base =>
        Text.eqIgnoringCase base.name className

/-- The reference is of a kind that may refer to a target in the same document. -/
def isUseOf (target : Symbol) (reference : Reference) : Bool :=
  if target.kind.isMember then reference.kind == target.kind else reference.kind.isVariable

/-- The references to a target in the document that declares it. Those to other symbols of the
same name are left out. -/
def usesInOwnDocument (workspace : Workspace σ) (target : Symbol) : List Reference :=
  match target.location.bind fun location => workspace.fetch? location.uri with
  | none => []
  | some table =>
    table.references.filter fun reference =>
      isUseOf target reference && reference.isNamed target.name &&
        workspace.resolvesTo reference target

/-- The class that a member belongs to: the one that declares it, else the one it names. -/
def ownerName (workspace : Workspace σ) (member : Symbol) : String :=
  match workspace.symbols.declaringType? member with
  | some owner => owner.name
  | none => member.scope.getD ""

/-- The references to a target. What other documents cannot see is looked for in its own document
only; a member is looked for where its class or a class that inherits from it is meant. -/
def usesOf (workspace : Workspace σ) (target : Symbol) : List Reference :=
  let kind := target.kind
  if kind.isVariable || (kind.isMember && target.isPrivate) then
    workspace.usesInOwnDocument target
  else if kind.isMember then
    let owner := workspace.ownerName target
    workspace.findUses target.name fun reference =>
      reference.kind == kind && workspace.scopeIncludes reference.scope owner
  else if kind.isClassLike then
    workspace.findUses target.name fun reference => reference.kind.isClassLike
  else workspace.findUses target.name fun reference => reference.kind == kind

/-- The reference begins within the declaration of a target. -/
def isWithin (target : Symbol) (reference : Reference) : Bool :=
  target.location.any fun location =>
    reference.location.uri == location.uri && location.range.contains reference.start

/-- References in order, the one that declares the target among them or left out. The declaring one
is the first within the declaration. -/
def orderedUses (references : List Reference) (target : Symbol) (withDeclaration : Bool) :
    List Reference :=
  let ordered := references.mergeSort Reference.precedes
  if withDeclaration then ordered else ordered.eraseP (isWithin target)

/-- The first of the references at each place. -/
def distinctPlaces (references : List Reference) : List Reference :=
  references.eraseDupsBy fun left right =>
    left.location.uri == right.location.uri && left.start == right.start

/-- The references to any of the symbols that the reference at a position refers to, in order. -/
def findReferences (workspace : Workspace σ) (uri : String) (position : Position)
    (withDeclaration : Bool) : List Reference × Workspace σ :=
  let (targets, workspace) := workspace.symbolsAt uri position .override
  let found := targets.flatMap fun target =>
    orderedUses (workspace.usesOf target) target withDeclaration
  ((distinctPlaces found).mergeSort Reference.precedes, workspace)

end

end SymbolIndex.Workspace
