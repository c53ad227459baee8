/-!
# Modifiers

The modifiers of a declaration as a set of bits. Bits without a name are kept, so that what was
stored is what is read.
-/

namespace SymbolIndex

structure Modifiers where
  bits : UInt32
  deriving DecidableEq, Repr, Inhabited

namespace Modifiers

def empty : Modifiers := ⟨0⟩
def isPublic : Modifiers := ⟨1⟩
def isProtected : Modifiers := ⟨2⟩
def isPrivate : Modifiers := ⟨4⟩
def isFinal : Modifiers := ⟨8⟩
def isAbstract : Modifiers := ⟨16⟩
def isStatic : Modifiers := ⟨32⟩
def readOnly : Modifiers := ⟨64⟩
def writeOnly : Modifiers := ⟨128⟩
def magic : Modifiers := ⟨256⟩
def anonymous : Modifiers := ⟨512⟩
def byReference : Modifiers := ⟨1024⟩
def variadic : Modifiers := ⟨2048⟩
def isUse : Modifiers := ⟨4096⟩

def union (left right : Modifiers) : Modifiers :=
  ⟨left.bits ||| right.bits⟩

instance : Union Modifiers := ⟨union⟩

/-- All the modifiers of `part` are present. -/
def containsAll (whole part : Modifiers) : Bool :=
  whole.bits &&& part.bits == part.bits

/-- Some modifier is in both. -/
def meets (left right : Modifiers) : Bool :=
  left.bits &&& right.bits != 0

def visibility : Modifiers := isPublic ∪ isProtected ∪ isPrivate

/-- The named modifiers, in the order in which they are written. -/
def named : List (String × Modifiers) :=
  [("PUBLIC", isPublic), ("PROTECTED", isProtected), ("PRIVATE", isPrivate), ("FINAL", isFinal),
    ("ABSTRACT", isAbstract), ("STATIC", isStatic), ("READ_ONLY", readOnly),
    ("WRITE_ONLY", writeOnly), ("MAGIC", magic), ("ANONYMOUS", anonymous),
    ("REFERENCE", byReference), ("VARIADIC", variadic), ("USE", isUse)]

/-- The names of the modifiers that are present. -/
def names (modifiers : Modifiers) : List String :=
  (named.filter fun entry => modifiers.containsAll entry.2).map (·.1)

/-- What is left without the named modifiers. -/
def unnamed (modifiers : Modifiers) : UInt32 :=
  modifiers.bits &&& 0xffffe000

end Modifiers

end SymbolIndex
