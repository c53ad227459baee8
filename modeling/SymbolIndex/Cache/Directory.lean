import SymbolIndex.Cache.Basic
import SymbolIndex.KeyedList

/-!
# Directories

Files and folders by name. Any single operation on a file may be refused by the device; only a
write leaves a trace then, if it breaks off after it has begun.
-/

namespace SymbolIndex

inductive DirectoryEntry where
  | file (bytes : List UInt8)
  | folder
  deriving Repr, DecidableEq

inductive DirectoryFault where
  | notFound
  | isFolder
  | refused
  deriving Repr, DecidableEq

namespace DirectoryFault

def message : DirectoryFault → String
  | notFound => "no such file"
  | isFolder => "is a directory"
  | refused => "refused by the device"

def toStorage (fault : DirectoryFault) : StorageFault :=
  (EngineFault.device fault.message).toStorage

end DirectoryFault

/-- The operations that the device refuses. A write is refused before it begins, or later, and then
with what it leaves in the file that was to be written. -/
structure DeviceRefusals where
  reads : Bool := false
  openings : Bool := false
  writes : Option (List UInt8) := none
  renames : Bool := false
  removals : Bool := false
  deriving Repr, DecidableEq, Inhabited

structure Directory where
  entries : KeyedList DirectoryEntry := []
  refusals : DeviceRefusals := {}
  deriving Repr, DecidableEq, Inhabited

namespace Directory

def empty : Directory := {}

def names (directory : Directory) : List String :=
  directory.entries.map (·.1)

def entry? (directory : Directory) (name : String) : Option DirectoryEntry :=
  directory.entries.value? name

def put (directory : Directory) (name : String) (entry : DirectoryEntry) : Directory :=
  { directory with entries := directory.entries.put name entry }

def takeAway (directory : Directory) (name : String) : Directory :=
  { directory with entries := directory.entries.remove name }

/-- The bytes of a file, whether or not the device would give them. -/
def file? (directory : Directory) (name : String) : Except DirectoryFault (List UInt8) :=
  match directory.entry? name with
  | some (.file bytes) => .ok bytes
  | some .folder => .error .isFolder
  | none => .error .notFound

def read (directory : Directory) (name : String) : Except DirectoryFault (List UInt8) :=
  if directory.refusals.reads then .error .refused else directory.file? name

/-- Makes or replaces a file. -/
def write (directory : Directory) (name : String) (bytes : List UInt8) :
    Attempt DirectoryFault Directory :=
  if directory.refusals.openings then ⟨directory, some .refused⟩
  else
    match directory.entry? name, directory.refusals.writes with
    | some .folder, _ => ⟨directory, some .isFolder⟩
    | _, some left => ⟨directory.put name (.file left), some .refused⟩
    | _, none => ⟨directory.put name (.file bytes), none⟩

/-- Gives a file a new name, in the place of the file that had it. -/
def rename (directory : Directory) (source target : String) : Attempt DirectoryFault Directory :=
  if directory.refusals.renames then ⟨directory, some .refused⟩
  else
    match directory.file? source, directory.entry? target with
    | .error fault, _ => ⟨directory, some fault⟩
    | _, some .folder => ⟨directory, some .isFolder⟩
    | .ok bytes, _ => ⟨(directory.takeAway source).put target (.file bytes), none⟩

def remove (directory : Directory) (name : String) : Attempt DirectoryFault Directory :=
  if directory.refusals.removals then ⟨directory, some .refused⟩
  else
    match directory.file? name with
    | .error fault => ⟨directory, some fault⟩
    | .ok _ => ⟨directory.takeAway name, none⟩

end Directory

end SymbolIndex
