import SymbolIndex.Cache.Bucket
import SymbolIndex.Cache.Directory
import SymbolIndex.Digest
import SymbolIndex.Text.Hex

/-!
# The file cache

A byte store in a directory. The keys with one digest share a bucket, which is a file of its own
and is written whole: first as a draft beside it, which then takes its name. A bucket without
entries has no file, and a file that holds no bucket counts as one without entries.
-/

namespace SymbolIndex

open SymbolIndex.Text

structure FileCache where
  hashOf : String → UInt64 := Digest.ofString
  directory : Directory := {}

namespace FileCache

/-- The file of the bucket with a digest. -/
def bucketName (hash : UInt64) : String :=
  hexWord hash ++ ".bucket"

/-- The file in which the bucket with a digest is drafted. -/
def draftName (hash : UInt64) : String :=
  hexWord hash ++ ".tmp"

/-- The file of the bucket that a key belongs to. -/
def fileOf (cache : FileCache) (key : String) : String :=
  bucketName (cache.hashOf key)

def load (directory : Directory) (hash : UInt64) : Except DirectoryFault Bucket :=
  match directory.read (bucketName hash) with
  | .ok bytes => .ok ((Stored.decode? bytes).getD .empty)
  | .error .notFound => .ok .empty
  | .error fault => .error fault

/-- Takes the file of a bucket away, if there is one. -/
def discard (directory : Directory) (hash : UInt64) : Attempt DirectoryFault Directory :=
  match directory.remove (bucketName hash) with
  | ⟨after, some .notFound⟩ => ⟨after, none⟩
  | attempt => attempt

def save (directory : Directory) (hash : UInt64) (bucket : Bucket) :
    Attempt DirectoryFault Directory :=
  if bucket.entries.isEmpty then discard directory hash
  else
    (directory.write (draftName hash) (Stored.encode bucket)).andThen
      (·.rename (draftName hash) (bucketName hash))

/-- Reads the bucket of a key, changes it and writes it back. -/
def revise (cache : FileCache) (key : String) (change : Bucket → Bucket) :
    Attempt StorageFault FileCache :=
  let hash := cache.hashOf key
  match load cache.directory hash with
  | .error fault => ⟨cache, some fault.toStorage⟩
  | .ok bucket =>
    (save cache.directory hash (change bucket)).map DirectoryFault.toStorage
      fun directory => { cache with directory := directory }

/-- The part of a name after its last dot, if there is something before that dot. -/
def extension? (name : String) : Option String :=
  let letters := name.toList.reverse
  match letters.dropWhile (· ≠ '.') with
  | [] | [_] => none
  | _ :: _ => some (String.ofList (letters.takeWhile (· ≠ '.')).reverse)

/-- The names of buckets and drafts. -/
def isOwn (name : String) : Bool :=
  extension? name == some "bucket" || extension? name == some "tmp"

/-- Removes files until one cannot be removed. -/
def removeAll (directory : Directory) : List String → Attempt DirectoryFault Directory
  | [] => ⟨directory, none⟩
  | name :: rest =>
    match directory.remove name with
    | ⟨after, none⟩ => removeAll after rest
    | attempt => attempt

instance : ByteStore FileCache where
  read cache key :=
    match load cache.directory (cache.hashOf key) with
    | .error fault => .error fault.toStorage
    | .ok bucket => .ok (bucket.value? key)
  write cache key bytes := cache.revise key (·.put key bytes)
  delete cache key := cache.revise key (·.remove key)
  flush cache := ⟨cache, none⟩
  clear cache :=
    (removeAll cache.directory (cache.directory.names.filter isOwn)).map
      DirectoryFault.toStorage fun directory => { cache with directory := directory }

end FileCache

end SymbolIndex
