import SymbolIndex.Exchange.Json
import SymbolIndex.Exchange.Record

/-!
# Configuration

The settings of the engine and the places it keeps files in. A configuration is read from JSON, in
which every setting may be left out.
-/

namespace SymbolIndex

open SymbolIndex.Record

/-- The settings of the engine. Without a storage path everything stays in memory. Times are in
milliseconds. -/
structure Config where
  storagePath : Option String := none
  debounceMs : Nat := 200
  fetchWindow : Nat := 10
  ioConcurrency : Nat := 8
  clearCache : Bool := false
  deriving DecidableEq, Repr, Inhabited

namespace Config

def default : Config := {}

/-- The default settings with the file cache at `path`. -/
def withStorage (path : String) : Config :=
  { storagePath := some path }

def fieldNames : List String :=
  ["storage_path", "debounce_ms", "fetch_window", "io_concurrency", "clear_cache"]

/-- A setting that may be left out. -/
def setting? (value : Datum → Option α) (default : α) : Option Datum → Option α
  | none => some default
  | some datum => value datum

def bool? : Datum → Option Bool
  | .bool value => some value
  | _ => none

def ofDatum? (room : Nat) (datum : Datum) : Option Config := do
  let [storagePath, debounceMs, fetchWindow, ioConcurrency, clearCache] ←
    fieldsWithDefaults? fieldNames room datum | none
  let natural := naturalBelow? UInt64.size
  some
    ⟨← optional? text? storagePath, ← setting? natural default.debounceMs debounceMs,
      ← setting? natural default.fetchWindow fetchWindow,
      ← setting? natural default.ioConcurrency ioConcurrency,
      ← setting? bool? default.clearCache clearCache⟩

def parse? (text : String) : Option Config :=
  Json.parse? text >>= ofDatum? Json.maxNesting

/-- A path below a directory; one slash stands between them. -/
def joinPath (directory name : String) : String :=
  if directory.toList.getLast? = some '/' then directory ++ name else directory ++ "/" ++ name

def cacheDirectory (home : String) : String :=
  joinPath (joinPath home ".phpscope") "cache"

def logDirectory (home : String) : String :=
  joinPath (joinPath home ".phpscope") "logs"

end Config

end SymbolIndex
