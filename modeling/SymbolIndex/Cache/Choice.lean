import SymbolIndex.Cache.Files
import SymbolIndex.Cache.Memory

/-!
# The cache in use

Where a directory is at hand the cache keeps its entries in files there, else in memory.
-/

namespace SymbolIndex

inductive Cache where
  | memory (cache : MemoryCache)
  | files (cache : FileCache)

namespace Cache

/-- A file cache in a directory. Without one, be it that none was asked for or that it could not be
made, a memory cache. -/
def create : Option Directory → Cache
  | some directory => files { directory := directory }
  | none => memory .empty

instance : ByteStore Cache where
  read
    | memory cache, key => ByteStore.read cache key
    | files cache, key => ByteStore.read cache key
  write
    | memory cache, key, bytes => (ByteStore.write cache key bytes).map id memory
    | files cache, key, bytes => (ByteStore.write cache key bytes).map id files
  delete
    | memory cache, key => (ByteStore.delete cache key).map id memory
    | files cache, key => (ByteStore.delete cache key).map id files
  flush
    | memory cache => (ByteStore.flush cache).map id memory
    | files cache => (ByteStore.flush cache).map id files
  clear
    | memory cache => (ByteStore.clear cache).map id memory
    | files cache => (ByteStore.clear cache).map id files

end Cache

end SymbolIndex
