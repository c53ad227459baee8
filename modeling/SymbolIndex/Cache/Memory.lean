import SymbolIndex.Cache.Basic
import SymbolIndex.KeyedList

/-!
# The memory cache

A byte store that never fails and is lost at the end of the program. Its keys are distinct, since
a write takes the place of the entry before it.
-/

namespace SymbolIndex

structure MemoryCache where
  entries : KeyedList (List UInt8) := []
  deriving Repr, DecidableEq, Inhabited

namespace MemoryCache

def empty : MemoryCache := {}

def size (cache : MemoryCache) : Nat :=
  cache.entries.length

instance : ByteStore MemoryCache where
  read cache key := .ok (cache.entries.value? key)
  write cache key bytes := ⟨⟨cache.entries.put key bytes⟩, none⟩
  delete cache key := ⟨⟨cache.entries.remove key⟩, none⟩
  flush cache := ⟨cache, none⟩
  clear _ := ⟨empty, none⟩

end MemoryCache

end SymbolIndex
