import Mathlib.Data.List.Infix
import SymbolIndex.Proofs.Cache.Calls
import SymbolIndex.Proofs.Cache.Directory
import SymbolIndex.Proofs.Cache.Names
import SymbolIndex.Proofs.Cache.Stored

/-!
# The file cache is the memory cache in files

Under every digest the file cache keeps what a memory cache holds under the keys of that digest, in
the same order and in one file, which is there exactly if there are such keys. All calls keep this,
so the two caches reply alike to every run, also when many keys share a digest and when the file
cache is opened anew in between: `FileCache.performAll_eq_memory`. The condition is that no bucket
outgrows its stored form, in which lists and texts have lengths below 2^32.
-/

namespace SymbolIndex

open ByteStore

namespace MemoryCache

/-! ## Buckets of a memory cache -/

/-- The entries whose keys have a digest. -/
def bucket (hashOf : String → UInt64) (cache : MemoryCache) (hash : UInt64) : Bucket :=
  ⟨cache.entries.filter fun entry => hashOf entry.1 == hash⟩

section

variable (hashOf : String → UInt64) (cache : MemoryCache) (hash : UInt64)

/-- An entry goes to the bucket of its key's digest, and to no other. -/
theorem bucket_put (key : String) (bytes : List UInt8) :
    bucket hashOf ⟨cache.entries.put key bytes⟩ hash =
      if hash = hashOf key then (cache.bucket hashOf hash).put key bytes
      else cache.bucket hashOf hash := by
  have hfilter := KeyedList.filter_put (hashOf · == hash) cache.entries key bytes
  rw [bucket, hfilter]
  by_cases heq : hash = hashOf key
  · simp [heq, bucket, Bucket.put]
  · simp [heq, Ne.symm heq, bucket]

/-- An entry leaves the bucket of its key's digest, and no other. -/
theorem bucket_remove (key : String) :
    bucket hashOf ⟨cache.entries.remove key⟩ hash =
      if hash = hashOf key then (cache.bucket hashOf hash).remove key
      else cache.bucket hashOf hash := by
  have hfilter := KeyedList.filter_remove (hashOf · == hash) cache.entries key
  rw [bucket, hfilter]
  by_cases heq : hash = hashOf key
  · simp [heq, bucket, Bucket.remove]
  · simp [heq, Ne.symm heq, bucket]

theorem value?_bucket (key : String) :
    (cache.bucket hashOf (hashOf key)).value? key = cache.entries.value? key :=
  KeyedList.value?_filter (hashOf · == hashOf key) cache.entries (beq_self_eq_true _)

variable {cache}

/-- No bucket is larger than the whole. -/
theorem isStorable_bucket (hlength : cache.entries.length < UInt32.size)
    (hentries : ∀ entry ∈ cache.entries, IsShort entry.1 ∧ entry.2.length < UInt32.size) :
    (cache.bucket hashOf hash).IsStorable where
  length_entries := Nat.lt_of_le_of_lt (List.length_filter_le _ _) hlength
  entries entry hmem :=
    have ⟨hkey, hbytes⟩ := hentries entry (List.mem_filter.1 hmem).1
    ⟨hkey, hbytes⟩

end

end MemoryCache

/-! ## Files -/

/-- The file in which a bucket is kept. One without entries has none. -/
def Bucket.file? (bucket : Bucket) : Option DirectoryEntry :=
  if bucket.entries.isEmpty then none else some (.file (Stored.encode bucket))

theorem Bucket.file?_ne_folder (bucket : Bucket) : bucket.file? ≠ some .folder := by
  rw [file?]
  split <;> simp

theorem Bucket.decode?_encode_of_isStorable {bucket : Bucket} (h : bucket.IsStorable) :
    Stored.decode? (Stored.encode bucket) = some bucket := by
  have hshallow : (1 + if bucket.entries.isEmpty then 0 else 2) ≤ MessagePack.maxNesting := by
    split <;> decide
  rw [Stored.decode?_encode_of_storedAs (Bucket.storedAs h), if_pos hshallow]

namespace FileCache

section

variable {directory : Directory} (hworks : directory.Works)

include hworks

/-- A bucket is loaded from its file, an empty one from no file. -/
theorem load_of_file? {hash : UInt64} {bucket : Bucket} (hstorable : bucket.IsStorable)
    (hfile : directory.entry? (bucketName hash) = bucket.file?) :
    load directory hash = .ok bucket := by
  rw [load, hworks.read, Directory.file?, hfile, Bucket.file?]
  cases hempty : bucket.entries.isEmpty with
  | true =>
    have hbucket : bucket = .empty := congrArg Bucket.mk (List.isEmpty_iff.1 hempty)
    rw [hbucket]
    rfl
  | false =>
    simp only [Bool.false_eq_true, if_false, Bucket.decode?_encode_of_isStorable hstorable]
    rfl

/-- Saving a bucket gives it its file or takes the file away, and leaves all other names alone. -/
theorem save_eq {hash : UInt64} (hdraft : directory.entry? (draftName hash) = none)
    (hplace : directory.entry? (bucketName hash) ≠ some .folder) (bucket : Bucket) :
    ∃ after, save directory hash bucket = ⟨after, none⟩ ∧ after.Works ∧
      ∀ name, after.entry? name =
        if name = bucketName hash then bucket.file? else directory.entry? name := by
  rw [save, Bucket.file?]
  cases hempty : bucket.entries.isEmpty with
  | true =>
    simp only [if_true, discard]
    cases hentry : directory.entry? (bucketName hash) with
    | none =>
      refine ⟨directory, by rw [hworks.remove_missing hentry], hworks, ?_⟩
      intro name
      split
      · rename_i heq
        rw [heq, hentry]
      · rfl
    | some entry =>
      cases entry with
      | folder => exact absurd hentry hplace
      | file bytes =>
        refine ⟨directory.takeAway (bucketName hash), by rw [hworks.remove_file hentry],
          hworks.takeAway _, ?_⟩
        exact Directory.entry?_takeAway directory (bucketName hash)
  | false =>
    let bytes := Stored.encode bucket
    let drafted := directory.put (draftName hash) (.file bytes)
    have hdrafted : drafted.Works := hworks.put _ _
    have hsource : drafted.entry? (draftName hash) = some (.file bytes) := by
      rw [Directory.entry?_put, if_pos rfl]
    have htarget : drafted.entry? (bucketName hash) ≠ some .folder := by
      rw [Directory.entry?_put, if_neg (draftName_ne_bucketName hash hash).symm]
      exact hplace
    have hfree : directory.entry? (draftName hash) ≠ some .folder := by simp [hdraft]
    have hwrite := hworks.write hfree bytes
    refine ⟨(drafted.takeAway (draftName hash)).put (bucketName hash) (.file bytes), ?_,
      (hdrafted.takeAway _).put _ _, ?_⟩
    · simp only [Bool.false_eq_true, if_false]
      rw [hwrite, Attempt.andThen]
      exact hdrafted.rename hsource htarget
    · intro name
      rw [Directory.entry?_put, Directory.entry?_takeAway, Directory.entry?_put]
      by_cases heq : name = draftName hash
      · simp [heq, draftName_ne_bucketName, hdraft]
      · simp [heq, bytes]

/-- Where nothing is refused, all the names are removed, and nothing else. -/
theorem removeAll_eq {names : List String} (honce : names.Nodup)
    (hfiles : ∀ name ∈ names, ∃ bytes, directory.entry? name = some (.file bytes)) :
    ∃ after, removeAll directory names = ⟨after, none⟩ ∧ after.Works ∧
      ∀ name, after.entry? name = if name ∈ names then none else directory.entry? name := by
  induction names generalizing directory with
  | nil => exact ⟨directory, rfl, hworks, by simp⟩
  | cons first rest ih =>
    obtain ⟨hfirst, hrest⟩ := List.nodup_cons.1 honce
    obtain ⟨⟨bytes, hbytes⟩, hlater⟩ := List.forall_mem_cons.1 hfiles
    have hleft : ∀ name ∈ rest, ∃ bytes,
        Directory.entry? (directory.takeAway first) name = some (.file bytes) := by
      intro name hmem
      have hne : name ≠ first := fun heq => hfirst (heq ▸ hmem)
      rw [Directory.entry?_takeAway, if_neg hne]
      exact hlater name hmem
    obtain ⟨after, hafter, hworksAfter, hentry⟩ := ih (hworks.takeAway first) hrest hleft
    refine ⟨after, ?_, hworksAfter, ?_⟩
    · rw [removeAll, hworks.remove_file hbytes]
      exact hafter
    · intro name
      rw [hentry, Directory.entry?_takeAway]
      by_cases heq : name = first
      · simp [heq]
      · simp [heq]

end

/-! ## One cache in the files of the other -/

/-- The file cache keeps under every digest the entries of the memory cache, and nothing else under
a name of its own. -/
structure Mirrors (cache : FileCache) (memory : MemoryCache) : Prop where
  works : cache.directory.Works
  keysOnce : (memory.entries.map (·.1)).Nodup
  filed : ∀ hash, cache.directory.entry? (bucketName hash) =
    (memory.bucket cache.hashOf hash).file?
  noOther : ∀ name, isOwn name = true → (∀ hash, name ≠ bucketName hash) →
    cache.directory.entry? name = none

namespace Mirrors

variable {cache : FileCache} {memory : MemoryCache} (hmirrors : cache.Mirrors memory)

include hmirrors

theorem load {hash : UInt64} (hfits : (memory.bucket cache.hashOf hash).IsStorable) :
    FileCache.load cache.directory hash = .ok (memory.bucket cache.hashOf hash) :=
  load_of_file? hmirrors.works hfits (hmirrors.filed hash)

theorem read {key : String}
    (hfits : (memory.bucket cache.hashOf (cache.hashOf key)).IsStorable) :
    ByteStore.read cache key = ByteStore.read memory key := by
  have hvalue := MemoryCache.value?_bucket cache.hashOf memory key
  have hread : ByteStore.read cache key = .ok (memory.entries.value? key) := by
    simp only [ByteStore.read, hmirrors.load hfits, hvalue]
  rw [hread]
  rfl

/-- A change of one bucket is mirrored when the other cache is changed in that bucket only. -/
theorem revise {key : String} {change : Bucket → Bucket} {entries : KeyedList (List UInt8)}
    (hfits : (memory.bucket cache.hashOf (cache.hashOf key)).IsStorable)
    (honce : (entries.map (·.1)).Nodup)
    (hchange : ∀ hash, MemoryCache.bucket cache.hashOf ⟨entries⟩ hash =
      if hash = cache.hashOf key then change (memory.bucket cache.hashOf hash)
      else memory.bucket cache.hashOf hash) :
    (cache.revise key change).fault? = none ∧
      (cache.revise key change).after.Mirrors ⟨entries⟩ := by
  have hdraft : cache.directory.entry? (draftName (cache.hashOf key)) = none :=
    hmirrors.noOther _ (isOwn_draftName _) fun hash => draftName_ne_bucketName _ hash
  have hplace : cache.directory.entry? (bucketName (cache.hashOf key)) ≠ some .folder := by
    rw [hmirrors.filed]
    exact Bucket.file?_ne_folder _
  obtain ⟨after, hsave, hworks, hentry⟩ := save_eq hmirrors.works hdraft hplace
    (change (memory.bucket cache.hashOf (cache.hashOf key)))
  have hrevise : cache.revise key change = ⟨{ cache with directory := after }, none⟩ := by
    simp only [FileCache.revise, hmirrors.load hfits, hsave]
    rfl
  rw [hrevise]
  refine ⟨rfl, hworks, honce, ?_, ?_⟩
  · intro hash
    rw [hentry, hchange]
    by_cases heq : hash = cache.hashOf key
    · simp [heq]
    · rw [if_neg (mt bucketName_injective heq), if_neg heq]
      exact hmirrors.filed hash
  · intro name hown hother
    rw [hentry, if_neg (hother _)]
    exact hmirrors.noOther name hown hother

/-- Both caches take a write, and the one still mirrors the other. -/
theorem write (key : String) (bytes : List UInt8)
    (hfits : (memory.bucket cache.hashOf (cache.hashOf key)).IsStorable) :
    (ByteStore.write cache key bytes).fault? = none ∧
      (ByteStore.write cache key bytes).after.Mirrors (ByteStore.write memory key bytes).after :=
  hmirrors.revise hfits (KeyedList.nodup_put hmirrors.keysOnce key bytes)
    fun hash => MemoryCache.bucket_put cache.hashOf memory hash key bytes

/-- Both caches take a deletion, and the one still mirrors the other. -/
theorem delete (key : String)
    (hfits : (memory.bucket cache.hashOf (cache.hashOf key)).IsStorable) :
    (ByteStore.delete cache key).fault? = none ∧
      (ByteStore.delete cache key).after.Mirrors (ByteStore.delete memory key).after :=
  hmirrors.revise hfits (KeyedList.nodup_remove hmirrors.keysOnce key)
    fun hash => MemoryCache.bucket_remove cache.hashOf memory hash key

/-- Both caches take a clearing, and the one still mirrors the other. -/
theorem clear :
    (ByteStore.clear cache).fault? = none ∧
      (ByteStore.clear cache).after.Mirrors (ByteStore.clear memory).after := by
  have hfiles : ∀ name ∈ cache.directory.names.filter isOwn, ∃ bytes,
      cache.directory.entry? name = some (.file bytes) := by
    intro name hmem
    obtain ⟨hname, hown⟩ := List.mem_filter.1 hmem
    have hsome : cache.directory.entry? name ≠ none :=
      fun hnone => Directory.entry?_eq_none_iff.1 hnone hname
    obtain ⟨hash, rfl⟩ : ∃ hash, name = bucketName hash := by
      by_contra hother
      exact hsome (hmirrors.noOther name hown fun hash heq => hother ⟨hash, heq⟩)
    rw [hmirrors.filed, Bucket.file?] at hsome ⊢
    split at hsome
    · exact absurd rfl hsome
    · rename_i hentries
      rw [if_neg hentries]
      exact ⟨_, rfl⟩
  obtain ⟨after, hremove, hworks, hentry⟩ :=
    removeAll_eq hmirrors.works (hmirrors.works.namesOnce.filter _) hfiles
  have hclear : ByteStore.clear cache = ⟨{ cache with directory := after }, none⟩ := by
    simp only [ByteStore.clear, hremove]
    rfl
  have hgone : ∀ name, isOwn name = true → after.entry? name = none := by
    intro name hown
    rw [hentry]
    split
    · rfl
    · rename_i hfree
      rw [Directory.entry?_eq_none_iff]
      exact fun hname => hfree (List.mem_filter.2 ⟨hname, hown⟩)
  rw [hclear]
  exact ⟨rfl, hworks, List.nodup_nil, fun hash => hgone _ (isOwn_bucketName hash),
    fun name hown _ => hgone name hown⟩

end Mirrors

/-! ## Runs -/

/-- A new cache in the directory of a closed one. -/
def reopened (cache : FileCache) : FileCache :=
  { hashOf := cache.hashOf, directory := cache.directory }

theorem hashOf_revise (cache : FileCache) (key : String) (change : Bucket → Bucket) :
    (cache.revise key change).after.hashOf = cache.hashOf := by
  rw [FileCache.revise]
  split <;> rfl

theorem hashOf_perform (cache : FileCache) (call : Call) :
    (perform reopened cache call).2.hashOf = cache.hashOf := by
  cases call with
  | write key bytes => exact hashOf_revise cache key _
  | delete key => exact hashOf_revise cache key _
  | read key => rfl
  | flush => rfl
  | clear => rfl
  | reopen => rfl

theorem hashOf_performAll (cache : FileCache) (calls : List Call) :
    (performAll reopened cache calls).2.hashOf = cache.hashOf := by
  induction calls generalizing cache with
  | nil => rfl
  | cons call rest ih => exact (ih _).trans (hashOf_perform cache call)

namespace Mirrors

variable {cache : FileCache} {memory : MemoryCache}

/-- A call is answered as by the memory cache, and the one still mirrors the other. -/
theorem perform (hmirrors : cache.Mirrors memory)
    (hfits : ∀ hash, (memory.bucket cache.hashOf hash).IsStorable) (call : Call) :
    (perform reopened cache call).1 = (perform id memory call).1 ∧
      (perform reopened cache call).2.Mirrors (perform id memory call).2 := by
  have hchange : ∀ {attempt : Attempt StorageFault FileCache} {other : MemoryCache},
      attempt.fault? = none ∧ attempt.after.Mirrors other →
        (replied attempt).1 = .ok none ∧ (replied attempt).2.Mirrors other := by
    rintro attempt other ⟨hfault, hafter⟩
    refine ⟨?_, hafter⟩
    rw [replied, hfault]
  cases call with
  | read key => exact ⟨hmirrors.read (hfits _), hmirrors⟩
  | write key bytes => exact hchange (hmirrors.write key bytes (hfits _))
  | delete key => exact hchange (hmirrors.delete key (hfits _))
  | flush => exact ⟨rfl, hmirrors⟩
  | clear => exact hchange hmirrors.clear
  | reopen => exact ⟨rfl, hmirrors⟩

/-- Every call of a run is answered as by the memory cache. -/
theorem performAll (hmirrors : cache.Mirrors memory) {calls : List Call}
    (hfits : ∀ past, past <+: calls → ∀ hash,
      ((performAll id memory past).2.bucket cache.hashOf hash).IsStorable) :
    (performAll reopened cache calls).1 = (performAll id memory calls).1 ∧
      (performAll reopened cache calls).2.Mirrors (performAll id memory calls).2 := by
  induction calls generalizing cache memory with
  | nil => exact ⟨rfl, hmirrors⟩
  | cons call rest ih =>
    obtain ⟨hreply, hnext⟩ := hmirrors.perform (hfits [] (List.nil_prefix)) call
    obtain ⟨hreplies, hafter⟩ := ih hnext fun past hpast => by
      rw [hashOf_perform]
      exact hfits (call :: past) ((List.prefix_cons_inj call).2 hpast)
    refine ⟨?_, hafter⟩
    rw [ByteStore.performAll, ByteStore.performAll]
    simp only [hreply, hreplies]

end Mirrors

/-- All that stands under names of the cache's own are files of buckets. Each has entries, every one
for another key, and for keys of the bucket's digest only. -/
def KeepsBuckets (cache : FileCache) : Prop :=
  ∀ name entry, cache.directory.entry? name = some entry → isOwn name = true →
    ∃ (hash : UInt64) (bytes : List UInt8) (bucket : Bucket),
      name = bucketName hash ∧ entry = .file bytes ∧ Stored.decode? bytes = some bucket ∧
      bucket.entries ≠ [] ∧
      (bucket.entries.map (·.1)).Nodup ∧ ∀ kept ∈ bucket.entries, cache.hashOf kept.1 = hash

/-- A cache that mirrors another holds files of buckets only, each in its place. -/
theorem Mirrors.keepsBuckets {cache : FileCache} {memory : MemoryCache}
    (hmirrors : cache.Mirrors memory)
    (hfits : ∀ hash, (memory.bucket cache.hashOf hash).IsStorable) : cache.KeepsBuckets := by
  intro name entry hentry hown
  obtain ⟨hash, rfl⟩ : ∃ hash, name = bucketName hash := by
    by_contra hother
    rw [hmirrors.noOther name hown fun hash heq => hother ⟨hash, heq⟩] at hentry
    cases hentry
  rw [hmirrors.filed, Bucket.file?] at hentry
  split at hentry
  · cases hentry
  · rename_i hentries
    obtain rfl := Option.some_inj.1 hentry
    refine ⟨hash, _, memory.bucket cache.hashOf hash, rfl, rfl,
      Bucket.decode?_encode_of_isStorable (hfits hash), ?_, ?_, ?_⟩
    · exact fun hnil => hentries (List.isEmpty_iff.2 hnil)
    · exact (List.filter_sublist.map _).nodup hmirrors.keysOnce
    · intro kept hmem
      exact beq_iff_eq.1 (List.mem_filter.1 hmem).2

/-- In a directory where nothing stands under its names at first, the file cache replies to any call
as a memory cache does, and reads give the value written last. -/
theorem performAll_eq_memory (hashOf : String → UInt64) {directory : Directory}
    (hworks : directory.Works)
    (hunused : ∀ name, isOwn name = true → directory.entry? name = none) {calls : List Call}
    (hfits : ∀ past, past <+: calls → ∀ hash,
      ((MemoryCache.after past).bucket hashOf hash).IsStorable) :
    let start : FileCache := { hashOf := hashOf, directory := directory }
    (performAll reopened start calls).1 = (performAll id MemoryCache.empty calls).1 ∧
      (∀ past key, past ++ [.read key] <+: calls →
        (performAll reopened start calls).1[past.length]? = some (.ok (lastWritten? past key))) ∧
      ∀ past, past <+: calls → (performAll reopened start past).2.KeepsBuckets := by
  intro start
  have hstart : start.Mirrors .empty :=
    ⟨hworks, List.nodup_nil, fun hash => hunused _ (isOwn_bucketName hash),
      fun name hown _ => hunused name hown⟩
  have hreplies := (hstart.performAll hfits).1
  refine ⟨hreplies, ?_, ?_⟩
  · rintro past key ⟨later, rfl⟩
    have hlength := length_performAll id MemoryCache.empty past
    rw [hreplies, List.append_assoc, performAll_append]
    simp only [List.singleton_append, performAll, perform]
    rw [List.getElem?_append_right (Nat.le_of_eq hlength), hlength, Nat.sub_self,
      ← MemoryCache.value?_after]
    rfl
  · intro past hpast
    have hfitsPast := fun earlier (hearlier : earlier <+: past) =>
      hfits earlier (hearlier.trans hpast)
    apply (hstart.performAll hfitsPast).2.keepsBuckets
    rw [hashOf_performAll]
    exact hfits past hpast

/-- A directory with a file that is not the cache's. -/
def sharedDirectory : Directory :=
  { entries := [("notes.txt", .file [1])] }

/-- Two keys, one of which is deleted while the other has a value. -/
def twoKeys : List Call :=
  [.write "a" [1], .write "b" [2], .reopen, .write "a" [3], .read "b", .delete "b", .read "b",
    .read "a", .clear, .read "a"]

/-- All keys have one digest here. -/
theorem performAll_eq_memory_colliding :
    let start : FileCache := { hashOf := fun _ => 0, directory := sharedDirectory }
    sharedDirectory.Works ∧
      (∀ name, isOwn name = true → sharedDirectory.entry? name = none) ∧
      (∀ past, past <+: twoKeys → ∀ hash,
        ((MemoryCache.after past).bucket (fun _ => 0) hash).IsStorable) ∧
      (performAll reopened start twoKeys).1 =
        [.ok none, .ok none, .ok none, .ok none, .ok (some [2]), .ok none, .ok none,
          .ok (some [3]), .ok none, .ok none] := by
  have hworks : sharedDirectory.Works := ⟨rfl, by decide⟩
  have hunused : ∀ name, isOwn name = true → sharedDirectory.entry? name = none := by
    intro name hown
    rw [Directory.entry?_eq_none_iff]
    rintro hname
    rw [List.mem_singleton.1 hname] at hown
    exact absurd hown (by decide)
  have hfits : ∀ past, past <+: twoKeys → ∀ hash,
      ((MemoryCache.after past).bucket (fun _ => 0) hash).IsStorable := by
    have hsmall : ∀ past ∈ twoKeys.inits,
        (MemoryCache.after past).entries.length < UInt32.size ∧
          ∀ entry ∈ (MemoryCache.after past).entries,
            IsShort entry.1 ∧ entry.2.length < UInt32.size := by
      decide +kernel
    intro past hpast hash
    obtain ⟨hlength, hentries⟩ := hsmall past ((List.mem_inits past twoKeys).2 hpast)
    exact MemoryCache.isStorable_bucket _ hash hlength hentries
  exact ⟨hworks, hunused, hfits, (performAll_eq_memory _ hworks hunused hfits).1⟩

end FileCache

end SymbolIndex
