import SymbolIndex.Proofs.Cache.Drafts

/-!
# Changes of the file cache that fail

A change that fails leaves every bucket as it was. The cache goes on as if the change had not been
tried, whatever is called and whatever the device refuses later: `FileCache.reply_after_failed`.
-/

namespace SymbolIndex

open ByteStore

namespace FileCache

/-! ## Caches in directories that hold the same -/

/-- The cache while its device refuses some operations. -/
def during (cache : FileCache) (refusals : DeviceRefusals) : FileCache :=
  { cache with directory := { cache.directory with refusals := refusals } }

/-- Two caches whose directories hold the same besides drafts, whatever the devices refuse at the
moment. -/
structure Alike (left right : FileCache) : Prop where
  hashOf : left.hashOf = right.hashOf
  directory : ∀ refusals,
    SameButDrafts (left.during refusals).directory (right.during refusals).directory

theorem SameButDrafts.alike {left right : FileCache} (hhash : left.hashOf = right.hashOf)
    (hsame : SameButDrafts left.directory right.directory) : left.Alike right :=
  ⟨hhash, fun _ => ⟨hsame.leftOnce, hsame.rightOnce, hsame.settled, rfl⟩⟩

section

variable {left right : FileCache} (hhash : left.hashOf = right.hashOf)
  (hsame : SameButDrafts left.directory right.directory)

include hhash hsame

theorem read_eq_of_same (key : String) : ByteStore.read left key = ByteStore.read right key := by
  simp only [ByteStore.read, hhash, hsame.load_eq]

/-- The same change of two such caches fails in both or in neither, and leaves them alike. -/
theorem revise_same (key : String) (change : Bucket → Bucket) :
    (left.revise key change).fault? = (right.revise key change).fault? ∧
      (left.revise key change).after.Alike (right.revise key change).after := by
  rw [revise, revise, hhash, hsame.load_eq]
  split
  · exact ⟨rfl, hsame.alike hhash⟩
  · rename_i bucket _
    have hsave := hsame.save (right.hashOf key) (change bucket)
    exact ⟨congrArg (Option.map _) hsave.fault?, SameButDrafts.alike rfl hsave.after⟩

/-- Clearing ends alike unless nothing may be removed: then it fails where there is something to
remove, be it only a draft. -/
theorem clear_same :
    (left.directory.refusals.removals = false →
        (ByteStore.clear left).fault? = (ByteStore.clear right).fault?) ∧
      (ByteStore.clear left).after.Alike (ByteStore.clear right).after := by
  cases hremovals : left.directory.refusals.removals with
  | true =>
    have hother : right.directory.refusals.removals = true := hsame.refusals ▸ hremovals
    refine ⟨fun hallowed => ?_, SameButDrafts.alike hhash ?_⟩
    · cases hallowed
    · simp only [ByteStore.clear, Attempt.map, removeAll_refused hremovals,
        removeAll_refused hother]
      exact hsame
  | false =>
    have hother : right.directory.refusals.removals = false := hsame.refusals ▸ hremovals
    have hleft := removeAll_swept hsame.leftOnce hremovals
    rw [hsame.swept_eq] at hleft
    have hend := hleft.trans (removeAll_swept hsame.rightOnce hother).symm
    exact ⟨fun _ => congrArg (Option.map _) hend.fault?, SameButDrafts.alike hhash hend.after⟩

end

/-! ## Failed changes and what comes after -/

/-- A call, and what the device refuses while it is made. -/
structure Occasion where
  refusals : DeviceRefusals
  call : Call

def performOn (cache : FileCache) (occasion : Occasion) : Reply × FileCache :=
  perform reopened (cache.during occasion.refusals) occasion.call

def afterAll (cache : FileCache) (occasions : List Occasion) : FileCache :=
  occasions.foldl (fun cache occasion => (cache.performOn occasion).2) cache

theorem replied_eq {left right : Attempt StorageFault FileCache}
    (hfault : left.fault? = right.fault?) : (replied left).1 = (replied right).1 := by
  rw [replied, replied, hfault]

namespace Alike

variable {left right : FileCache} (halike : left.Alike right)

include halike

/-- Caches that are alike answer every call alike and stay so. A clearing is the exception where
removals are refused, as a draft that is there may fail to be removed. -/
theorem performOn (occasion : Occasion) :
    ((occasion.call = .clear → occasion.refusals.removals = false) →
        (left.performOn occasion).1 = (right.performOn occasion).1) ∧
      (left.performOn occasion).2.Alike (right.performOn occasion).2 := by
  obtain ⟨refusals, call⟩ := occasion
  have hhash : (left.during refusals).hashOf = (right.during refusals).hashOf := halike.hashOf
  have hsame := halike.directory refusals
  have hduring := hsame.alike hhash
  simp only [FileCache.performOn]
  cases call with
  | read key => exact ⟨fun _ => read_eq_of_same hhash hsame key, hduring⟩
  | write key bytes =>
    obtain ⟨hfault, hafter⟩ := revise_same hhash hsame key (·.put key bytes)
    exact ⟨fun _ => replied_eq hfault, hafter⟩
  | delete key =>
    obtain ⟨hfault, hafter⟩ := revise_same hhash hsame key (·.remove key)
    exact ⟨fun _ => replied_eq hfault, hafter⟩
  | flush => exact ⟨fun _ => rfl, hduring⟩
  | clear =>
    obtain ⟨hfault, hafter⟩ := clear_same hhash hsame
    exact ⟨fun hallowed => replied_eq (hfault (hallowed rfl)), hafter⟩
  | reopen => exact ⟨fun _ => rfl, hduring⟩

theorem afterAll (occasions : List Occasion) :
    (left.afterAll occasions).Alike (right.afterAll occasions) := by
  induction occasions generalizing left right with
  | nil => exact halike
  | cons occasion rest ih => exact ih (halike.performOn occasion).2

end Alike

/-- A change that fails leaves the cache as it was but for a draft. -/
theorem revise_failed {cache : FileCache} (honce : cache.directory.names.Nodup) {key : String}
    {change : Bucket → Bucket} (hfault : (cache.revise key change).fault? ≠ none) :
    (cache.revise key change).after.Alike cache := by
  rw [revise] at hfault ⊢
  split at hfault
  · rename_i hload
    exact (SameButDrafts.refl honce).alike rfl
  · rename_i bucket hload
    have hsave : (save cache.directory (cache.hashOf key) (change bucket)).fault? ≠ none := by
      intro hnone
      simp only [Attempt.map, hnone, Option.map_none] at hfault
      exact hfault rfl
    exact SameButDrafts.alike rfl (save_failed honce hsave)

theorem fault?_of_replied {attempt : Attempt StorageFault FileCache} {fault : StorageFault}
    (hreply : (replied attempt).1 = .error fault) : attempt.fault? ≠ none := by
  intro hnone
  rw [replied, hnone] at hreply
  cases hreply

/-- A write or delete that fails leaves every key as it was, and no later call is answered otherwise
than if it had not been tried, except that clearing may fail where nothing but a draft is left that
may not be removed. -/
theorem reply_after_failed {cache : FileCache} (honce : cache.directory.names.Nodup)
    {refusals : DeviceRefusals} {key : String} {call : Call}
    (hchange : (∃ bytes, call = .write key bytes) ∨ call = .delete key) {fault : StorageFault}
    (hfailed : (cache.performOn ⟨refusals, call⟩).1 = .error fault) :
    let after := (cache.performOn ⟨refusals, call⟩).2
    (∀ refusals other,
        ByteStore.read (after.during refusals) other =
          ByteStore.read (cache.during refusals) other) ∧
      ∀ (later : List Occasion) (next : Occasion),
        (next.call = .clear → next.refusals.removals = false) →
          ((after.afterAll later).performOn next).1 = ((cache.afterAll later).performOn next).1 := by
  intro after
  have honceDuring : (cache.during refusals).directory.names.Nodup := honce
  have hafter : after.Alike (cache.during refusals) := by
    rcases hchange with ⟨bytes, rfl⟩ | rfl
    · exact revise_failed honceDuring (fault?_of_replied hfailed)
    · exact revise_failed honceDuring (fault?_of_replied hfailed)
  have halike : after.Alike cache := ⟨hafter.hashOf, hafter.directory⟩
  refine ⟨?_, ?_⟩
  · intro refusals other
    have hhash : (after.during refusals).hashOf = (cache.during refusals).hashOf := halike.hashOf
    exact read_eq_of_same hhash (halike.directory refusals) other
  · intro later next hnext
    exact ((halike.afterAll later).performOn next).1 hnext

/-- A cache with two keys of one digest. -/
def collidingCache : FileCache :=
  ({ hashOf := fun _ => 0 } : FileCache).afterAll
    [⟨{}, .write "a" [1]⟩, ⟨{}, .write "b" [2]⟩]

/-- A write that breaks off, and later another of the same bucket that succeeds. -/
theorem reply_after_failed_colliding :
    let failed : Occasion := ⟨{ writes := some [0xff] }, .write "a" [3]⟩
    let after := (collidingCache.performOn failed).2
    collidingCache.directory.names.Nodup ∧
      (collidingCache.performOn failed).1 = .error DirectoryFault.refused.toStorage ∧
      after.directory.names ≠ collidingCache.directory.names ∧
      ByteStore.read (after.during {}) "a" = .ok (some [1]) ∧
      ((after.afterAll [⟨{}, .write "b" [4]⟩]).performOn ⟨{}, .read "a"⟩).1 = .ok (some [1]) ∧
      ((after.afterAll [⟨{}, .write "b" [4]⟩]).performOn ⟨{}, .read "b"⟩).1 = .ok (some [4]) := by
  intro failed after
  have honce : collidingCache.directory.names.Nodup := by decide +kernel
  have hfailed : (collidingCache.performOn failed).1 =
      .error DirectoryFault.refused.toStorage := by decide +kernel
  have hnames : after.directory.names ≠ collidingCache.directory.names := by decide +kernel
  obtain ⟨hreads, hlater⟩ := reply_after_failed honce (Or.inl ⟨[3], rfl⟩) hfailed
  refine ⟨honce, hfailed, hnames, ?_, ?_, ?_⟩
  · rw [hreads]
    decide +kernel
  · rw [hlater _ _ fun _ => rfl]
    decide +kernel
  · rw [hlater _ _ fun _ => rfl]
    decide +kernel

end FileCache

end SymbolIndex
