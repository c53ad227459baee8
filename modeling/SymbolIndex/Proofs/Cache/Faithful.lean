import Mathlib.Logic.Function.Basic
import SymbolIndex.Cache.Memory
import SymbolIndex.Cache.Stored

/-!
# Faithful byte stores

A byte store is faithful when its operations succeed and reads give what was
written last.  The contents it stands for are a map from keys to bytes, tied to
the store by a relation, since a store may keep them in any way.  Tables and the
saved state come back unchanged from a faithful store as soon as their bytes
decode to them, and their keys never coincide.
-/

namespace SymbolIndex

open Function

/-- The stored form of a value reads as the value. -/
def Stored.Decodes {α : Type} [Stored α] (value : α) : Prop :=
  Stored.decode? (Stored.encode value) = some value

instance {α : Type} [Stored α] [DecidableEq α] (value : α) :
    Decidable (Stored.Decodes value) :=
  inferInstanceAs (Decidable (_ = _))

namespace ByteStore

variable {σ : Type} [ByteStore σ]

abbrev Contents := String → Option (List UInt8)

/-- A store that holds some contents answers from them, and after a change that
cannot fail it holds the changed ones. -/
structure Faithful (holds : σ → Contents → Prop) : Prop where
  read : ∀ {store contents}, holds store contents →
    ∀ key, ByteStore.read store key = .ok (contents key)
  write : ∀ {store contents}, holds store contents → ∀ key bytes,
    (ByteStore.write store key bytes).fault? = none ∧
      holds (ByteStore.write store key bytes).after (update contents key (some bytes))
  delete : ∀ {store contents}, holds store contents → ∀ key,
    (ByteStore.delete store key).fault? = none ∧
      holds (ByteStore.delete store key).after (update contents key none)
  flush : ∀ {store contents}, holds store contents →
    (ByteStore.flush store).fault? = none ∧ holds (ByteStore.flush store).after contents

/-! ## Keys -/

theorem symbolsKey_injective : Injective symbolsKey := by
  intro left right heq
  rw [symbolsKey, symbolsKey] at heq
  exact (String.append_right_inj _).1 heq

theorem referencesKey_injective : Injective referencesKey := by
  intro left right heq
  rw [referencesKey, referencesKey] at heq
  exact (String.append_right_inj _).1 heq

theorem symbolsKey_ne_referencesKey (uri other : String) :
    symbolsKey uri ≠ referencesKey other := by
  intro heq
  have hlist := congrArg String.toList heq
  simp [symbolsKey, referencesKey] at hlist

theorem symbolsKey_ne_stateKey (uri : String) : symbolsKey uri ≠ stateKey := by
  intro heq
  have hlist := congrArg String.toList heq
  simp [symbolsKey, stateKey] at hlist

theorem referencesKey_ne_stateKey (uri : String) : referencesKey uri ≠ stateKey := by
  intro heq
  have hlist := congrArg String.toList heq
  simp [referencesKey, stateKey] at hlist

/-! ## Values -/

theorem readValue_of_read {α : Type} [Stored α] {store : σ} {key : String} {value : α}
    (hread : ByteStore.read store key = .ok (some (Stored.encode value)))
    (hdecodes : Stored.Decodes value) : ByteStore.readValue store key = .ok (some value) := by
  have hvalue : Stored.decode? (Stored.encode value) = some value := hdecodes
  rw [ByteStore.readValue, hread]
  simp only [hvalue]

namespace Faithful

variable {holds : σ → Contents → Prop} {store : σ} {contents : Contents}

theorem readValue_some {α : Type} [Stored α] (hfaithful : Faithful holds)
    (hholds : holds store contents) {key : String} {value : α}
    (hkept : contents key = some (Stored.encode value)) (hdecodes : Stored.Decodes value) :
    ByteStore.readValue store key = .ok (some value) :=
  readValue_of_read (by rw [hfaithful.read hholds, hkept]) hdecodes

/-- A value that a faithful store keeps is read back, and nothing else is. -/
theorem readValue {α : Type} [Stored α] (hfaithful : Faithful holds)
    (hholds : holds store contents) {key : String} {value? : Option α}
    (hkept : contents key = value?.map Stored.encode)
    (hdecodes : ∀ value, value? = some value → Stored.Decodes value) :
    (ByteStore.readValue store key).toOption.join = value? := by
  cases value? with
  | none =>
      rw [ByteStore.readValue, hfaithful.read hholds, hkept]
      rfl
  | some value =>
      rw [hfaithful.readValue_some hholds hkept (hdecodes value rfl)]
      rfl

theorem writeValue {α : Type} [Stored α] (hfaithful : Faithful holds)
    (hholds : holds store contents) (key : String) (value : α) :
    (ByteStore.writeValue store key value).fault? = none ∧
      holds (ByteStore.writeValue store key value).after
        (update contents key (some (Stored.encode value))) := by
  obtain ⟨hfault, hafter⟩ := hfaithful.write hholds key (Stored.encode value)
  refine ⟨?_, hafter⟩
  rw [ByteStore.writeValue, Attempt.map, hfault, Option.map_none]

/-- A faithful store loses both tables of a document and nothing else. -/
theorem deleteTables (hfaithful : Faithful holds) (hholds : holds store contents)
    (uri : String) :
    holds (ByteStore.deleteTables store uri).after
      (update (update contents (symbolsKey uri) none) (referencesKey uri) none) := by
  obtain ⟨hfault, hafter⟩ := hfaithful.delete hholds (symbolsKey uri)
  have hsecond := (hfaithful.delete hafter (referencesKey uri)).2
  rw [ByteStore.deleteTables, Attempt.andThen, hfault]
  exact hsecond

end Faithful

/-! ## Many writes -/

/-- The contents after some entries were written one after another. -/
def overlay (contents : Contents) (entries : List (String × List UInt8)) : Contents :=
  entries.foldl (fun contents entry => update contents entry.1 (some entry.2)) contents

/-- Keys that no entry was written under keep their contents. -/
theorem overlay_of_not_mem (contents : Contents) {entries : List (String × List UInt8)}
    {key : String} (hfree : ∀ entry ∈ entries, entry.1 ≠ key) :
    overlay contents entries key = contents key := by
  rw [overlay]
  induction entries generalizing contents with
  | nil => rfl
  | cons entry rest ih =>
      obtain ⟨hentry, hrest⟩ := List.forall_mem_cons.1 hfree
      rw [List.foldl_cons, ih _ hrest, update_of_ne hentry.symm]

/-- An entry that was written stands unless another value came under its key. -/
theorem overlay_of_mem (contents : Contents) {entries : List (String × List UInt8)}
    {key : String} {bytes : List UInt8} (hmem : (key, bytes) ∈ entries)
    (hsame : ∀ entry ∈ entries, entry.1 = key → entry.2 = bytes) :
    overlay contents entries key = some bytes := by
  induction entries generalizing contents with
  | nil => exact absurd hmem List.not_mem_nil
  | cons entry rest ih =>
      obtain ⟨-, hrest⟩ := List.forall_mem_cons.1 hsame
      by_cases hlater : (key, bytes) ∈ rest
      · exact ih _ hlater hrest
      · have hfree : ∀ other ∈ rest, other.1 ≠ key := by
          rintro ⟨name, written⟩ hother rfl
          exact hlater (hrest _ hother rfl ▸ hother)
        obtain rfl := (List.mem_cons.1 hmem).resolve_right hlater
        have hlast := overlay_of_not_mem (update contents key (some bytes)) hfree
        rw [update_self] at hlast
        exact hlast

/-- A faithful store holds the entries that were written one after another. -/
theorem Faithful.writeAll {holds : σ → Contents → Prop} (hfaithful : Faithful holds)
    {store : σ} {contents : Contents} (hholds : holds store contents)
    (entries : List (String × List UInt8)) :
    holds (entries.foldl (fun store entry =>
      (ByteStore.write store entry.1 entry.2).after) store) (overlay contents entries) := by
  rw [overlay]
  induction entries generalizing store contents with
  | nil => exact hholds
  | cons entry rest ih => exact ih (hfaithful.write hholds entry.1 entry.2).2

end ByteStore

/-! ## The memory cache -/

namespace MemoryCache

/-- The cache holds these contents. -/
def Holds (cache : MemoryCache) (contents : ByteStore.Contents) : Prop :=
  ∀ key, cache.entries.value? key = contents key

theorem holds_empty : Holds empty fun _ => none :=
  fun _ => rfl

/-- The memory cache answers from what it holds. -/
theorem faithful_holds : ByteStore.Faithful Holds where
  read hholds key := congrArg Except.ok (hholds key)
  write := by
    intro cache contents hholds key bytes
    refine ⟨rfl, ?_⟩
    intro other
    have hafter : (ByteStore.write cache key bytes).after.entries =
        KeyedList.put key bytes cache.entries := rfl
    rw [hafter]
    by_cases heq : other = key
    · rw [heq, KeyedList.value?_put_self, update_self]
    · rw [KeyedList.value?_put_of_ne _ _ heq, update_of_ne heq, hholds]
  delete := by
    intro cache contents hholds key
    refine ⟨rfl, ?_⟩
    intro other
    have hafter : (ByteStore.delete cache key).after.entries = cache.entries.remove key := rfl
    rw [hafter]
    by_cases heq : other = key
    · rw [heq, KeyedList.value?_remove_self, update_self]
    · rw [KeyedList.value?_remove_of_ne _ heq, update_of_ne heq, hholds]
  flush hholds := ⟨rfl, hholds⟩

end MemoryCache

end SymbolIndex
