import SymbolIndex.Cache.Directory
import SymbolIndex.Proofs.KeyedList

/-!
# Operations on directories

While the device refuses nothing, an operation on a name fails only for what the directory holds
under that name, and what it leaves behind is known name by name. Whatever it refuses, only a write
that fails can leave anything behind.
-/

namespace SymbolIndex.Directory

/-- Nothing is refused, and no name stands twice. -/
structure Works (directory : Directory) : Prop where
  refusals : directory.refusals = {}
  namesOnce : directory.names.Nodup

variable {directory : Directory}

theorem entry?_eq_none_iff {name : String} :
    directory.entry? name = none ↔ name ∉ directory.names :=
  KeyedList.value?_eq_none_iff

/-- Putting an entry under a name leaves all other names as they are. -/
theorem entry?_put (directory : Directory) (name other : String) (entry : DirectoryEntry) :
    Directory.entry? (directory.put name entry) other =
      if other = name then some entry else directory.entry? other := by
  by_cases heq : other = name
  · rw [if_pos heq, heq]
    exact KeyedList.value?_put_self _ _ _
  · rw [if_neg heq]
    exact KeyedList.value?_put_of_ne _ _ heq

/-- Taking a name away leaves all other names as they are. -/
theorem entry?_takeAway (directory : Directory) (name other : String) :
    Directory.entry? (directory.takeAway name) other =
      if other = name then none else directory.entry? other := by
  by_cases heq : other = name
  · rw [if_pos heq, heq]
    exact KeyedList.value?_remove_self _ _
  · rw [if_neg heq]
    exact KeyedList.value?_remove_of_ne _ heq

theorem Works.put (hworks : directory.Works) (name : String) (entry : DirectoryEntry) :
    (directory.put name entry).Works :=
  ⟨hworks.refusals, KeyedList.nodup_put hworks.namesOnce name entry⟩

theorem Works.takeAway (hworks : directory.Works) (name : String) :
    (directory.takeAway name).Works :=
  ⟨hworks.refusals, KeyedList.nodup_remove hworks.namesOnce name⟩

/-! ### Operations -/

theorem file?_eq {name : String} {bytes : List UInt8}
    (hfile : directory.entry? name = some (.file bytes)) : directory.file? name = .ok bytes := by
  rw [file?, hfile]

/-- A write that begins leaves a file, whole or not. -/
theorem write_eq {name : String} (hopens : directory.refusals.openings = false)
    (hplace : directory.entry? name ≠ some .folder) (bytes : List UInt8) :
    directory.write name bytes =
      match directory.refusals.writes with
      | some left => ⟨directory.put name (.file left), some .refused⟩
      | none => ⟨directory.put name (.file bytes), none⟩ := by
  rw [write, hopens, if_neg Bool.false_ne_true]
  split
  · rename_i hfolder
    exact absurd hfolder hplace
  · rename_i hleft _
    rw [hleft]
  · rename_i hnone _
    rw [hnone]

/-- A folder cannot be written over. -/
theorem write_folder {name : String} (hopens : directory.refusals.openings = false)
    (hfolder : directory.entry? name = some .folder) (bytes : List UInt8) :
    directory.write name bytes = ⟨directory, some .isFolder⟩ := by
  rw [write, hopens, if_neg Bool.false_ne_true, hfolder]

theorem write_unopened (hopens : directory.refusals.openings = true) (name : String)
    (bytes : List UInt8) : directory.write name bytes = ⟨directory, some .refused⟩ := by
  rw [write, if_pos hopens]

/-- A file that was written without a fault reads as what was written. -/
theorem file?_write {name : String} {bytes : List UInt8}
    (hdone : (directory.write name bytes).fault? = none) :
    (directory.write name bytes).after.file? name = .ok bytes := by
  have hput : (directory.put name (.file bytes)).file? name = .ok bytes :=
    file?_eq (by rw [entry?_put, if_pos rfl])
  cases hopens : directory.refusals.openings with
  | true =>
    rw [write_unopened hopens] at hdone
    cases hdone
  | false =>
    by_cases hfolder : directory.entry? name = some .folder
    · rw [write_folder hopens hfolder] at hdone
      cases hdone
    · rw [write_eq hopens hfolder] at hdone ⊢
      split at hdone
      · cases hdone
      · exact hput

theorem Works.read (hworks : directory.Works) (name : String) :
    directory.read name = directory.file? name := by
  rw [Directory.read, hworks.refusals]
  rfl

/-- Where nothing is refused, a name that is no folder can be written. -/
theorem Works.write (hworks : directory.Works) {name : String}
    (hplace : directory.entry? name ≠ some .folder) (bytes : List UInt8) :
    directory.write name bytes = ⟨directory.put name (.file bytes), none⟩ := by
  have hopens : directory.refusals.openings = false := by rw [hworks.refusals]
  rw [write_eq hopens hplace, hworks.refusals]

/-- Where nothing is refused, a file takes the place of another. -/
theorem Works.rename (hworks : directory.Works) {source target : String} {bytes : List UInt8}
    (hsource : directory.entry? source = some (.file bytes))
    (htarget : directory.entry? target ≠ some .folder) :
    directory.rename source target =
      ⟨(directory.takeAway source).put target (.file bytes), none⟩ := by
  rw [Directory.rename, hworks.refusals, file?_eq hsource]
  simp only [Bool.false_eq_true, if_false]

theorem Works.remove_file (hworks : directory.Works) {name : String} {bytes : List UInt8}
    (hfile : directory.entry? name = some (.file bytes)) :
    directory.remove name = ⟨directory.takeAway name, none⟩ := by
  rw [Directory.remove, hworks.refusals, file?_eq hfile]
  rfl

theorem Works.remove_missing (hworks : directory.Works) {name : String}
    (hnone : directory.entry? name = none) :
    directory.remove name = ⟨directory, some .notFound⟩ := by
  rw [Directory.remove, hworks.refusals, file?, hnone]
  rfl

/-! ### Operations that fail -/

/-- A renaming that fails changes nothing. -/
theorem rename_failed {source target : String}
    (hfault : (directory.rename source target).fault? ≠ none) :
    (directory.rename source target).after = directory := by
  unfold rename at hfault ⊢
  split at hfault
  · rename_i hrefused
    rw [if_pos hrefused]
  · rename_i hrefused
    rw [if_neg hrefused]
    split at hfault
    · rfl
    · rfl
    · exact absurd rfl hfault

theorem remove_done {name : String} (hdone : (directory.remove name).fault? = none) :
    (directory.remove name).after = directory.takeAway name := by
  unfold remove at hdone ⊢
  split at hdone
  · cases hdone
  · rename_i hallowed
    rw [if_neg hallowed]
    split at hdone
    · cases hdone
    · rfl

theorem remove_failed {name : String} (hfault : (directory.remove name).fault? ≠ none) :
    (directory.remove name).after = directory := by
  unfold remove at hfault ⊢
  split at hfault
  · rename_i hrefused
    rw [if_pos hrefused]
  · rename_i hrefused
    rw [if_neg hrefused]
    split at hfault
    · rfl
    · exact absurd rfl hfault

end SymbolIndex.Directory
