import SymbolIndex.Proofs.Cache.Files

/-!
# Drafts in a directory

A bucket is written as a draft beside it, and only a finished draft takes its place. Two directories
that hold the same besides drafts go on alike: nothing reads a draft before it is written anew. And
saving a bucket that fails, wherever it breaks off, leaves a draft at most.
-/

namespace SymbolIndex

namespace FileCache

/-! ## Drafts -/

/-- A draft, finished or not. A folder is none. -/
def isDraft (entry : String × DirectoryEntry) : Bool :=
  extension? entry.1 == some "tmp" && entry.2 != .folder

/-- What a directory holds besides drafts. -/
def settled (directory : Directory) : KeyedList DirectoryEntry :=
  directory.entries.filter fun entry => !isDraft entry

/-- Two directories that hold the same besides drafts. -/
structure SameButDrafts (left right : Directory) : Prop where
  leftOnce : left.names.Nodup
  rightOnce : right.names.Nodup
  settled : settled left = settled right
  refusals : left.refusals = right.refusals

theorem isDraft_file {name : String} (hname : extension? name = some "tmp") (bytes : List UInt8) :
    isDraft (name, .file bytes) = true := by
  simp [isDraft, hname]

theorem isDraft_folder (name : String) : isDraft (name, .folder) = false := by
  simp [isDraft]

theorem isDraft_of_extension?_ne {name : String} (hname : extension? name ≠ some "tmp")
    (entry : DirectoryEntry) : isDraft (name, entry) = false := by
  simp [isDraft, hname]

theorem extension?_bucketName_ne (hash : UInt64) : extension? (bucketName hash) ≠ some "tmp" := by
  rw [extension?_bucketName]
  decide

namespace SameButDrafts

variable {left middle right : Directory}

theorem refl {directory : Directory} (honce : directory.names.Nodup) :
    SameButDrafts directory directory :=
  ⟨honce, honce, rfl, rfl⟩

theorem symm (hsame : SameButDrafts left right) : SameButDrafts right left :=
  ⟨hsame.rightOnce, hsame.leftOnce, hsame.settled.symm, hsame.refusals.symm⟩

theorem trans (hsame : SameButDrafts left middle) (hnext : SameButDrafts middle right) :
    SameButDrafts left right :=
  ⟨hsame.leftOnce, hnext.rightOnce, hsame.settled.trans hnext.settled,
    hsame.refusals.trans hnext.refusals⟩

variable (hsame : SameButDrafts left right)

include hsame

theorem filter_entry? (name : String) :
    (left.entry? name).filter (fun entry => !isDraft (name, entry)) =
      (right.entry? name).filter fun entry => !isDraft (name, entry) := by
  have hsettled := congrArg (KeyedList.value? · name) hsame.settled
  simp only [FileCache.settled] at hsettled
  rwa [KeyedList.value?_filter_of_nodup hsame.leftOnce,
    KeyedList.value?_filter_of_nodup hsame.rightOnce] at hsettled

theorem entry?_eq {name : String} (hname : extension? name ≠ some "tmp") :
    left.entry? name = right.entry? name := by
  have hkeeps : ∀ entry? : Option DirectoryEntry,
      entry?.filter (fun entry => !isDraft (name, entry)) = entry? := by
    intro entry?
    cases entry? with
    | none => rfl
    | some entry => rw [Option.filter_some, isDraft_of_extension?_ne hname, if_pos Bool.not_false]
  have hfilter := hsame.filter_entry? name
  rwa [hkeeps, hkeeps] at hfilter

theorem entry?_of_settled {name : String} {entry : DirectoryEntry}
    (hentry : left.entry? name = some entry) (hsettled : isDraft (name, entry) = false) :
    right.entry? name = some entry := by
  have hfilter := hsame.filter_entry? name
  rw [hentry, Option.filter_some, hsettled, Bool.not_false, if_pos rfl] at hfilter
  exact (Option.filter_eq_some_iff.1 hfilter.symm).1

theorem entry?_eq_folder {name : String} (hfolder : left.entry? name = some .folder) :
    right.entry? name = some .folder :=
  hsame.entry?_of_settled hfolder (isDraft_folder name)

/-- Writing a draft makes no difference. -/
theorem put_draft {name : String} (hname : extension? name = some "tmp")
    (hplace : left.entry? name ≠ some .folder) (bytes : List UInt8) :
    SameButDrafts (left.put name (.file bytes)) right where
  leftOnce := KeyedList.nodup_put hsame.leftOnce name _
  rightOnce := hsame.rightOnce
  refusals := hsame.refusals
  settled := by
    refine (KeyedList.filter_put_of_dropped ?_ ?_).trans hsame.settled
    · rw [isDraft_file hname, Bool.not_true]
    · intro old hmem
      cases old with
      | file bytes => rw [isDraft_file hname, Bool.not_true]
      | folder => exact absurd ((KeyedList.value?_eq_some_iff hsame.leftOnce).2 hmem) hplace

/-- Writing the same into both leaves them the same. -/
theorem put {name : String} (hname : extension? name ≠ some "tmp") (entry : DirectoryEntry) :
    SameButDrafts (left.put name entry) (right.put name entry) where
  leftOnce := KeyedList.nodup_put hsame.leftOnce name entry
  rightOnce := KeyedList.nodup_put hsame.rightOnce name entry
  refusals := hsame.refusals
  settled := by
    have hkept : ∀ entry, (!isDraft (name, entry)) = true := by
      intro entry
      rw [isDraft_of_extension?_ne hname, Bool.not_false]
    have hsettled := hsame.settled
    simp only [FileCache.settled, Directory.put] at hsettled ⊢
    rw [KeyedList.filter_put_of_kept hkept, KeyedList.filter_put_of_kept hkept, hsettled]

theorem takeAway (name : String) :
    SameButDrafts (left.takeAway name) (right.takeAway name) where
  leftOnce := KeyedList.nodup_remove hsame.leftOnce name
  rightOnce := KeyedList.nodup_remove hsame.rightOnce name
  refusals := hsame.refusals
  settled := by
    have hcommute : ∀ directory : Directory, FileCache.settled (directory.takeAway name) =
        (FileCache.settled directory).remove name := by
      intro directory
      exact List.filter_comm _ _ _
    rw [hcommute, hcommute, hsame.settled]

/-- Taking a draft away makes no difference. -/
theorem takeAway_draft {name : String} {entry : DirectoryEntry}
    (hentry : left.entry? name = some entry) (hdraft : isDraft (name, entry) = true) :
    SameButDrafts (left.takeAway name) right where
  leftOnce := KeyedList.nodup_remove hsame.leftOnce name
  rightOnce := hsame.rightOnce
  refusals := hsame.refusals
  settled := by
    refine Eq.trans ?_ hsame.settled
    rw [FileCache.settled, Directory.takeAway, KeyedList.remove, List.filter_filter]
    apply List.filter_congr
    intro other hmem
    by_cases heq : other.1 = name
    · subst heq
      have hother : left.entry? other.1 = some other.2 :=
        (KeyedList.value?_eq_some_iff hsame.leftOnce).2 hmem
      obtain rfl := Option.some_inj.1 (hother.symm.trans hentry)
      simp [hdraft]
    · simp [heq]

end SameButDrafts

/-! ## Changes of directories that hold the same -/

/-- That there is nothing to take away is no fault. -/
theorem discard_eq (directory : Directory) (hash : UInt64) :
    discard directory hash =
      ⟨(directory.remove (bucketName hash)).after,
        (directory.remove (bucketName hash)).fault?.filter (· ≠ .notFound)⟩ := by
  rw [discard]
  generalize directory.remove (bucketName hash) = attempt
  obtain ⟨after, fault?⟩ := attempt
  cases fault? with
  | none => rfl
  | some fault => cases fault <;> rfl

theorem removeAll_cons (directory : Directory) (name : String) (rest : List String) :
    removeAll directory (name :: rest) =
      (directory.remove name).andThen fun after => removeAll after rest := by
  rw [removeAll, Attempt.andThen]
  generalize directory.remove name = attempt
  obtain ⟨after, fault?⟩ := attempt
  cases fault? <;> rfl

/-- Where removals are refused, nothing is removed. -/
theorem removeAll_refused {directory : Directory} (hrefused : directory.refusals.removals = true)
    (names : List String) : (removeAll directory names).after = directory := by
  cases names with
  | nil => rfl
  | cons name rest =>
    rw [removeAll_cons, Directory.remove, if_pos hrefused]
    rfl

/-- Two changes that meet the same fault and leave the same besides drafts. -/
structure EndSame {ε : Type} (left right : Attempt ε Directory) : Prop where
  fault? : left.fault? = right.fault?
  after : SameButDrafts left.after right.after

namespace EndSame

variable {ε : Type} {left middle right : Attempt ε Directory}

theorem symm (hsame : EndSame left right) : EndSame right left :=
  ⟨hsame.fault?.symm, hsame.after.symm⟩

theorem trans (hsame : EndSame left middle) (hnext : EndSame middle right) :
    EndSame left right :=
  ⟨hsame.fault?.trans hnext.fault?, hsame.after.trans hnext.after⟩

/-- Two changes that end the same can be followed by two that do. -/
theorem andThen (hsame : EndSame left right) {next other : Directory → Attempt ε Directory}
    (hnext : left.fault? = none → EndSame (next left.after) (other right.after)) :
    EndSame (left.andThen next) (right.andThen other) := by
  have hfault := hsame.fault?
  rw [Attempt.andThen, Attempt.andThen, ← hfault]
  cases hleft : left.fault? with
  | none => exact hnext hleft
  | some _ => exact hsame

end EndSame

namespace SameButDrafts

variable {left right : Directory} (hsame : SameButDrafts left right)

include hsame

/-- A write meets the same fault in both. -/
theorem write (name : String) (bytes : List UInt8) :
    EndSame (left.write name bytes) (right.write name bytes) := by
  have hput : left.entry? name ≠ some .folder → ∀ bytes : List UInt8,
      SameButDrafts (left.put name (.file bytes)) (right.put name (.file bytes)) := by
    intro hplace bytes
    by_cases hname : extension? name = some "tmp"
    · have hother : right.entry? name ≠ some .folder := mt hsame.symm.entry?_eq_folder hplace
      exact ((hsame.put_draft hname hplace bytes).symm.put_draft hname hother bytes).symm
    · exact hsame.put hname _
  cases hopens : right.refusals.openings with
  | true =>
    rw [Directory.write_unopened hopens, Directory.write_unopened (hsame.refusals ▸ hopens)]
    exact ⟨rfl, hsame⟩
  | false =>
    have hopensLeft : left.refusals.openings = false := hsame.refusals ▸ hopens
    by_cases hfolder : left.entry? name = some .folder
    · rw [Directory.write_folder hopensLeft hfolder,
        Directory.write_folder hopens (hsame.entry?_eq_folder hfolder)]
      exact ⟨rfl, hsame⟩
    · rw [Directory.write_eq hopensLeft hfolder,
        Directory.write_eq hopens (mt hsame.symm.entry?_eq_folder hfolder), hsame.refusals]
      split
      · exact ⟨rfl, hput hfolder _⟩
      · exact ⟨rfl, hput hfolder _⟩

/-- A renaming meets the same fault in both if its source reads the same. -/
theorem rename {source target : String} (hsource : left.file? source = right.file? source)
    (htarget : extension? target ≠ some "tmp") :
    EndSame (left.rename source target) (right.rename source target) := by
  rw [Directory.rename, Directory.rename, hsource, hsame.refusals, hsame.entry?_eq htarget]
  split
  · exact ⟨rfl, hsame⟩
  · split
    · exact ⟨rfl, hsame⟩
    · exact ⟨rfl, hsame⟩
    · exact ⟨rfl, (hsame.takeAway source).put htarget _⟩

theorem remove {name : String} (hfile : left.file? name = right.file? name) :
    EndSame (left.remove name) (right.remove name) := by
  rw [Directory.remove, Directory.remove, hfile, hsame.refusals]
  split
  · exact ⟨rfl, hsame⟩
  · split
    · exact ⟨rfl, hsame⟩
    · exact ⟨rfl, hsame.takeAway name⟩

theorem file?_eq {name : String} (hname : extension? name ≠ some "tmp") :
    left.file? name = right.file? name := by
  rw [Directory.file?, Directory.file?, hsame.entry?_eq hname]

theorem load_eq (hash : UInt64) : load left hash = load right hash := by
  rw [load, load, Directory.read, Directory.read, hsame.refusals,
    hsame.file?_eq (extension?_bucketName_ne hash)]

theorem discard (hash : UInt64) : EndSame (discard left hash) (discard right hash) := by
  have hremove := hsame.remove (hsame.file?_eq (extension?_bucketName_ne hash))
  rw [discard_eq, discard_eq, hremove.fault?]
  exact ⟨rfl, hremove.after⟩

theorem save (hash : UInt64) (bucket : Bucket) :
    EndSame (save left hash bucket) (save right hash bucket) := by
  rw [FileCache.save, FileCache.save]
  split
  · exact hsame.discard hash
  · have hwrite := hsame.write (draftName hash) (Stored.encode bucket)
    apply hwrite.andThen
    intro hdone
    apply hwrite.after.rename _ (extension?_bucketName_ne hash)
    rw [Directory.file?_write hdone, Directory.file?_write (hwrite.fault?.symm.trans hdone)]

/-- Removing files ends alike when one directory lacks drafts that the other has: these are files,
and are removed on the way. -/
theorem removeAll (hallowed : left.refusals.removals = false)
    {entries : KeyedList DirectoryEntry} (honce : (entries.map (·.1)).Nodup)
    (hheld : ∀ entry ∈ entries, left.entry? entry.1 = some entry.2) :
    EndSame (removeAll left (entries.map (·.1)))
      (removeAll right ((entries.filter fun entry => !isDraft entry).map (·.1))) := by
  induction entries generalizing left right with
  | nil => exact ⟨rfl, hsame⟩
  | cons entry rest ih =>
    obtain ⟨name, found⟩ := entry
    obtain ⟨hfirst, honceRest⟩ := List.nodup_cons.1 honce
    obtain ⟨hfound, hlater⟩ := List.forall_mem_cons.1 hheld
    have hheldAfter : ∀ entry ∈ rest,
        Directory.entry? (left.takeAway name) entry.1 = some entry.2 := by
      intro entry hmem
      have hname : entry.1 ∈ rest.map (·.1) := List.mem_map_of_mem hmem
      have hne : entry.1 ≠ name := ne_of_mem_of_not_mem hname hfirst
      rw [Directory.entry?_takeAway, if_neg hne]
      exact hlater entry hmem
    cases hdraft : isDraft (name, found) with
    | true =>
      cases found with
      | folder =>
        rw [isDraft_folder] at hdraft
        cases hdraft
      | file bytes =>
        have hremove : left.remove name = ⟨left.takeAway name, none⟩ := by
          rw [Directory.remove, if_neg (ne_true_of_eq_false hallowed), Directory.file?_eq hfound]
        rw [List.map_cons, removeAll_cons, hremove, List.filter_cons_of_neg (by simp [hdraft])]
        exact ih (hsame.takeAway_draft hfound hdraft) hallowed honceRest hheldAfter
    | false =>
      have hfile : left.file? name = right.file? name := by
        rw [Directory.file?, Directory.file?, hfound, hsame.entry?_of_settled hfound hdraft]
      have hremove := hsame.remove hfile
      rw [List.map_cons, removeAll_cons, List.filter_cons_of_pos (by simp [hdraft]), List.map_cons,
        removeAll_cons]
      apply hremove.andThen
      intro hdone
      have hafter := Directory.remove_done hdone
      apply ih hremove.after _ honceRest
      · rw [hafter]
        exact hheldAfter
      · rw [hafter]
        exact hallowed

end SameButDrafts

/-! ## Directories without drafts -/

def swept (directory : Directory) : Directory :=
  { directory with entries := settled directory }

theorem sameButDrafts_swept {directory : Directory} (honce : directory.names.Nodup) :
    SameButDrafts directory (swept directory) where
  leftOnce := honce
  rightOnce := (List.filter_sublist.map _).nodup honce
  refusals := rfl
  settled := by
    rw [settled, settled, swept, settled, List.filter_filter]
    simp only [Bool.and_self]

theorem SameButDrafts.swept_eq {left right : Directory} (hsame : SameButDrafts left right) :
    swept left = swept right := by
  rw [swept, swept, hsame.settled, hsame.refusals]

/-- The names among some entries' that clearing looks for. -/
theorem filter_isOwn_map (entries : KeyedList DirectoryEntry) :
    (entries.map (·.1)).filter isOwn = (entries.filter fun entry => isOwn entry.1).map (·.1) :=
  List.filter_map

/-- Clearing a directory ends as it would without its drafts. -/
theorem removeAll_swept {directory : Directory} (honce : directory.names.Nodup)
    (hallowed : directory.refusals.removals = false) :
    EndSame (removeAll directory (directory.names.filter isOwn))
      (removeAll (swept directory) ((swept directory).names.filter isOwn)) := by
  have hown : ∀ entry ∈ directory.entries.filter fun entry => isOwn entry.1,
      directory.entry? entry.1 = some entry.2 := by
    intro entry hmem
    exact (KeyedList.value?_eq_some_iff honce).2 (List.mem_filter.1 hmem).1
  have hsettled : (swept directory).names.filter isOwn =
      ((directory.entries.filter fun entry => isOwn entry.1).filter
        fun entry => !isDraft entry).map (·.1) := by
    rw [Directory.names, filter_isOwn_map, swept, settled, List.filter_comm]
  rw [hsettled, Directory.names, filter_isOwn_map]
  exact (sameButDrafts_swept honce).removeAll hallowed
    ((List.filter_sublist.map _).nodup honce) hown

/-! ## Failed changes of a directory -/

section

variable {directory : Directory} (honce : directory.names.Nodup)

include honce

/-- A draft is all that writing one changes, whatever comes of it. -/
theorem write_draft (hash : UInt64) (bytes : List UInt8) :
    SameButDrafts (directory.write (draftName hash) bytes).after directory := by
  have hsame := SameButDrafts.refl honce
  cases hopens : directory.refusals.openings with
  | true =>
    rw [Directory.write_unopened hopens]
    exact hsame
  | false =>
    by_cases hfolder : directory.entry? (draftName hash) = some .folder
    · rw [Directory.write_folder hopens hfolder]
      exact hsame
    · rw [Directory.write_eq hopens hfolder]
      split
      · exact hsame.put_draft (extension?_draftName hash) hfolder _
      · exact hsame.put_draft (extension?_draftName hash) hfolder _

/-- A bucket that could not be kept leaves at most a draft. -/
theorem save_failed {hash : UInt64} {bucket : Bucket}
    (hfault : (save directory hash bucket).fault? ≠ none) :
    SameButDrafts (save directory hash bucket).after directory := by
  rw [save] at hfault ⊢
  split at hfault
  · rename_i hempty
    rw [if_pos hempty]
    rw [discard_eq] at hfault ⊢
    have hremove : (directory.remove (bucketName hash)).fault? ≠ none := by
      intro hnone
      rw [hnone] at hfault
      exact hfault rfl
    rw [Directory.remove_failed hremove]
    exact SameButDrafts.refl honce
  · rename_i hentries
    have hdraft := write_draft honce hash (Stored.encode bucket)
    rw [if_neg hentries]
    rw [Attempt.andThen] at hfault ⊢
    split at hfault
    · rename_i hdone
      rw [Directory.rename_failed hfault]
      exact hdraft
    · exact hdraft

end

end FileCache

end SymbolIndex
