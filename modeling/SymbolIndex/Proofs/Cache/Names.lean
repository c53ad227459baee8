import Mathlib.Algebra.Group.Nat.Defs
import SymbolIndex.Cache.Files

/-!
# Names of bucket files

Different digests have buckets and drafts of different names, and all of these names are among those
that clearing looks for.
-/

namespace SymbolIndex

namespace Text

theorem hexDigit_injOn :
    ∀ left < 16, ∀ right < 16, hexDigit left = hexDigit right → left = right := by
  decide

theorem length_hexPadded (width value : Nat) : (hexPadded width value).length = width := by
  induction width generalizing value with
  | zero => rfl
  | succ width ih => rw [hexPadded, List.length_append, ih, List.length_singleton]

/-- Digits tell numbers apart that have no more digits. -/
theorem hexPadded_injOn (width : Nat) {left right : Nat} (hleft : left < 16 ^ width)
    (hright : right < 16 ^ width) (heq : hexPadded width left = hexPadded width right) :
    left = right := by
  induction width generalizing left right with
  | zero => omega
  | succ width ih =>
    rw [hexPadded, hexPadded] at heq
    obtain ⟨hhigh, hlow⟩ := List.append_inj' heq rfl
    have hdigits := ih (by omega) (by omega) hhigh
    have hdigit := hexDigit_injOn _ (Nat.mod_lt left (by decide)) _ (Nat.mod_lt right (by decide))
      (List.singleton_inj.1 hlow)
    omega

theorem hexWord_injective {left right : UInt64} (heq : hexWord left = hexWord right) :
    left = right := by
  have hbound : ∀ word : UInt64, word.toNat < 16 ^ 16 := fun word => word.toNat_lt_size
  exact UInt64.toNat_inj.1
    (hexPadded_injOn 16 (hbound left) (hbound right) (String.ofList_inj.1 heq))

theorem toList_hexWord_ne_nil (word : UInt64) : (hexWord word).toList ≠ [] := by
  have hlength := length_hexPadded 16 word.toNat
  rw [hexWord, String.toList_ofList]
  intro hnil
  rw [hnil] at hlength
  cases hlength

end Text

namespace FileCache

open SymbolIndex.Text

theorem bucketName_injective {left right : UInt64} (heq : bucketName left = bucketName right) :
    left = right :=
  hexWord_injective ((String.append_left_inj _).1 heq)

/-- The extension is what stands behind the last dot, if something stands before it. -/
theorem extension?_of_toList {name : String} {stem letters : List Char}
    (hname : name.toList = stem ++ '.' :: letters) (hstem : stem ≠ []) (hletters : '.' ∉ letters) :
    extension? name = some (String.ofList letters) := by
  have hfree : ∀ letter ∈ letters.reverse, decide (letter ≠ '.') = true := by
    intro letter hmem
    exact decide_eq_true fun heq => hletters (heq ▸ List.mem_reverse.1 hmem)
  have hreverse : name.toList.reverse = letters.reverse ++ '.' :: stem.reverse := by
    simp [hname]
  have hdrop : name.toList.reverse.dropWhile (fun letter => decide (letter ≠ '.')) =
      '.' :: stem.reverse := by
    rw [hreverse, List.dropWhile_append_of_pos hfree]
    rfl
  have htake : name.toList.reverse.takeWhile (fun letter => decide (letter ≠ '.')) =
      letters.reverse := by
    rw [hreverse, List.takeWhile_append_of_pos hfree]
    simp
  obtain ⟨first, rest, hfirst⟩ := List.exists_cons_of_ne_nil (mt List.reverse_eq_nil_iff.1 hstem)
  rw [extension?]
  simp only [hdrop, htake, hfirst, List.reverse_reverse]

theorem extension?_bucketName (hash : UInt64) : extension? (bucketName hash) = some "bucket" :=
  extension?_of_toList (by simp [bucketName]) (toList_hexWord_ne_nil hash) (by decide)

theorem extension?_draftName (hash : UInt64) : extension? (draftName hash) = some "tmp" :=
  extension?_of_toList (by simp [draftName]) (toList_hexWord_ne_nil hash) (by decide)

@[simp]
theorem isOwn_bucketName (hash : UInt64) : isOwn (bucketName hash) = true := by
  simp [isOwn, extension?_bucketName]

@[simp]
theorem isOwn_draftName (hash : UInt64) : isOwn (draftName hash) = true := by
  simp [isOwn, extension?_draftName]

theorem draftName_ne_bucketName (hash other : UInt64) : draftName hash ≠ bucketName other := by
  intro heq
  have hextension := congrArg extension? heq
  rw [extension?_draftName, extension?_bucketName] at hextension
  exact absurd hextension (by decide)

end FileCache

end SymbolIndex
