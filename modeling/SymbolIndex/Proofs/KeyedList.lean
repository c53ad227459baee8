import Mathlib.Data.List.Nodup
import SymbolIndex.KeyedList

/-!
# Keys of keyed lists

Putting and taking away keep every key once, and both can be done within the part of a list that
some of the keys make up.
-/

namespace SymbolIndex.KeyedList

variable {β : Type} {entries : KeyedList β}

theorem mem_of_value? {key : String} {value : β}
    (hfound : value? entries key = some value) : (key, value) ∈ entries := by
  obtain ⟨earlier, later, hentries, -⟩ := List.lookup_eq_some_iff.1 hfound
  rw [hentries]
  exact List.mem_append_right _ List.mem_cons_self

/-- A list holds nothing new but the entry that was put. -/
theorem mem_put {key : String} {value : β} {entry : String × β}
    (hmem : entry ∈ put key value entries) :
    entry = (key, value) ∨ entry ∈ entries := by
  induction entries with
  | nil => exact Or.inl (List.mem_singleton.1 hmem)
  | cons first rest ih =>
      rw [put] at hmem
      split at hmem
      · rcases List.mem_cons.1 hmem with rfl | hrest
        · exact Or.inl rfl
        · exact Or.inr (List.mem_cons_of_mem _ hrest)
      · rcases List.mem_cons.1 hmem with rfl | hrest
        · exact Or.inr List.mem_cons_self
        · exact (ih hrest).imp_right (List.mem_cons_of_mem _)

theorem mem_remove_iff {key : String} {entry : String × β} :
    entry ∈ remove entries key ↔ entry ∈ entries ∧ entry.1 ≠ key := by
  rw [remove, List.mem_filter, bne_iff_ne]

theorem value?_eq_none_iff {key : String} :
    value? entries key = none ↔ key ∉ entries.map (·.1) := by
  rw [value?, List.lookup_eq_none_iff]
  constructor
  · rintro hnone hmem
    obtain ⟨entry, hentry, rfl⟩ := List.mem_map.1 hmem
    simpa using hnone entry hentry
  · intro hfree entry hentry
    have hne : key ≠ entry.1 := fun heq => hfree (heq ▸ List.mem_map_of_mem hentry)
    simpa using hne

/-! ### Every key once -/

/-- Where every key stands once, a lookup finds each entry. -/
theorem value?_eq_some_iff (honce : (entries.map (·.1)).Nodup) {key : String} {value : β} :
    value? entries key = some value ↔ (key, value) ∈ entries := by
  refine ⟨mem_of_value?, ?_⟩
  intro hmem
  obtain ⟨found, hfound⟩ : ∃ found, value? entries key = some found :=
    Option.ne_none_iff_exists'.1 fun hnone =>
      value?_eq_none_iff.1 hnone (List.mem_map_of_mem hmem)
  have hsame := List.inj_on_of_nodup_map honce (mem_of_value? hfound) hmem rfl
  cases hsame
  exact hfound

theorem put_put (key : String) (value other : β) (entries : KeyedList β) :
    put key other (put key value entries) = put key other entries := by
  induction entries with
  | nil => simp [put]
  | cons entry rest ih =>
      by_cases heq : entry.1 = key
      · simp [put, heq]
      · simp [put, heq, ih]

/-- A new key is put last, and one that is there keeps its place. -/
theorem map_fst_put (key : String) (value : β) (entries : KeyedList β) :
    (put key value entries).map (·.1) =
      if key ∈ entries.map (·.1) then entries.map (·.1) else entries.map (·.1) ++ [key] := by
  induction entries with
  | nil => simp [put]
  | cons entry rest ih =>
    by_cases heq : entry.1 = key
    · simp [put, heq]
    · have hne : key ≠ entry.1 := Ne.symm heq
      by_cases hmem : key ∈ rest.map (·.1)
      · rw [if_pos hmem] at ih
        rw [put, if_neg heq, List.map_cons, ih, List.map_cons,
          if_pos (List.mem_cons_of_mem _ hmem)]
      · rw [if_neg hmem] at ih
        rw [put, if_neg heq, List.map_cons, ih, List.map_cons,
          if_neg (List.not_mem_cons_of_ne_of_not_mem hne hmem), List.cons_append]

theorem nodup_put (honce : (entries.map (·.1)).Nodup) (key : String) (value : β) :
    ((put key value entries).map (·.1)).Nodup := by
  rw [map_fst_put]
  split
  · exact honce
  · rename_i hfree
    rw [List.nodup_append]
    refine ⟨honce, List.nodup_singleton key, ?_⟩
    intro name hname other hother heq
    exact hfree (List.mem_singleton.1 hother ▸ heq ▸ hname)

theorem nodup_remove (honce : (entries.map (·.1)).Nodup) (key : String) :
    ((remove entries key).map (·.1)).Nodup :=
  (List.filter_sublist.map _).nodup honce

/-! ### Other values under the same keys -/

theorem value?_map {γ : Type} (f : β → γ) (entries : KeyedList β) (key : String) :
    value? (entries.map fun entry => (entry.1, f entry.2)) key = (value? entries key).map f := by
  induction entries with
  | nil => rfl
  | cons entry rest ih =>
    rw [List.map_cons, value?_cons, value?_cons, ih]
    split <;> rfl

theorem remove_map {γ : Type} (f : β → γ) (entries : KeyedList β) (key : String) :
    remove (entries.map fun entry => (entry.1, f entry.2)) key =
      (remove entries key).map fun entry => (entry.1, f entry.2) := by
  rw [remove, List.filter_map]
  rfl

/-! ### Parts of a list -/

section

variable (p : String → Bool) (entries : KeyedList β)

/-- Putting and choosing by keys can be done in either order. -/
theorem filter_put (key : String) (value : β) :
    (put key value entries).filter (fun entry => p entry.1) =
      if p key then put key value (entries.filter fun entry => p entry.1)
      else entries.filter fun entry => p entry.1 := by
  induction entries with
  | nil => cases hkey : p key <;> simp [put, hkey]
  | cons entry rest ih =>
    by_cases heq : entry.1 = key
    · cases hkey : p key <;> simp [put, heq, hkey]
    · rw [put, if_neg heq, List.filter_cons, ih, List.filter_cons]
      cases hkey : p key <;> cases hentry : p entry.1 <;> simp [put, heq]

/-- Removing and choosing by keys can be done in either order. -/
theorem filter_remove (key : String) :
    (remove entries key).filter (fun entry => p entry.1) =
      if p key then remove (entries.filter fun entry => p entry.1) key
      else entries.filter fun entry => p entry.1 := by
  rw [remove, remove, List.filter_filter, List.filter_filter]
  split
  · simp only [Bool.and_comm]
  · rename_i hkey
    apply List.filter_congr
    intro entry hmem
    by_cases heq : entry.1 = key
    · simp [heq, hkey]
    · simp [heq]

theorem value?_filter {key : String} (hkey : p key = true) :
    value? (entries.filter fun entry => p entry.1) key = value? entries key := by
  induction entries with
  | nil => rfl
  | cons entry rest ih =>
    by_cases heq : entry.1 = key
    · simp [heq, hkey, value?_cons]
    · cases hentry : p entry.1
      · simp [hentry, ih, value?_cons, heq]
      · simp [hentry, ih, value?_cons, heq]

end

/-! ### Parts that depend on the values -/

/-- Where every key stands once, a lookup among some entries finds what it found among all, if
that is one of them. -/
theorem value?_filter_of_nodup (honce : (entries.map (·.1)).Nodup) (p : String × β → Bool)
    (key : String) :
    value? (entries.filter p) key = (value? entries key).filter fun value => p (key, value) := by
  have honceKept : ((entries.filter p).map (·.1)).Nodup :=
    (List.filter_sublist.map _).nodup honce
  ext value
  rw [value?_eq_some_iff honceKept, List.mem_filter, Option.filter_eq_some_iff,
    value?_eq_some_iff honce]

theorem filter_put_of_kept {p : String × β → Bool} {key : String}
    (hkept : ∀ value, p (key, value) = true) (value : β) (entries : KeyedList β) :
    (put key value entries).filter p = put key value (entries.filter p) := by
  induction entries with
  | nil => simp [put, hkept]
  | cons entry rest ih =>
    by_cases heq : entry.1 = key
    · subst heq
      simp [put, hkept]
    · cases hentry : p entry <;> simp [put, heq, hentry, ih]

/-- Where the entries of a key are left out before and after, putting one makes no difference. -/
theorem filter_put_of_dropped {p : String × β → Bool} {key : String} {value : β}
    (hnew : p (key, value) = false) (hold : ∀ old, (key, old) ∈ entries → p (key, old) = false) :
    (put key value entries).filter p = entries.filter p := by
  induction entries with
  | nil => simp [put, hnew]
  | cons entry rest ih =>
    by_cases heq : entry.1 = key
    · subst heq
      simp [put, hnew, hold entry.2 List.mem_cons_self]
    · rw [put, if_neg heq, List.filter_cons, List.filter_cons,
        ih fun old hmem => hold old (List.mem_cons_of_mem _ hmem)]

end SymbolIndex.KeyedList
