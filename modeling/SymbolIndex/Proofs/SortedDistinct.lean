import SymbolIndex.SavedState

/-!
# Sorted names

Sorting names and dropping repetitions gives the strictly increasing list of
the names, of which there is only one.
-/

namespace SymbolIndex

section

variable {α : Type}

/-- Dropping what repeats an earlier item keeps the order and leaves no repetition. -/
theorem eraseDupsBy_spec (repeats : α → α → Bool) (items : List α) :
    (items.eraseDupsBy repeats).Sublist items ∧
      (items.eraseDupsBy repeats).Pairwise fun earlier later => repeats later earlier = false := by
  induction hlength : items.length using Nat.strongRecOn generalizing items with
  | ind length ih =>
      cases items with
      | nil => exact ⟨List.Sublist.refl [], List.Pairwise.nil⟩
      | cons item rest =>
          let others := rest.filter fun other => decide (repeats other item = false)
          have hshorter : others.length < length := by
            have hle : others.length ≤ rest.length := List.length_filter_le _ _
            rw [List.length_cons] at hlength
            omega
          obtain ⟨hsublist, hdistinct⟩ := ih others.length hshorter others rfl
          have hnew : ∀ later ∈ others.eraseDupsBy repeats, repeats later item = false := by
            intro later hlater
            simpa using (List.mem_filter.1 (hsublist.subset hlater)).2
          rw [List.eraseDupsBy_cons]
          exact ⟨(hsublist.trans List.filter_sublist).cons_cons item,
            List.pairwise_cons.2 ⟨hnew, hdistinct⟩⟩

/-- Each item is left or repeats one that is. -/
theorem exists_mem_eraseDupsBy {repeats : α → α → Bool} (hrefl : ∀ item, repeats item item = true)
    {items : List α} {item : α} (hmem : item ∈ items) :
    ∃ kept ∈ items.eraseDupsBy repeats, repeats item kept = true := by
  induction hlength : items.length using Nat.strongRecOn generalizing items with
  | ind length ih =>
      cases items with
      | nil => exact absurd hmem List.not_mem_nil
      | cons first rest =>
          rw [List.eraseDupsBy_cons]
          by_cases hrepeats : repeats item first = true
          · exact ⟨first, List.mem_cons_self, hrepeats⟩
          · have hrest : item ∈ rest := by
              refine (List.mem_cons.1 hmem).resolve_left ?_
              rintro rfl
              exact hrepeats (hrefl item)
            have hother : item ∈ rest.filter fun other => decide (repeats other first = false) :=
              List.mem_filter.2 ⟨hrest, by simpa using hrepeats⟩
            have hshorter : (rest.filter fun other =>
                decide (repeats other first = false)).length < length := by
              have hle : (rest.filter fun other =>
                  decide (repeats other first = false)).length ≤ rest.length :=
                List.length_filter_le _ _
              rw [List.length_cons] at hlength
              omega
            obtain ⟨kept, hkept, hsame⟩ := ih _ hshorter hother rfl
            exact ⟨kept, List.mem_cons_of_mem _ hkept, hsame⟩

theorem eraseDups_spec [BEq α] [LawfulBEq α] (items : List α) :
    items.eraseDups.Sublist items ∧ items.eraseDups.Nodup := by
  obtain ⟨hsublist, hdistinct⟩ := eraseDupsBy_spec (· == ·) items
  refine ⟨hsublist, hdistinct.imp ?_⟩
  intro earlier later hne
  exact fun heq => by simp [heq] at hne

theorem eraseDups_of_nodup [BEq α] [LawfulBEq α] {items : List α} (h : items.Nodup) :
    items.eraseDups = items := by
  induction items with
  | nil => rfl
  | cons item items ih =>
    obtain ⟨hfresh, hnodup⟩ := List.nodup_cons.1 h
    have hfilter : (items.filter fun other => !other == item) = items := by
      rw [List.filter_eq_self]
      rintro other hother
      have hne : other ≠ item := ne_of_mem_of_not_mem hother hfresh
      simpa using hne
    rw [List.eraseDups_cons, hfilter, ih hnodup]

end

theorem mem_sortedDistinct {text : String} {texts : List String} :
    text ∈ sortedDistinct texts ↔ text ∈ texts := by
  rw [sortedDistinct, List.mem_eraseDups, List.mem_mergeSort]

theorem sortedDistinct_increasing (texts : List String) :
    (sortedDistinct texts).Pairwise (· < ·) := by
  have hsorted : (texts.mergeSort fun left right => decide (left ≤ right)).Pairwise
      fun left right => decide (left ≤ right) = true :=
    List.pairwise_mergeSort
      (fun first second third h h' => by
        simp only [decide_eq_true_eq] at h h' ⊢
        exact Std.le_trans h h')
      (fun left right => by
        simpa using Std.le_total (a := left) (b := right))
      texts
  obtain ⟨hsublist, hnodup⟩ :=
    eraseDups_spec (texts.mergeSort fun left right => decide (left ≤ right))
  apply ((hsorted.sublist hsublist).and hnodup).imp
  rintro left right ⟨hle, hne⟩
  exact Std.lt_of_le_of_ne (by simpa using hle) hne

theorem sortedDistinct_nodup (texts : List String) : (sortedDistinct texts).Nodup :=
  (eraseDups_spec _).2

end SymbolIndex
