import Mathlib.Tactic.Tauto
import SymbolIndex.Symbol.Declared

/-!
# Declarations of a table

Two declarations are the same when they have one origin.  The origins given to
the symbols of one table are pairwise different, since each is the path to its
symbol, so that collecting declarations without repetition neither loses nor
doubles any of them.
-/

namespace SymbolIndex

namespace Symbol

/-! ## Symbols below a symbol -/

theorem mem_preorderAll_iff {part : Symbol} {symbols : List Symbol} :
    part ∈ preorderAll symbols ↔ ∃ symbol ∈ symbols, part ∈ symbol.preorder := by
  induction symbols with
  | nil => simp [preorderAll]
  | cons symbol rest ih => simp [preorderAll, ih]

theorem mem_preorder_iff {part symbol : Symbol} :
    part ∈ symbol.preorder ↔ part = symbol ∨ part ∈ preorderAll symbol.children := by
  obtain ⟨_, _, _, _, _, _, _, children, _, _⟩ := symbol
  rw [preorder, List.mem_cons]

theorem preorder_eq (symbol : Symbol) :
    symbol.preorder = symbol :: preorderAll symbol.children := by
  obtain ⟨_, _, _, _, _, _, _, children, _, _⟩ := symbol
  rw [preorder]

theorem preorderAll_append (left right : List Symbol) :
    preorderAll (left ++ right) = preorderAll left ++ preorderAll right := by
  induction left with
  | nil => simp [preorderAll]
  | cons symbol rest ih => simp [preorderAll, ih]

/-- A property of a symbol and of all below it. -/
theorem forall_mem_preorder_iff {P : Symbol → Prop} {symbol : Symbol} :
    (∀ part ∈ symbol.preorder, P part) ↔
      P symbol ∧ ∀ child ∈ symbol.children, ∀ part ∈ child.preorder, P part := by
  constructor
  · intro hall
    refine ⟨hall symbol (mem_preorder_iff.2 (Or.inl rfl)), ?_⟩
    intro child hchild part hpart
    exact hall part (mem_preorder_iff.2 (Or.inr (mem_preorderAll_iff.2 ⟨child, hchild, hpart⟩)))
  · rintro ⟨hself, hchildren⟩ part hpart
    rcases mem_preorder_iff.1 hpart with rfl | hbelow
    · exact hself
    · obtain ⟨child, hchild, hpart⟩ := mem_preorderAll_iff.1 hbelow
      exact hchildren child hchild part hpart

theorem forall_mem_preorder_of_leaf {P : Symbol → Prop} {symbol : Symbol}
    (hnone : symbol.children = []) (hself : P symbol) : ∀ part ∈ symbol.preorder, P part := by
  rw [forall_mem_preorder_iff, hnone]
  exact ⟨hself, fun _ hmem => absurd hmem List.not_mem_nil⟩

mutual

theorem children_subset_preorder :
    (symbol : Symbol) → ∀ part ∈ symbol.preorder, part.children ⊆ symbol.preorder
  | ⟨_, _, _, _, _, _, _, children, _, _⟩ => by
      intro part hpart child hchild
      rw [preorder] at hpart ⊢
      refine List.mem_cons_of_mem _ ?_
      rcases List.mem_cons.1 hpart with rfl | hbelow
      · exact mem_preorderAll_iff.2 ⟨child, hchild, mem_preorder_iff.2 (Or.inl rfl)⟩
      · exact children_subset_preorderAll children part hbelow hchild

theorem children_subset_preorderAll :
    (symbols : List Symbol) → ∀ part ∈ preorderAll symbols, part.children ⊆ preorderAll symbols
  | [] => by simp [preorderAll]
  | symbol :: rest => by
      intro part hpart child hchild
      rw [preorderAll, List.mem_append] at hpart ⊢
      exact hpart.imp (fun hfirst => children_subset_preorder symbol part hfirst hchild)
        fun hrest => children_subset_preorderAll rest part hrest hchild

end

mutual

theorem enclosing_subset_preorder (position : Position) :
    (symbol : Symbol) → symbol.enclosing position ⊆ symbol.preorder
  | ⟨_, _, _, _, _, _, _, children, _, _⟩ => by
      rw [enclosing, preorder]
      split
      · exact List.cons_subset_cons _ (enclosingAll_subset_preorderAll position children)
      · exact List.nil_subset _

theorem enclosingAll_subset_preorderAll (position : Position) :
    (symbols : List Symbol) → enclosingAll position symbols ⊆ preorderAll symbols
  | [] => List.Subset.refl _
  | symbol :: rest => by
      rw [enclosingAll, preorderAll]
      intro part hpart
      rw [List.mem_append] at hpart ⊢
      exact hpart.imp (fun hfirst => enclosing_subset_preorder position symbol hfirst)
        fun hrest => enclosingAll_subset_preorderAll position rest hrest

end

end Symbol

namespace Declared

/-! ## Origins of a table -/

mutual

/-- With their places the symbols come in the same order. -/
theorem map_symbol_preorder (table : Nat) (place : List Nat) :
    (symbol : Symbol) →
      (preorder table place symbol).map (·.symbol) = symbol.preorder
  | ⟨_, _, _, _, _, _, _, children, _, _⟩ => by
      have hbelow := map_symbol_preorderAll table place 0 children
      simp [preorder, Symbol.preorder, hbelow]

theorem map_symbol_preorderAll (table : Nat) (parent : List Nat) (index : Nat) :
    (symbols : List Symbol) →
      (preorderAll table parent index symbols).map (·.symbol) =
        Symbol.preorderAll symbols
  | [] => rfl
  | symbol :: rest => by
      have hfirst := map_symbol_preorder table (index :: parent) symbol
      have hrest := map_symbol_preorderAll table parent (index + 1) rest
      simp [preorderAll, Symbol.preorderAll, hfirst, hrest]

end

mutual

/-- A symbol and those below it have their origins at or below its place. -/
theorem origin_of_mem_preorder (table : Nat) (place : List Nat) :
    (symbol : Symbol) → ∀ declared ∈ preorder table place symbol,
      ∃ below, declared.origin = some ⟨table, below ++ place⟩
  | ⟨_, _, _, _, _, _, _, children, _, _⟩ => by
      intro declared hmem
      rw [preorder] at hmem
      rcases List.mem_cons.1 hmem with rfl | hmem
      · exact ⟨[], rfl⟩
      · obtain ⟨index, below, -, horigin⟩ :=
          origin_of_mem_preorderAll table place 0 children declared hmem
        exact ⟨below ++ [index], by simpa using horigin⟩

theorem origin_of_mem_preorderAll (table : Nat) (parent : List Nat) (first : Nat) :
    (symbols : List Symbol) → ∀ declared ∈ preorderAll table parent first symbols,
      ∃ index below, first ≤ index ∧
        declared.origin = some ⟨table, below ++ index :: parent⟩
  | [] => by simp [preorderAll]
  | symbol :: rest => by
      intro declared hmem
      rw [preorderAll] at hmem
      rcases List.mem_append.1 hmem with hmem | hmem
      · obtain ⟨below, horigin⟩ :=
          origin_of_mem_preorder table (first :: parent) symbol declared hmem
        exact ⟨first, below, Nat.le_refl first, horigin⟩
      · obtain ⟨index, below, hindex, horigin⟩ :=
          origin_of_mem_preorderAll table parent (first + 1) rest declared hmem
        exact ⟨index, below, Nat.le_of_succ_le hindex, horigin⟩

end

mutual

/-- No two symbols in a symbol have the same place. -/
theorem pairwise_origin_preorder (table : Nat) (place : List Nat) :
    (symbol : Symbol) → (preorder table place symbol).Pairwise
      fun left right => left.origin ≠ right.origin
  | ⟨_, _, _, _, _, _, _, children, _, _⟩ => by
      rw [preorder]
      refine List.pairwise_cons.2
        ⟨?_, pairwise_origin_preorderAll table place 0 children⟩
      intro declared hmem heq
      obtain ⟨index, below, -, horigin⟩ :=
        origin_of_mem_preorderAll table place 0 children declared hmem
      rw [horigin] at heq
      have hlength := congrArg List.length
        (congrArg Origin.place (Option.some.inj heq))
      simp only [List.length_append, List.length_cons] at hlength
      omega

theorem pairwise_origin_preorderAll (table : Nat) (parent : List Nat) (first : Nat) :
    (symbols : List Symbol) → (preorderAll table parent first symbols).Pairwise
      fun left right => left.origin ≠ right.origin
  | [] => by simp [preorderAll]
  | symbol :: rest => by
      rw [preorderAll]
      refine List.pairwise_append.2
        ⟨pairwise_origin_preorder table (first :: parent) symbol,
          pairwise_origin_preorderAll table parent (first + 1) rest, ?_⟩
      intro left hleft right hright heq
      obtain ⟨below, horigin⟩ :=
        origin_of_mem_preorder table (first :: parent) symbol left hleft
      obtain ⟨index, below', hindex, horigin'⟩ :=
        origin_of_mem_preorderAll table parent (first + 1) rest right hright
      -- Both paths end in the parent's; what stands before it tells them apart.
      rw [horigin, horigin'] at heq
      have hplace := congrArg Origin.place (Option.some.inj heq)
      have hsteps := (List.append_inj' hplace (by simp)).2
      have hindexes := (List.cons.inj hsteps).1
      omega

end

/-! ## Children -/

/-- Each symbol of a list is found at its index. -/
theorem mem_preorderAll_of_mem_zipIdx {table : Nat} {parent : List Nat} {symbols : List Symbol}
    {first : Nat} {entry : Symbol × Nat} (hentry : entry ∈ symbols.zipIdx first) :
    ⟨some ⟨table, entry.2 :: parent⟩, entry.1⟩ ∈ preorderAll table parent first symbols := by
  induction symbols generalizing first with
  | nil => exact absurd hentry List.not_mem_nil
  | cons symbol rest ih =>
      rw [List.zipIdx_cons] at hentry
      rw [preorderAll, List.mem_append]
      rcases List.mem_cons.1 hentry with rfl | hrest
      · obtain ⟨_, _, _, _, _, _, _, children, _, _⟩ := symbol
        rw [preorder]
        exact Or.inl List.mem_cons_self
      · exact Or.inr (ih hrest)

mutual

/-- With a declaration its children belong to the table, at the places below it. -/
theorem children_subset_preorder (table : Nat) (place : List Nat) :
    (symbol : Symbol) → ∀ owner ∈ preorder table place symbol,
      owner.children ⊆ preorder table place symbol
  | ⟨_, _, _, _, _, _, _, children, _, _⟩ => by
      intro owner hmem
      rw [preorder] at hmem ⊢
      intro child hchild
      refine List.mem_cons_of_mem _ ?_
      rcases List.mem_cons.1 hmem with rfl | hbelow
      · obtain ⟨entry, hentry, rfl⟩ := List.mem_map.1 hchild
        exact mem_preorderAll_of_mem_zipIdx hentry
      · exact children_subset_preorderAll table place 0 children owner hbelow hchild

theorem children_subset_preorderAll (table : Nat) (parent : List Nat) (first : Nat) :
    (symbols : List Symbol) → ∀ owner ∈ preorderAll table parent first symbols,
      owner.children ⊆ preorderAll table parent first symbols
  | [] => by simp [preorderAll]
  | symbol :: rest => by
      intro owner hmem child hchild
      rw [preorderAll, List.mem_append] at hmem ⊢
      rcases hmem with hmem | hmem
      · exact Or.inl
          (children_subset_preorder table (first :: parent) symbol owner hmem hchild)
      · exact Or.inr
          (children_subset_preorderAll table parent (first + 1) rest owner hmem hchild)

end

theorem symbol_mem_children {owner child : Declared} (hchild : child ∈ owner.children) :
    child.symbol ∈ owner.symbol.children := by
  obtain ⟨entry, hentry, rfl⟩ := List.mem_map.1 hchild
  exact List.fst_mem_of_mem_zipIdx hentry

theorem exists_mem_children {owner : Declared} {symbol : Symbol}
    (hsymbol : symbol ∈ owner.symbol.children) :
    ∃ child ∈ owner.children, child.symbol = symbol := by
  obtain ⟨index, hlt, rfl⟩ := List.getElem_of_mem hsymbol
  refine ⟨owner.child index owner.symbol.children[index], ?_, rfl⟩
  rw [children, List.mem_map]
  exact ⟨(owner.symbol.children[index], index), List.mk_mem_zipIdx_iff_getElem?.2 (by simp), rfl⟩

/-! ## Collecting without repetition -/

/-- Among these declarations an origin tells which one is meant. -/
structure Identified (declarations : List Declared) : Prop where
  isSome : ∀ declared ∈ declarations, declared.origin.isSome = true
  unique : ∀ left ∈ declarations, ∀ right ∈ declarations,
    left.origin = right.origin → left = right

theorem Identified.subset {whole part : List Declared} (hidentified : Identified whole)
    (hsubset : part ⊆ whole) : Identified part where
  isSome declared hmem := hidentified.isSome declared (hsubset hmem)
  unique left hleft right hright :=
    hidentified.unique left (hsubset hleft) right (hsubset hright)

theorem same_iff {left right : Declared} :
    same left right = true ↔ left.origin.isSome = true ∧ left.origin = right.origin := by
  simp [same]

/-- Where origins tell, declarations with the same origin are the same. -/
theorem Identified.same_iff_eq {declarations : List Declared}
    (hidentified : Identified declarations) {left right : Declared}
    (hleft : left ∈ declarations) (hright : right ∈ declarations) :
    same left right = true ↔ left = right := by
  rw [same_iff]
  constructor
  · rintro ⟨-, horigin⟩
    exact hidentified.unique left hleft right hright horigin
  · rintro rfl
    exact ⟨hidentified.isSome left hleft, rfl⟩

theorem any_same_iff {collected : List Declared} {declared : Declared}
    (hidentified : Identified (declared :: collected)) :
    collected.any (same · declared) = true ↔ declared ∈ collected := by
  rw [List.any_eq_true]
  constructor
  · rintro ⟨found, hmem, hsame⟩
    have heq := (hidentified.same_iff_eq (List.mem_cons_of_mem _ hmem)
      List.mem_cons_self).1 hsame
    exact heq ▸ hmem
  · intro hmem
    exact ⟨declared, hmem, (hidentified.same_iff_eq List.mem_cons_self
      List.mem_cons_self).2 rfl⟩

/-- What was collected before is not collected again. -/
theorem nodup_push {collected : List Declared} {declared : Declared}
    (hidentified : Identified (declared :: collected)) (hnodup : collected.Nodup) :
    (push collected declared).1.Nodup := by
  by_cases hmem : declared ∈ collected
  · rw [push, if_pos ((any_same_iff hidentified).2 hmem)]
    exact hnodup
  · rw [push, if_neg (mt (any_same_iff hidentified).1 hmem)]
    refine List.nodup_append.2 ⟨hnodup, by simp, ?_⟩
    intro left hleft right hright heq
    exact hmem (List.mem_singleton.1 hright ▸ heq ▸ hleft)

/-- A declaration that is pushed is collected then. -/
theorem mem_push {collected : List Declared} {declared : Declared}
    (hidentified : Identified (declared :: collected)) (other : Declared) :
    other ∈ (push collected declared).1 ↔ other = declared ∨ other ∈ collected := by
  by_cases hmem : declared ∈ collected
  · rw [push, if_pos ((any_same_iff hidentified).2 hmem)]
    constructor
    · exact Or.inr
    · rintro (rfl | hother)
      · exact hmem
      · exact hother
  · rw [push, if_neg (mt (any_same_iff hidentified).1 hmem)]
    simp [or_comm]

/-- Pushing declarations one after the other collects each of them once. -/
theorem foldl_push_spec {declarations collected : List Declared}
    (hidentified : Identified (declarations ++ collected)) (hnodup : collected.Nodup) :
    (declarations.foldl (fun found next => (push found next).1) collected).Nodup ∧
      ∀ declared,
        declared ∈ declarations.foldl (fun found next => (push found next).1) collected ↔
          declared ∈ declarations ∨ declared ∈ collected := by
  induction declarations generalizing collected with
  | nil => simpa using hnodup
  | cons first rest ih =>
      have hfirst : Identified (first :: collected) := by
        apply hidentified.subset
        intro declared hmem
        rcases List.mem_cons.1 hmem with rfl | hmem
        · simp
        · simp [hmem]
      have hrest : Identified (rest ++ (push collected first).1) := by
        apply hidentified.subset
        intro declared hmem
        rw [List.mem_append, mem_push hfirst] at hmem
        simp only [List.cons_append, List.mem_cons, List.mem_append]
        tauto
      obtain ⟨hall, hmem⟩ := ih hrest (nodup_push hfirst hnodup)
      refine ⟨hall, fun declared => (hmem declared).trans ?_⟩
      rw [mem_push hfirst, List.mem_cons]
      tauto

theorem distinct_subset (declarations : List Declared) :
    distinct declarations ⊆ declarations := by
  have hfold : ∀ collected, declarations.foldl (fun found next => (push found next).1) collected ⊆
      collected ++ declarations := by
    induction declarations with
    | nil => simp
    | cons first rest ih =>
        intro collected declared hmem
        have hnext : (push collected first).1 ⊆ collected ++ [first] := by
          rw [push]
          split
          · exact List.subset_append_left _ _
          · exact List.Subset.refl _
        rcases List.mem_append.1 (ih _ hmem) with hold | hrest
        · simpa [or_assoc] using Or.inl (List.mem_append.1 (hnext hold))
        · simp [hrest]
  exact hfold []

theorem subset_push (collected : List Declared) (declared : Declared) :
    collected ⊆ (push collected declared).1 := by
  rw [push]
  split
  · exact List.Subset.refl _
  · exact List.subset_append_left _ _

theorem exists_mem_foldl_push {declarations collected : List Declared} {declared : Declared}
    (hmem : declared ∈ declarations ∨
      ∃ kept ∈ collected, kept = declared ∨ same kept declared = true) :
    ∃ kept ∈ declarations.foldl (fun found next => (push found next).1) collected,
      kept = declared ∨ same kept declared = true := by
  induction declarations generalizing collected with
  | nil => exact hmem.resolve_left List.not_mem_nil
  | cons first rest ih =>
      rw [List.foldl_cons]
      apply ih
      rcases hmem with hmem | ⟨kept, hkept, hsame⟩
      · rcases List.mem_cons.1 hmem with rfl | hrest
        · right
          rw [push]
          split
          · rename_i hold
            obtain ⟨kept, hkept, hsame⟩ := List.any_eq_true.1 hold
            exact ⟨kept, hkept, Or.inr hsame⟩
          · exact ⟨declared, List.mem_append_right _ (List.mem_singleton.2 rfl), Or.inl rfl⟩
        · exact Or.inl hrest
      · exact Or.inr ⟨kept, subset_push collected first hkept, hsame⟩

/-- Of each declaration there is one left, itself or the same. -/
theorem exists_mem_distinct {declarations : List Declared} {declared : Declared}
    (hmem : declared ∈ declarations) :
    ∃ kept ∈ distinct declarations, kept = declared ∨ same kept declared = true :=
  exists_mem_foldl_push (Or.inl hmem)

theorem nodup_distinct {declarations : List Declared}
    (hidentified : Identified declarations) : (distinct declarations).Nodup :=
  (foldl_push_spec (by simpa using hidentified) List.nodup_nil).1

theorem mem_distinct {declarations : List Declared}
    (hidentified : Identified declarations) (declared : Declared) :
    declared ∈ distinct declarations ↔ declared ∈ declarations := by
  have hspec := (foldl_push_spec (by simpa using hidentified) List.nodup_nil).2 declared
  rw [distinct]
  simpa using hspec

end Declared

end SymbolIndex
