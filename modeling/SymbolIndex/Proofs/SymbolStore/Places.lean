import SymbolIndex.Proofs.SymbolStore.Resolution

/-!
# Places of declarations

What the place of a declaration tells about it.  Where every symbol is located
in the document of its table, a reference leads to symbols that have a place.
Where no two declarations of a document share a place, the class that declares a
member is recovered from the member's place alone: it is the very class that the
member was reached through.
-/

namespace SymbolIndex

namespace Declared

theorem exists_origin_of_mem_children {owner child : Declared} (hchild : child ∈ owner.children) :
    ∃ index, child.origin =
      owner.origin.map fun origin => { origin with place := index :: origin.place } := by
  obtain ⟨entry, -, rfl⟩ := List.mem_map.1 hchild
  exact ⟨entry.2, rfl⟩

/-- A child stands below one declaration only. -/
theorem Identified.owner_unique {declarations : List Declared}
    (hidentified : Identified declarations) {left right child : Declared}
    (hleft : left ∈ declarations) (hright : right ∈ declarations)
    (hchild : child ∈ left.children) (hchild' : child ∈ right.children) : left = right := by
  apply hidentified.unique left hleft right hright
  obtain ⟨origin, horigin⟩ := Option.isSome_iff_exists.1 (hidentified.isSome left hleft)
  obtain ⟨origin', horigin'⟩ := Option.isSome_iff_exists.1 (hidentified.isSome right hright)
  obtain ⟨index, hplace⟩ := exists_origin_of_mem_children hchild
  obtain ⟨index', hplace'⟩ := exists_origin_of_mem_children hchild'
  rw [hplace, horigin, horigin', Option.map_some, Option.map_some, Option.some_inj] at hplace'
  obtain ⟨htable, hsteps⟩ := Origin.mk.inj hplace'
  rw [horigin, horigin', Option.some_inj]
  cases origin
  cases origin'
  rw [Origin.mk.injEq]
  exact ⟨htable, (List.cons.inj hsteps).2⟩

end Declared

/-! ## Symbols of a table -/

namespace SymbolTable

/-- What is declared in the scope at a position is declared in the table. -/
theorem children_scopeAt_subset (table : SymbolTable) (position : Position) :
    (table.scopeAt position).children ⊆ table.symbols := by
  rw [scopeAt]
  cases hlast : ((table.enclosing position).filter (·.kind.isScope)).getLast? with
  | none =>
      intro symbol hchild
      exact Symbol.mem_preorderAll_iff.2 ⟨symbol, hchild, Symbol.mem_preorder_iff.2 (Or.inl rfl)⟩
  | some scope =>
      have hscope := List.mem_of_getLast? hlast
      exact Symbol.children_subset_preorderAll _ _
        (Symbol.enclosingAll_subset_preorderAll position _ (List.mem_filter.1 hscope).1)

end SymbolTable

namespace SymbolStore

open SymbolIndex.Text

/-- Every symbol of a table is located in the document of the table. -/
def Located (store : SymbolStore) : Prop :=
  ∀ table ∈ store.tables, ∀ symbol ∈ table.symbols,
    ∃ range, symbol.location = some ⟨table.uri, range⟩

/-- Different declarations of a document have different locations. -/
def DistinctlyLocated (store : SymbolStore) : Prop :=
  ∀ table ∈ store.tables, (table.symbols.map (·.location)).Nodup

instance (store : SymbolStore) : Decidable store.DistinctlyLocated :=
  inferInstanceAs (Decidable (∀ table ∈ store.tables, (table.symbols.map (·.location)).Nodup))

/-! ## Classes of members -/

theorem map_symbol_everyDeclared (entry : ResidentTable) :
    (everyDeclared entry).map (·.symbol) = entry.table.symbols :=
  Declared.map_symbol_preorderAll _ _ _ _

theorem symbol_mem_symbols {entry : ResidentTable} {declared : Declared}
    (hmem : declared ∈ everyDeclared entry) : declared.symbol ∈ entry.table.symbols := by
  rw [← map_symbol_everyDeclared]
  exact List.mem_map_of_mem hmem

section

variable {store : SymbolStore} {owner member : Declared} {target : Symbol}

/-- A class declares a member if a child has its kind, name and location. -/
theorem declares_iff {symbol target : Symbol} :
    SymbolTable.declares symbol target = true ↔ symbol.kind.isClassLike = true ∧
      ∃ child ∈ symbol.children, child.kind = target.kind ∧ child.name = target.name ∧
        child.location = target.location := by
  simp [SymbolTable.declares, and_assoc]

/-- Among the declarations of a document that have different locations, the class that declares a
member is the one the member stands below. -/
theorem find?_declares {entry : ResidentTable} (hentry : entry ∈ store.resident)
    (hsound : store.Sound) (hdistinct : store.DistinctlyLocated)
    (howner : owner ∈ everyDeclared entry) (hclass : owner.symbol.kind.isClassLike = true)
    (hmember : member ∈ owner.children)
    (htarget : target = { member.symbol with type := target.type }) :
    entry.table.declaringType? target = some owner.symbol := by
  have hsame : member.symbol.kind = target.kind ∧ member.symbol.name = target.name ∧
      member.symbol.location = target.location := by
    rw [htarget]
    exact ⟨rfl, rfl, rfl⟩
  have hdeclares : SymbolTable.declares owner.symbol target = true :=
    declares_iff.2 ⟨hclass, member.symbol, Declared.symbol_mem_children hmember, hsame⟩
  have hall : ∀ declared ∈ everyDeclared entry, declared ∈ store.allDeclared :=
    fun declared hdeclared => List.mem_flatMap.2 ⟨entry, hentry, hdeclared⟩
  have hchildren : ∀ declared ∈ everyDeclared entry, declared.children ⊆ everyDeclared entry :=
    Declared.children_subset_preorderAll _ _ _ _
  have hnodup : ((everyDeclared entry).map fun declared => declared.symbol.location).Nodup := by
    have hplaces := hdistinct entry.table (List.mem_map_of_mem hentry)
    rwa [← map_symbol_everyDeclared, List.map_map] at hplaces
  rw [SymbolTable.declaringType?, SymbolTable.find?]
  cases hfound : entry.table.symbols.find? (SymbolTable.declares · target) with
  | none =>
      have hnone := List.find?_eq_none.1 hfound owner.symbol (symbol_mem_symbols howner)
      exact absurd hdeclares hnone
  | some other =>
      have hlisted := List.mem_of_find?_eq_some hfound
      rw [← map_symbol_everyDeclared] at hlisted
      obtain ⟨declared, hdeclared, rfl⟩ := List.mem_map.1 hlisted
      have hother : SymbolTable.declares declared.symbol target = true :=
        List.find?_some (p := (SymbolTable.declares · target)) hfound
      obtain ⟨-, child, hchild, -, -, hlocation⟩ := declares_iff.1 hother
      obtain ⟨below, hbelow, rfl⟩ := Declared.exists_mem_children hchild
      -- The child at the member's place is the member, hence its owner is the member's.
      have hone : below = member :=
        List.inj_on_of_nodup_map hnodup (hchildren declared hdeclared hbelow)
          (hchildren owner howner hmember) (hlocation.trans hsame.2.2.symm)
      rw [hsound.identified_all.owner_unique (hall declared hdeclared) (hall owner howner)
        (hone ▸ hbelow) hmember]

/-- The class that a member was reached through is the one that is recovered from its place. -/
theorem Sound.declaringType?_eq (hsound : store.Sound) (hfiled : store.Filed)
    (hlocated : store.Located) (hdistinct : store.DistinctlyLocated)
    (howner : owner ∈ store.allDeclared) (hclass : owner.symbol.kind.isClassLike = true)
    (hmember : member ∈ owner.children)
    (htarget : target = { member.symbol with type := target.type }) :
    store.declaringType? target = some owner.symbol := by
  obtain ⟨entry, hentry, hdeclared⟩ := List.mem_flatMap.1 howner
  have htable : entry.table ∈ store.tables := List.mem_map_of_mem hentry
  have hbelow : member ∈ everyDeclared entry :=
    Declared.children_subset_preorderAll _ _ _ _ owner hdeclared hmember
  obtain ⟨range, hlocation⟩ := hlocated entry.table htable _ (symbol_mem_symbols hbelow)
  have hplace : target.location = some ⟨entry.table.uri, range⟩ := by
    rw [htarget]
    exact hlocation
  have hget : store.get? entry.table.uri = some entry.table := hfiled.get?_of_mem hsound htable
  have hfind := find?_declares hentry hsound hdistinct hdeclared hclass hmember htarget
  simp only [SymbolStore.declaringType?, hplace, hget, hfind, Option.bind_eq_bind,
    Option.bind_some]

end

/-! ## Names of classes in types -/

/-- The class names of a type are as they are looked up. -/
theorem withoutBackslashes_of_mem_classNames {type name : String}
    (hname : name ∈ TypeExpr.classNames type) : withoutBackslashes name = name := by
  obtain ⟨part, -, rfl⟩ := List.mem_map.1 hname
  rw [withoutBackslashes, String.toList_ofList, List.dropWhile_idempotent]

end SymbolStore

end SymbolIndex
