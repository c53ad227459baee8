import SymbolIndex.Proofs.Tree.Parts
import SymbolIndex.Reading.Names

/-!
# Imports and their clauses

An import is read from a clause of a use declaration, or of a group in one.  It
is located at its clause, and imports a function, a constant or a class.
-/

namespace SymbolIndex.Reading

variable {doc : Document} {tree : Tree} {symbol : Symbol}

/-- The clauses of a use declaration, those of a group included. -/
def isUseClause : PhraseKind → Bool
  | .namespaceUseClause | .namespaceUseGroupClause => true
  | _ => false

/-- What can be imported. -/
def isImported : SymbolKind → Bool
  | .function | .constant | .classType => true
  | _ => false

theorem isImported_importKind? {kind : SymbolKind} (hkind : importKind? tree = some kind) :
    isImported kind = true := by
  rw [importKind?] at hkind
  split at hkind
  · cases hkind
    rfl
  · split at hkind
    · cases hkind
      rfl
    · cases hkind

theorem isImported_getD {kind : SymbolKind} (hkind : isImported kind = true) :
    isImported ((importKind? tree).getD kind) = true := by
  cases himport : importKind? tree with
  | none => exact hkind
  | some given => exact isImported_importKind? himport

/-- Each import comes from a clause, of a group or on its own. -/
theorem exists_clause_of_mem_importsOf (hmem : symbol ∈ importsOf doc tree) :
    ∃ clause ∈ tree.parts, clause.phraseKind?.any isUseClause = true ∧
      ∃ kind leading, isImported kind = true ∧ importOf? doc kind leading clause = some symbol := by
  have hlisted : ∀ {listKind clauseKind : PhraseKind} {list clause : Tree},
      tree.childPhrase? listKind = some list →
      clause ∈ list.children.filter (·.isPhrase clauseKind) →
      clause ∈ tree.parts ∧ clause.phraseKind? = some clauseKind := by
    intro listKind clauseKind list clause hlist hclause
    obtain ⟨hchild, hkind⟩ := List.mem_filter.1 hclause
    have hlistPart := Tree.mem_parts_of_mem_children (Tree.mem_children_of_childPhrase? hlist).1
    exact ⟨tree.mem_parts_trans hlistPart (Tree.mem_parts_of_mem_children hchild),
      beq_iff_eq.1 hkind⟩
  have hkind : isImported ((importKind? tree).getD .classType) = true := isImported_getD rfl
  rw [importsOf] at hmem
  dsimp only at hmem
  split at hmem
  · rename_i list hlist
    obtain ⟨clause, hclause, hsymbol⟩ := List.mem_filterMap.1 hmem
    obtain ⟨hpart, hphrase⟩ := hlisted hlist hclause
    exact ⟨clause, hpart, by rw [hphrase]; rfl, _, _, hkind, hsymbol⟩
  · split at hmem
    · rename_i list hlist
      obtain ⟨clause, hclause, hsymbol⟩ := List.mem_filterMap.1 hmem
      obtain ⟨hpart, hphrase⟩ := hlisted hlist hclause
      exact ⟨clause, hpart, by rw [hphrase]; rfl, _, _, isImported_getD hkind, hsymbol⟩
    · exact absurd hmem List.not_mem_nil

/-- What the clause of an import says of it. -/
structure ReadFromClause (doc : Document) (clause : Tree) (symbol : Symbol) : Prop where
  kind : isImported symbol.kind = true
  location : symbol.location = some (doc.location (doc.treeRange clause))
  modifiers : symbol.modifiers = .isUse
  doc : symbol.doc = none
  children : symbol.children = []

/-- Each import was read from a clause. -/
theorem exists_readFromClause (hmem : symbol ∈ importsOf doc tree) :
    ∃ clause ∈ tree.parts, clause.phraseKind?.any isUseClause = true ∧
      ReadFromClause doc clause symbol := by
  obtain ⟨clause, hpart, hphrase, kind, leading, hkind, himport⟩ :=
    exists_clause_of_mem_importsOf hmem
  obtain ⟨written, -, rfl⟩ := Option.map_eq_some_iff.1 himport
  exact ⟨clause, hpart, hphrase, hkind, rfl, rfl, rfl, rfl⟩

end SymbolIndex.Reading
