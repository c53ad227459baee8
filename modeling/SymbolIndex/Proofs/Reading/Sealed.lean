import Mathlib.Data.List.Basic
import SymbolIndex.Proofs.Tree.Sealed
import SymbolIndex.Reading.Names

/-!
# Reading from sealed trees

What the small phrases say is read from the kinds of their children and from the
first and last tokens of these, so it is the same in the sealed form.
-/

namespace SymbolIndex

namespace Tree

variable {β : Type} {tree : Tree} {kind : PhraseKind}

/-- What is read from a child of a kind is read from the sealed child, if it does not depend on
errors. -/
theorem map_childPhrase?_sealed {f : Tree → β} (hintact : tree.Intact)
    (hchild : ∀ child, child.phraseKind? = some kind → f child.sealed = f child) :
    (tree.sealed.childPhrase? kind).map f = (tree.childPhrase? kind).map f := by
  rw [childPhrase?_sealed hintact]
  cases hfound : tree.childPhrase? kind with
  | none => rfl
  | some child => simp [hchild child (mem_children_of_childPhrase? hfound).2]

theorem bind_childPhrase?_sealed {f : Tree → Option β} (hintact : tree.Intact)
    (hchild : ∀ child, child.phraseKind? = some kind → f child.sealed = f child) :
    (tree.sealed.childPhrase? kind).bind f = (tree.childPhrase? kind).bind f := by
  rw [childPhrase?_sealed hintact]
  cases hfound : tree.childPhrase? kind with
  | none => rfl
  | some child => simp [hchild child (mem_children_of_childPhrase? hfound).2]

/-- What is read from all children of a kind is read from the sealed ones, if it does not depend
on errors. -/
theorem filterMap_children_sealed {f : Tree → Option β} (hintact : tree.Intact)
    (hchild : ∀ child, child.phraseKind? = some kind → f child.sealed = f child) :
    (tree.sealed.children.filter (·.isPhrase kind)).filterMap f =
      (tree.children.filter (·.isPhrase kind)).filterMap f := by
  rw [children_sealed hintact, List.filter_map, List.filterMap_map]
  simp only [Function.comp_def, isPhrase_sealed]
  apply List.filterMap_congr
  intro child hmem
  exact hchild child (beq_iff_eq.1 (List.mem_filter.1 hmem).2)

theorem map_children_sealed {f : Tree → β} (hintact : tree.Intact)
    (hchild : ∀ child, child.phraseKind? = some kind → f child.sealed = f child) :
    (tree.sealed.children.filter (·.isPhrase kind)).map f =
      (tree.children.filter (·.isPhrase kind)).map f := by
  rw [children_sealed hintact, List.filter_map, List.map_map]
  simp only [Function.comp_def, isPhrase_sealed]
  apply List.map_congr_left
  intro child hmem
  exact hchild child (beq_iff_eq.1 (List.mem_filter.1 hmem).2)

end Tree

namespace Reading

open SymbolIndex.Tree

variable (doc : Document) (resolver : NameResolver) {tree : Tree}

/-! ## Names -/

@[simp]
theorem nameText_sealed (tree : Tree) : nameText doc tree.sealed = nameText doc tree := by
  simp [nameText]

@[simp]
theorem isName_sealed (tree : Tree) : isName tree.sealed = isName tree := by
  simp [isName]

@[simp]
theorem resolveName_sealed (tree : Tree) (kind : SymbolKind) :
    resolveName doc resolver tree.sealed kind = resolveName doc resolver tree kind := by
  simp [resolveName]

theorem childTokenText?_sealed (hintact : tree.Intact) (kind : TokenKind) :
    childTokenText? doc tree.sealed kind = childTokenText? doc tree kind := by
  simp [childTokenText?, childToken?_sealed hintact]

theorem childNameText?_sealed (hintact : tree.Intact) (kind : PhraseKind) :
    childNameText? doc tree.sealed kind = childNameText? doc tree kind :=
  map_childPhrase?_sealed hintact fun child _ => nameText_sealed doc child

theorem resolvedNames_sealed (hintact : tree.Intact) :
    resolvedNames doc resolver tree.sealed = resolvedNames doc resolver tree := by
  simp [resolvedNames, children_sealed hintact, List.filter_map, Function.comp_def]

/-! ## Types -/

theorem declaredMember?_sealed (tree : Tree) :
    declaredMember? doc resolver tree.sealed = declaredMember? doc resolver tree := by
  cases tree with
  | token leaf => rfl
  | phrase kind children =>
      have hname := nameText_sealed doc (.phrase kind children)
      have hresolved := resolveName_sealed doc resolver (.phrase kind children) .classType
      rw [sealed] at hname hresolved ⊢
      simp [declaredMember?, hname, hresolved]

theorem declaredType_sealed (hintact : tree.Intact) :
    declaredType doc resolver tree.sealed = declaredType doc resolver tree := by
  simp [declaredType, children_sealed hintact, List.filterMap_map, Function.comp_def,
    declaredMember?_sealed]

theorem childDeclaredType_sealed (hintact : tree.Intact) :
    childDeclaredType doc resolver tree.sealed = childDeclaredType doc resolver tree := by
  rw [childDeclaredType, childDeclaredType, childPhrase?_sealed hintact]
  cases hfound : tree.childPhrase? .typeDeclaration with
  | none => rfl
  | some declaration =>
      exact declaredType_sealed doc resolver (intact_of_childPhrase? hfound (by decide))

mutual

/-- A literal does not depend on what is in phrases with errors. -/
theorem literalType_sealed : (tree : Tree) →
    literalType doc tree.sealed = literalType doc tree
  | .token leaf => rfl
  | .phrase kind children => by
      have hname := nameText_sealed doc (.phrase kind children)
      cases kind
      case constantAccessExpression =>
        rw [@sealed_phrase .constantAccessExpression children nofun] at hname ⊢
        simp only [literalType, hname]
      case unaryExpression =>
        rw [@sealed_phrase .unaryExpression children nofun]
        simp only [literalType, lastLiteralType_sealed children]
      case encapsulatedExpression =>
        rw [@sealed_phrase .encapsulatedExpression children nofun]
        simp only [literalType, lastLiteralType_sealed children]
      -- The kind of any other phrase decides alone.
      all_goals rfl

theorem lastLiteralType_sealed : (trees : List Tree) →
    lastLiteralType doc (trees.map sealed) = lastLiteralType doc trees
  | [] => rfl
  | tree :: rest => by
      rw [List.map_cons, lastLiteralType, lastLiteralType, literalType_sealed tree,
        lastLiteralType_sealed rest]
      simp [Function.comp_def]

end

/-! ## Modifiers and imports -/

theorem modifiersOf_sealed (hintact : tree.Intact) :
    modifiersOf tree.sealed = modifiersOf tree := by
  simp [modifiersOf, children_sealed hintact, List.filterMap_map]

theorem memberModifiers_sealed {tree? : Option Tree} (hintact : ∀ tree ∈ tree?, tree.Intact) :
    memberModifiers (tree?.map sealed) = memberModifiers tree? := by
  cases tree? with
  | none => rfl
  | some tree =>
      have hlist := @map_childPhrase?_sealed _ tree .memberModifierList modifiersOf
        (hintact tree rfl)
        fun list hkind => modifiersOf_sealed (intact_of_phraseKind? hkind (by decide))
      rw [memberModifiers, memberModifiers]
      simp only [Option.map_some, Option.bind_some]
      revert hlist
      cases tree.sealed.childPhrase? .memberModifierList
      all_goals
        cases tree.childPhrase? .memberModifierList
        all_goals
          intro hlist
          simp_all

theorem importKind?_sealed (hintact : tree.Intact) :
    importKind? tree.sealed = importKind? tree := by
  simp [importKind?, childToken?_sealed hintact]

theorem importOf?_sealed (kind : SymbolKind) (leading : String) (hintact : tree.Intact) :
    importOf? doc kind leading tree.sealed = importOf? doc kind leading tree := by
  have halias := @bind_childPhrase?_sealed _ tree .namespaceAliasingClause
    (fun aliasing => childTokenText? doc aliasing .plainName) hintact fun aliasing hkind =>
      childTokenText?_sealed doc (intact_of_phraseKind? hkind (by decide)) _
  simp [importOf?, childNameText?_sealed doc hintact, halias]

/-- Imports do not depend on what is in phrases with errors. -/
theorem importsOf_sealed (hintact : tree.Intact) :
    importsOf doc tree.sealed = importsOf doc tree := by
  have hclauses : ∀ {list : Tree} {kind : PhraseKind} {f : Tree → Option Symbol}, list.Intact →
      (∀ clause : Tree, clause.Intact → f clause.sealed = f clause) → kind ≠ .error →
      (list.sealed.children.filter (·.isPhrase kind)).filterMap f =
        (list.children.filter (·.isPhrase kind)).filterMap f := by
    intro list kind f hlist hclause hkind
    apply filterMap_children_sealed hlist
    intro clause hfound
    exact hclause clause (intact_of_phraseKind? hfound hkind)
  rw [importsOf, importsOf, importKind?_sealed hintact, childNameText?_sealed doc hintact,
    childPhrase?_sealed hintact, childPhrase?_sealed hintact]
  cases hlist : tree.childPhrase? .namespaceUseClauseList with
  | some list =>
      exact hclauses (intact_of_childPhrase? hlist (by decide))
        (fun clause hclause => importOf?_sealed doc _ _ hclause) nofun
  | none =>
      cases hgroup : tree.childPhrase? .namespaceUseGroupClauseList with
      | none => rfl
      | some list =>
          refine hclauses (intact_of_childPhrase? hgroup (by decide))
            (fun clause hclause => ?_) nofun
          simp [importKind?_sealed hclause, importOf?_sealed doc _ _ hclause]

end Reading

end SymbolIndex
