import SymbolIndex.Proofs.Reading.Elements
import SymbolIndex.Proofs.Reading.OpenSymbols

/-!
# Symbols that are never open

Constants, properties, imports and variables are added to the innermost open
symbol when their phrase is entered.  They are no declarations with something
inside, so the nests stay as they were.
-/

namespace SymbolIndex.Reading

open SymbolIndex.Symbol

variable {doc : Document}

/-- What is read from an element may be added anywhere, as it is no scope. -/
theorem ReadFromElement.plain {element : Tree} {comment : Option DocComment} {symbol : Symbol}
    {scope : Option String} (hread : ReadFromElement doc element comment symbol)
    (hkind : symbol.kind.isScope = false) (hfile : symbol.kind ≠ .file)
    (hmember : symbol.kind.isMember = true → symbol.scope = scope) : symbol.Plain scope := by
  refine plain_of_children_nil hread.children ?_ hfile hmember
  rw [Symbol.isDeclaration, hkind]
  rfl

theorem plain_constantsOf (state : DeclarationState) (comment : Option DocComment) (tree : Tree)
    (scope : Option String) :
    ∀ symbol ∈ constantsOf doc state comment tree, symbol.Plain scope := by
  intro symbol hmem
  obtain ⟨element, -, hread, hkind⟩ := exists_element_of_mem_constantsOf hmem
  apply hread.plain
  all_goals
    rw [hkind]
    first
    | rfl
    | exact nofun

theorem plain_propertiesOf (state : DeclarationState) (comment : Option DocComment)
    (tree : Tree) :
    ∀ symbol ∈ propertiesOf doc state comment tree, symbol.Plain state.declaringType? := by
  intro symbol hmem
  obtain ⟨element, -, hread, hkind, hscope⟩ := exists_element_of_mem_propertiesOf hmem
  exact hread.plain (by rw [hkind]; rfl) (by rw [hkind]; exact nofun) fun _ => hscope

theorem plain_classConstantsOf (state : DeclarationState) (comment : Option DocComment)
    (tree : Tree) :
    ∀ symbol ∈ classConstantsOf doc state comment tree, symbol.Plain state.declaringType? := by
  intro symbol hmem
  obtain ⟨element, -, hread, hkind, hscope⟩ := exists_element_of_mem_classConstantsOf hmem
  exact hread.plain (by rw [hkind]; rfl) (by rw [hkind]; exact nofun) fun _ => hscope

theorem plain_importsOf (tree : Tree) (scope : Option String) :
    ∀ symbol ∈ importsOf doc tree, symbol.Plain scope := by
  intro symbol hmem
  obtain ⟨clause, -, -, hread⟩ := exists_readFromClause hmem
  have hkind : symbol.kind ≠ .file ∧ symbol.kind.isMember = false := by
    have himported := hread.kind
    revert himported
    cases symbol.kind
    all_goals decide
  refine plain_of_children_nil hread.children ?_ hkind.1 fun hmember => ?_
  · have huse : Modifiers.isUse.containsAll .isUse = true := by decide
    rw [Symbol.isDeclaration, isUse, hread.modifiers, huse, Bool.not_true, Bool.and_false,
      Bool.false_and]
  · rw [hkind.2] at hmember
    cases hmember

theorem plain_definedConstant? (tree : Tree) (scope : Option String) :
    ∀ symbol ∈ (definedConstant? doc tree).toList, symbol.Plain scope := by
  intro symbol hmem
  obtain ⟨hread, hkind⟩ := @readFromElement_of_mem_definedConstant? doc tree symbol none hmem
  apply hread.plain
  all_goals
    rw [hkind]
    first
    | rfl
    | exact nofun

theorem plain_variableOf (type : String) (token : Token) (scope : Option String) :
    (variableOf doc type token).Plain scope :=
  plain_of_isVariable rfl rfl

namespace DeclarationState

variable {state : DeclarationState} (hsound : state.Sound)
include hsound

theorem Sound.token (leaf : Token) : Extends [] state (declarationToken doc leaf state) := by
  rw [declarationToken]
  split
  all_goals exact hsound.extends_of_same rfl rfl

/-- The root is marked beside the innermost symbol. -/
theorem Sound.markRoot {mark : Symbol} (hkind : mark.kind = .namespaceMark)
    (hnone : mark.children = []) :
    Extends [] state
      { state with root := { state.root with children := state.root.children ++ [mark] } } := by
  have hplain : mark.Plain (some (shortName state.root.name)) := by
    apply plain_of_children_nil hnone
    · rw [Symbol.isDeclaration, hkind]
      rfl
    · rw [hkind]
      decide
    · rw [hkind]
      intro hmember
      cases hmember
  obtain ⟨resolver, root, opened, pending⟩ := state
  have hroot : root.Grown [] { root with children := root.children ++ [mark] } := by
    have hgrown := grown_append root [mark]
    rwa [nestsAll, nests_of_not_declaration hplain.plain] at hgrown
  have hgrows : Grows [] (opened ++ [root])
      (opened ++ [{ root with children := root.children ++ [mark] }]) := by
    cases opened with
    | nil => exact Grows.intro hroot List.Forall₂.nil
    | cons top rest =>
        refine Grows.intro (Grown.refl top) (List.rel_append (forall₂_grown_refl rest) ?_)
        exact List.Forall₂.cons hroot List.Forall₂.nil
  refine ⟨hgrows, rfl, sound_of_grows hsound hgrows rfl ?_⟩
  obtain ⟨hopened, hrest⟩ := List.forall_mem_append.1 hsound.tidy
  refine List.forall_mem_append.2 ⟨hopened, List.forall_mem_singleton.2 ?_⟩
  apply (List.forall_mem_singleton.1 hrest).append hplain.toFits
  · rw [hplain.plain]
    intro hdeclaration
    cases hdeclaration
  · exact fun _ => rfl
  · rw [hkind]
    intro hlocal
    cases hlocal

theorem Sound.enterNamespace (tree : Tree) :
    Extends [] state (enterNamespace doc tree state) := by
  have hresolver : Extends [] state { state with
      resolver := state.resolver.enterNamespace
        ((childNameText? doc tree .namespaceName).getD "") } :=
    hsound.extends_of_same rfl rfl
  exact hresolver.trans (hresolver.sound.markRoot rfl rfl)

/-- Imports add no declaration. -/
theorem Sound.declareImports {imports : List Symbol}
    (himports : ∀ symbol ∈ imports, ∀ scope, symbol.Plain scope) :
    Extends [] state (imports.foldl declareImport state) := by
  induction imports generalizing state with
  | nil => exact hsound.extends_of_same rfl rfl
  | cons symbol rest ih =>
      obtain ⟨hsymbol, hrest⟩ := List.forall_mem_cons.1 himports
      have hclasses : (state.resolver.addImport symbol).classes = state.resolver.classes := by
        rw [NameResolver.addImport]
        split
        · rfl
        · rfl
      have hresolver : Extends [] state
          { state with resolver := state.resolver.addImport symbol } :=
        hsound.extends_of_same rfl hclasses
      have hadded := hresolver.sound.addChild (hsymbol _).toFits
      rw [nests_of_not_declaration (hsymbol none).plain] at hadded
      have hfirst := hresolver.trans hadded
      exact hfirst.trans (ih hfirst.sound hrest)

theorem Sound.useTraits (tree : Tree) : Extends [] state (useTraits doc tree state) := by
  obtain ⟨resolver, root, opened, pending⟩ := state
  rw [Reading.useTraits]
  cases opened with
  | nil => exact hsound.extends_of_same rfl rfl
  | cons top rest =>
      dsimp only
      split
      · obtain ⟨htop, hrest⟩ := List.forall_mem_cons.1 hsound.tidy
        have hgrows : ∀ associated, Grows [] (top :: (rest ++ [root]))
            ({ top with associated := associated } :: (rest ++ [root])) := fun _ =>
          Grows.intro ⟨⟨rfl, rfl, rfl, rfl, rfl⟩, (List.append_nil _).symm⟩
            (forall₂_grown_refl _)
        refine ⟨hgrows _, rfl, sound_of_grows hsound (hgrows _) rfl ?_⟩
        exact List.forall_mem_cons.2 ⟨htop.congr ⟨rfl, rfl, rfl, rfl, rfl⟩ rfl, hrest⟩
      · exact hsound.extends_of_same rfl rfl

theorem Sound.declareTargets (target? : Option Tree) :
    Extends [] state (declareTargets doc target? state) := by
  cases target? with
  | none => exact hsound.extends_of_same rfl rfl
  | some target =>
      apply hsound.addChildren
      intro symbol hmem
      obtain ⟨token, -, rfl⟩ := List.mem_map.1 hmem
      exact plain_variableOf _ _ _

theorem Sound.declareCaught (tree : Tree) :
    Extends [] state (declareCaught doc tree state) := by
  rw [Reading.declareCaught]
  split
  · exact hsound.extends_of_same rfl rfl
  · exact hsound.addChild (plain_variableOf _ _ _).toFits

end DeclarationState

end SymbolIndex.Reading
