import SymbolIndex.Proofs.Reading.Emissions
import SymbolIndex.Proofs.Reading.Entries

/-!
# Locations of what is read

Whatever is read from a document is located in it: every symbol of its symbol
table, at any depth, and every reference of its reference table.
-/

namespace SymbolIndex

/-! ## Symbols -/

namespace Symbol

/-- The symbol and all below it are located in a document. -/
def Within (uri : String) (symbol : Symbol) : Prop :=
  ∀ part ∈ symbol.preorder, ∃ range, part.location = some ⟨uri, range⟩

theorem within_iff {uri : String} {symbol : Symbol} :
    symbol.Within uri ↔ (∃ range, symbol.location = some ⟨uri, range⟩) ∧
      ∀ child ∈ symbol.children, child.Within uri :=
  forall_mem_preorder_iff

/-- Children within a document may be added. -/
theorem Within.addChildren {uri : String} {symbol other : Symbol} (hwithin : symbol.Within uri)
    {more : List Symbol} (hmore : ∀ child ∈ more, child.Within uri)
    (hlocation : other.location = symbol.location)
    (hchildren : other.children = symbol.children ++ more) : other.Within uri := by
  rw [within_iff] at hwithin ⊢
  rw [hlocation, hchildren]
  exact ⟨hwithin.1, List.forall_mem_append.2 ⟨hwithin.2, hmore⟩⟩

/-- A symbol without children is within the document that it is located in. -/
theorem within_of_location {uri : String} {symbol : Symbol} {range : Range}
    (hlocation : symbol.location = some ⟨uri, range⟩) (hchildren : symbol.children = []) :
    symbol.Within uri :=
  forall_mem_preorder_of_leaf hchildren ⟨range, hlocation⟩

end Symbol

namespace Reading

variable {doc : Document}

/-! ### What a phrase declares -/

theorem ReadFromElement.within {element : Tree} {comment : Option DocComment} {symbol : Symbol}
    (hread : ReadFromElement doc element comment symbol) : symbol.Within doc.uri :=
  Symbol.within_of_location hread.location hread.children

/-- Parameters are located in the document. -/
theorem within_withSignature {symbol : Symbol} (hsymbol : symbol.Within doc.uri)
    (resolver : NameResolver) (header? : Option Tree) (comment : Option DocComment) :
    (withSignature doc resolver header? comment symbol).Within doc.uri := by
  cases header? with
  | none => exact hsymbol
  | some header =>
      have hparameters : ∀ child ∈ parametersOf doc resolver comment header,
          child.Within doc.uri := by
        intro child hchild
        obtain ⟨element, -, hread, -⟩ := exists_element_of_mem_parametersOf hchild
        exact hread.within
      exact hsymbol.addChildren hparameters rfl rfl

theorem within_functionOf (state : DeclarationState) (tree : Tree) :
    (functionOf doc state tree).Within doc.uri :=
  within_withSignature (Symbol.within_of_location rfl rfl) _ _ _

theorem within_methodOf (state : DeclarationState) (tree : Tree) :
    (methodOf doc state tree).Within doc.uri :=
  within_withSignature (Symbol.within_of_location rfl rfl) _ _ _

theorem within_closureOf (state : DeclarationState) (tree : Tree) :
    (closureOf doc state tree).Within doc.uri := by
  have hcaptured : ∀ child ∈ capturedBy doc (tree.childPhrase? .anonymousFunctionHeader),
      child.Within doc.uri := by
    intro child hchild
    obtain ⟨leaf, hcaptured⟩ := exists_captured_of_mem_capturedBy hchild
    exact Symbol.within_of_location hcaptured.location hcaptured.children
  refine (within_withSignature ?_ _ _ _).addChildren hcaptured rfl rfl
  exact Symbol.within_of_location rfl rfl

theorem within_magicMember (state : DeclarationState) (range : Range) (tag : DocTag)
    (kind : SymbolKind) (modifiers : Modifiers) {children : List Symbol}
    (hchildren : ∀ child ∈ children, child.Within doc.uri) :
    (magicMember doc state range tag kind modifiers children).Within doc.uri :=
  Symbol.within_iff.2 ⟨⟨range, rfl⟩, hchildren⟩

/-- Magic members are located in the document. -/
theorem within_withComment (state : DeclarationState) {symbol : Symbol}
    (hsymbol : symbol.Within doc.uri) : (withComment doc state symbol).Within doc.uri := by
  rw [withComment]
  split
  · exact hsymbol
  · rename_i comment range hpending
    have hproperties : ∀ child ∈ comment.propertyTags.map (magicProperty doc state range),
        child.Within doc.uri := by
      intro child hchild
      obtain ⟨tag, -, rfl⟩ := List.mem_map.1 hchild
      exact within_magicMember state range tag _ _ (fun _ hmem => absurd hmem List.not_mem_nil)
    have hmethods : ∀ child ∈ comment.methodTags.map (magicMethod doc state range),
        child.Within doc.uri := by
      intro child hchild
      obtain ⟨tag, -, rfl⟩ := List.mem_map.1 hchild
      apply within_magicMember
      intro parameter hparameter
      obtain ⟨given, -, rfl⟩ := List.mem_map.1 hparameter
      exact Symbol.within_of_location rfl rfl
    exact hsymbol.addChildren (List.forall_mem_append.2 ⟨hproperties, hmethods⟩) rfl
      (List.append_assoc _ _ _)

variable {state : DeclarationState} {kind : PhraseKind} {symbol : Symbol}

/-- What a declaration opens is located in the document. -/
theorem within_of_declaresScope {tree : Tree} (hdeclares : declaresScope kind = true)
    (hmem : symbol ∈ broughtBy doc state kind tree) : symbol.Within doc.uri := by
  cases kind
  case functionDeclaration =>
    rw [List.mem_singleton.1 hmem]
    exact within_functionOf state tree
  case methodDeclaration =>
    rw [List.mem_singleton.1 hmem]
    exact within_methodOf state tree
  case anonymousFunctionCreationExpression =>
    rw [List.mem_singleton.1 hmem]
    exact within_closureOf state tree
  case classDeclaration | interfaceDeclaration | traitDeclaration =>
    rw [List.mem_singleton.1 hmem]
    exact within_withComment _ (Symbol.within_of_location rfl rfl)
  all_goals cases hdeclares

/-- Whatever a phrase brings is located in the document. -/
theorem within_of_mem_broughtBy {children : List Tree}
    (hmem : symbol ∈ broughtBy doc state kind (.phrase kind children)) :
    symbol.Within doc.uri := by
  cases brought_of_mem_broughtBy hmem with
  | mark _ hsymbol | target _ _ _ hsymbol =>
      rw [hsymbol]
      exact Symbol.within_of_location rfl rfl
  | clause _ _ _ _ hread => exact Symbol.within_of_location hread.location hread.children
  | declaration hdeclares _ => exact within_of_declaresScope hdeclares hmem
  | element _ _ hread _ => exact hread.within

end Reading

/-- Every symbol of a document's table is located in the document. -/
theorem SymbolTable.exists_location_of_mem_symbols {doc : Document} {symbol : Symbol}
    (hmem : symbol ∈ (SymbolTable.ofDocument doc).symbols) :
    ∃ range, symbol.location = some ⟨doc.uri, range⟩ := by
  have hlasting := @Reading.lasting_preorder
    (fun symbol => ∃ range, symbol.location = some ⟨doc.uri, range⟩)
    fun _ _ _ howner => howner
  obtain ⟨child, hchild, hbelow⟩ := Symbol.mem_preorderAll_iff.1 hmem
  exact Reading.forall_mem_root_children hlasting
    (fun _ _ _ _ _ hbrought => Reading.within_of_mem_broughtBy hbrought) child hchild symbol hbelow

/-- Every reference of a document's table is located in the document. -/
theorem ReferenceTable.uri_of_mem_references {doc : Document} {table : SymbolTable}
    {source : SymbolSource} {reference : Reference}
    (hmem : reference ∈ (ReferenceTable.ofDocument doc table source).references) :
    reference.location.uri = doc.uri := by
  have hadmits : Reading.Admits doc fun reference => reference.location.uri = doc.uri :=
    ⟨fun _ _ hreference => hreference, fun _ _ hlocation => hlocation⟩
  exact forall_mem_references hadmits
    (fun leaf _ other hlocation => congrArg Location.uri hlocation) reference hmem

end SymbolIndex
