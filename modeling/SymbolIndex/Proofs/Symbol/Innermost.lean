import SymbolIndex.Proofs.Symbol.Nests

/-!
# The innermost scope at a position

A lookup by position goes down through the symbols that cover the position.  If
every scope among them is a declaration, and of the declarations inside of each
symbol at most one covers the position, then the innermost scope is reached by
going down along the nests of declarations.
-/

namespace SymbolIndex

def Nest.location : Nest → Option Location
  | .node _ _ location _ => location

def Nest.covers (nest : Nest) (position : Position) : Bool :=
  nest.location.any (·.range.contains position)

namespace Symbol

/-- The symbol reached by a path of places, counting declarations only. -/
def declaredAt? (symbol : Symbol) : List Nat → Option Symbol
  | [] => some symbol
  | place :: rest =>
    (symbol.children.filter (·.isDeclaration))[place]? >>= fun child => child.declaredAt? rest

/-- The innermost scope below the symbol at a position, else the symbol. -/
def innermostScope (symbol : Symbol) (position : Position) : Symbol :=
  ((enclosingAll position symbol.children).filter (·.kind.isScope)).getLast?.getD symbol

variable {position : Position} {symbol : Symbol}

/-! ## Declarations among children -/

/-- The nest of a declaration. -/
def nest (symbol : Symbol) : Nest :=
  .node symbol.kind (shortName symbol.name) symbol.location (nestsAll symbol.children)

theorem nestsAll_eq_map (symbols : List Symbol) :
    nestsAll symbols = (symbols.filter (·.isDeclaration)).map nest := by
  induction symbols with
  | nil => rfl
  | cons symbol rest ih =>
      rw [nestsAll, nests_eq, ih, List.filter_cons]
      split
      · rfl
      · rfl

theorem covers_nest (symbol : Symbol) (position : Position) :
    symbol.nest.covers position = symbol.covers position := by
  rw [Nest.covers, nest, Nest.location, covers, range?, Option.any_map]

/-- The declaration behind a nest among those of some symbols. -/
theorem exists_of_nestsAll_eq {symbols : List Symbol} {before after : List Nest} {node : Nest}
    (hnests : nestsAll symbols = before ++ node :: after) :
    ∃ front child back, symbols = front ++ child :: back ∧ child.isDeclaration = true ∧
      child.nest = node ∧ nestsAll front = before ∧ nestsAll back = after ∧
      (symbols.filter (·.isDeclaration))[before.length]? = some child := by
  rw [nestsAll_eq_map, List.map_eq_append_iff] at hnests
  obtain ⟨earlier, later, hdeclared, hbefore, hnode⟩ := hnests
  obtain ⟨child, rest, rfl, hchild, hafter⟩ := List.map_eq_cons_iff.1 hnode
  obtain ⟨front, middle, rfl, hfront, hmiddle⟩ := List.filter_eq_append_iff.1 hdeclared
  obtain ⟨skipped, back, rfl, hskipped, hdeclaration, hback⟩ := List.filter_eq_cons_iff.1 hmiddle
  refine ⟨front ++ skipped, child, back, (List.append_assoc _ _ _).symm, hdeclaration, hchild,
    ?_, ?_, ?_⟩
  · have hnone : nestsAll skipped = [] := nestsAll_eq_nil fun other hother =>
      Bool.eq_false_iff.2 (hskipped other hother)
    rw [nestsAll_append, hnone, List.append_nil, nestsAll_eq_map, hfront, hbefore]
  · rw [nestsAll_eq_map, hback, hafter]
  · rw [hdeclared, ← hbefore, List.length_map, List.getElem?_append_right (Nat.le_refl _),
      Nat.sub_self]
    rfl

/-! ## Symbols that cover a position -/

mutual

/-- What encloses a position covers it. -/
theorem covers_of_mem_enclosing (position : Position) : (symbol : Symbol) →
    ∀ part ∈ symbol.enclosing position, part.covers position = true
  | ⟨_, _, _, _, _, _, _, children, _, _⟩ => by
      intro part hpart
      rw [enclosing] at hpart
      split at hpart
      · rename_i hcovers
        rcases List.mem_cons.1 hpart with rfl | hbelow
        · exact hcovers
        · exact covers_of_mem_enclosingAll position children part hbelow
      · exact absurd hpart List.not_mem_nil

theorem covers_of_mem_enclosingAll (position : Position) : (symbols : List Symbol) →
    ∀ part ∈ enclosingAll position symbols, part.covers position = true
  | [] => fun _ hpart => absurd hpart List.not_mem_nil
  | symbol :: rest => by
      intro part hpart
      rw [enclosingAll] at hpart
      rcases List.mem_append.1 hpart with hfirst | hlater
      · exact covers_of_mem_enclosing position symbol part hfirst
      · exact covers_of_mem_enclosingAll position rest part hlater

end

theorem enclosingAll_append (position : Position) (left right : List Symbol) :
    enclosingAll position (left ++ right) =
      enclosingAll position left ++ enclosingAll position right := by
  induction left with
  | nil => rfl
  | cons symbol rest ih => rw [List.cons_append, enclosingAll, enclosingAll, ih, List.append_assoc]

theorem enclosing_of_covers (hcovers : symbol.covers position = true) :
    symbol.enclosing position = symbol :: enclosingAll position symbol.children := by
  cases symbol
  rw [enclosing, if_pos hcovers]

theorem enclosing_of_not_covers (hmisses : symbol.covers position = false) :
    symbol.enclosing position = [] := by
  cases symbol
  rw [enclosing, if_neg (Bool.eq_false_iff.1 hmisses)]

/-! ## Scopes that cover a position -/

/-- The symbol may have declarations below, and all scopes below that cover a
position are declarations. -/
structure ScopesDeclared (position : Position) (symbol : Symbol) : Prop where
  tidy : symbol.Tidy
  scopes : ∀ part ∈ preorderAll symbol.children, part.kind.isScope = true →
    part.covers position = true → part.isDeclaration = true

theorem ScopesDeclared.child {child : Symbol} (hscopes : ScopesDeclared position symbol)
    (hchild : child ∈ symbol.children) : ScopesDeclared position child where
  tidy := (tidy_iff.1 hscopes.tidy).2 child hchild
  scopes part hpart := hscopes.scopes part
    (mem_preorderAll_iff.2 ⟨child, hchild, mem_preorder_iff.2 (Or.inr hpart)⟩)

mutual

/-- Nothing below a symbol that is no declaration is one. -/
theorem not_isDeclaration_of_mem_preorder : (symbol : Symbol) → symbol.Tidy →
    symbol.kind ≠ .file → symbol.isDeclaration = false →
    ∀ part ∈ symbol.preorder, part.isDeclaration = false
  | ⟨kind, name, location, modifiers, doc, type, associated, children, scope, value⟩ => by
      intro htidy hfile hplain
      obtain ⟨horderly, hchildren⟩ := tidy_iff.1 htidy
      refine forall_mem_preorder_iff.2 ⟨hplain, ?_⟩
      refine not_isDeclaration_of_mem_children children hchildren horderly.inner ?_
      intro child hchild
      rw [← Bool.not_eq_true]
      intro hdeclaration
      rcases horderly.nested child hchild hdeclaration with howner | hroot
      · rw [hplain] at howner
        cases howner
      · exact hfile hroot

/-- Below what is no declaration there is none. -/
theorem not_isDeclaration_of_mem_children : (symbols : List Symbol) →
    (∀ symbol ∈ symbols, symbol.Tidy) → (∀ symbol ∈ symbols, symbol.kind ≠ .file) →
    (∀ symbol ∈ symbols, symbol.isDeclaration = false) →
    ∀ symbol ∈ symbols, ∀ part ∈ symbol.preorder, part.isDeclaration = false
  | [] => fun _ _ _ _ hmem => absurd hmem List.not_mem_nil
  | symbol :: rest => by
      intro htidy hfile hplain
      rw [List.forall_mem_cons] at htidy hfile hplain
      exact List.forall_mem_cons.2
        ⟨not_isDeclaration_of_mem_preorder symbol htidy.1 hfile.1 hplain.1,
          not_isDeclaration_of_mem_children rest htidy.2 hfile.2 hplain.2⟩

end

/-- Where no declaration covers the position, no scope does. -/
theorem scopes_eq_nil {symbols : List Symbol} (hscopes : ScopesDeclared position symbol)
    (hsubset : symbols ⊆ symbol.children)
    (hmisses : ∀ nest ∈ nestsAll symbols, nest.covers position = false) :
    (enclosingAll position symbols).filter (·.kind.isScope) = [] := by
  induction symbols with
  | nil => rfl
  | cons child rest ih =>
      obtain ⟨hchild, hrest⟩ := List.cons_subset.1 hsubset
      rw [nestsAll, List.forall_mem_append] at hmisses
      have hfirst : (child.enclosing position).filter (·.kind.isScope) = [] := by
        cases hdeclaration : child.isDeclaration with
        | true =>
            have hcovers : child.nest.covers position = false := by
              apply hmisses.1
              rw [nests_eq, if_pos hdeclaration]
              exact List.mem_singleton.2 rfl
            rw [covers_nest] at hcovers
            rw [enclosing_of_not_covers hcovers]
            rfl
        | false =>
            have hfile := (tidy_iff.1 hscopes.tidy).1.inner child hchild
            have hplain := not_isDeclaration_of_mem_preorder child
              (hscopes.child hchild).tidy hfile hdeclaration
            rw [List.filter_eq_nil_iff]
            intro part hpart hscope
            have hbelow := enclosing_subset_preorder position child hpart
            have hdeclared := hscopes.scopes part (mem_preorderAll_iff.2 ⟨child, hchild, hbelow⟩)
              hscope (covers_of_mem_enclosing position child part hpart)
            rw [hplain part hbelow] at hdeclared
            cases hdeclared
      rw [enclosingAll, List.filter_append, hfirst, ih hrest hmisses.2]
      rfl

/-- Where no declaration covers the position, the symbol itself is the innermost scope. -/
theorem innermostScope_eq_self (hscopes : ScopesDeclared position symbol)
    (hmisses : ∀ nest ∈ nestsAll symbol.children, nest.covers position = false) :
    symbol.innermostScope position = symbol := by
  rw [innermostScope, scopes_eq_nil hscopes (List.Subset.refl _) hmisses]
  rfl

/-- Where one declaration covers the position, the innermost scope is that below it. -/
theorem innermostScope_eq_of_covers {front back : List Symbol} {child : Symbol}
    (hscopes : ScopesDeclared position symbol)
    (hchildren : symbol.children = front ++ child :: back)
    (hdeclaration : child.isDeclaration = true) (hcovers : child.covers position = true)
    (hfront : ∀ nest ∈ nestsAll front, nest.covers position = false)
    (hback : ∀ nest ∈ nestsAll back, nest.covers position = false) :
    symbol.innermostScope position = child.innermostScope position := by
  have hnone : (enclosingAll position front).filter (·.kind.isScope) = [] := by
    apply scopes_eq_nil hscopes _ hfront
    rw [hchildren]
    exact List.subset_append_left _ _
  have hnoneBehind : (enclosingAll position back).filter (·.kind.isScope) = [] := by
    apply scopes_eq_nil hscopes _ hback
    rw [hchildren]
    exact fun _ hmem => List.mem_append_right _ (List.mem_cons_of_mem _ hmem)
  have hscope : child.kind.isScope = true := by
    rw [isDeclaration, Bool.and_eq_true, Bool.and_eq_true] at hdeclaration
    exact hdeclaration.1.1
  rw [innermostScope, hchildren, enclosingAll_append, enclosingAll, List.filter_append,
    List.filter_append, hnone, hnoneBehind, enclosing_of_covers hcovers, List.nil_append,
    List.append_nil, List.filter_cons, if_pos hscope, List.getLast?_cons]
  rfl

end Symbol

end SymbolIndex
