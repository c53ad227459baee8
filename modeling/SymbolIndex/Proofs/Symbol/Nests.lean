import SymbolIndex.Proofs.Symbol.Declared

/-!
# Nests of declarations

Of the symbols below another one, those that stand for declarations of the
source text form a nest: what was declared, with what was declared inside.  A
symbol is orderly if only declarations and the file have declarations below
them, if its members name it as their scope, and if no local variable comes twice.

While a symbol is open, children are added at the end.  Its nest grows by theirs,
and it stays orderly.
-/

namespace SymbolIndex

/-! ## Modifiers of declarations -/

namespace Modifiers

theorem bits_union_and (left right part : Modifiers) :
    (left ∪ right).bits &&& part.bits =
      (left.bits &&& part.bits) ||| (right.bits &&& part.bits) := by
  have hunion : (left ∪ right).bits = left.bits ||| right.bits := rfl
  rw [hunion]
  apply UInt32.toBitVec_inj.1
  ext place
  simp [Bool.and_or_distrib_right]

theorem meets_union {left right part : Modifiers} :
    (left ∪ right).meets part = false ↔ left.meets part = false ∧ right.meets part = false := by
  simp [meets, bits_union_and]

theorem containsAll_union {left right part : Modifiers} (hleft : left.containsAll part = true) :
    (left ∪ right).containsAll part = true := by
  rw [containsAll, beq_iff_eq] at hleft ⊢
  rw [bits_union_and, hleft]
  apply UInt32.toBitVec_inj.1
  ext place
  simp only [UInt32.toBitVec_or, UInt32.toBitVec_and, BitVec.getElem_or, BitVec.getElem_and]
  cases part.bits.toBitVec[place]
  · exact Bool.and_false _
  · exact Bool.true_or _

theorem containsAll_of_meets {modifiers part : Modifiers} (hpart : part.bits ≠ 0)
    (hnone : modifiers.meets part = false) : modifiers.containsAll part = false := by
  rw [meets, bne_eq_false_iff_eq] at hnone
  rw [containsAll, hnone, beq_eq_false_iff_ne]
  exact hpart.symm

/-- Nothing that marks imports, or members that only a comment declares. -/
structure Written (modifiers : Modifiers) : Prop where
  magic : modifiers.meets .magic = false
  isUse : modifiers.meets .isUse = false

theorem written_empty : Written .empty :=
  ⟨by decide, by decide⟩

theorem Written.union {left right : Modifiers} (hleft : left.Written) (hright : right.Written) :
    (left ∪ right).Written where
  magic := meets_union.2 ⟨hleft.magic, hright.magic⟩
  isUse := meets_union.2 ⟨hleft.isUse, hright.isUse⟩

end Modifiers

/-! ## Nests of declarations -/

/-- A declaration, with the declarations inside. -/
inductive Nest where
  | node (kind : SymbolKind) (name : String) (location : Option Location) (inner : List Nest)

namespace Symbol

/-- The symbol of a declaration that stands in the source text. -/
def isDeclaration (symbol : Symbol) : Bool :=
  symbol.kind.isScope && !symbol.isUse && !symbol.modifiers.containsAll .magic

mutual

/-- The nest of a symbol, if it is one of a declaration. -/
def nests : Symbol → List Nest
  | symbol@⟨kind, name, location, _, _, _, _, children, _, _⟩ =>
    if symbol.isDeclaration then [.node kind (shortName name) location (nestsAll children)] else []

def nestsAll : List Symbol → List Nest
  | [] => []
  | symbol :: rest => nests symbol ++ nestsAll rest

end

end Symbol

/-! ## Symbols that grow -/

namespace Symbol

theorem nests_eq (symbol : Symbol) :
    symbol.nests =
      if symbol.isDeclaration then
        [.node symbol.kind (shortName symbol.name) symbol.location (nestsAll symbol.children)]
      else [] := by
  cases symbol
  rfl

theorem nests_of_not_declaration {symbol : Symbol} (hplain : symbol.isDeclaration = false) :
    symbol.nests = [] := by
  rw [nests_eq, hplain]
  rfl

theorem nestsAll_append (left right : List Symbol) :
    nestsAll (left ++ right) = nestsAll left ++ nestsAll right := by
  induction left with
  | nil => rfl
  | cons symbol rest ih => rw [List.cons_append, nestsAll, nestsAll, ih, List.append_assoc]

theorem nestsAll_eq_nil {symbols : List Symbol}
    (hplain : ∀ symbol ∈ symbols, symbol.isDeclaration = false) : nestsAll symbols = [] := by
  induction symbols with
  | nil => rfl
  | cons symbol rest ih =>
      obtain ⟨hsymbol, hrest⟩ := List.forall_mem_cons.1 hplain
      rw [nestsAll, nests_of_not_declaration hsymbol, ih hrest]
      rfl

/-- What of a symbol does not change while it is open. -/
structure SameHead (before after : Symbol) : Prop where
  kind : after.kind = before.kind
  name : after.name = before.name
  location : after.location = before.location
  modifiers : after.modifiers = before.modifiers
  scope : after.scope = before.scope

theorem SameHead.refl (symbol : Symbol) : symbol.SameHead symbol :=
  ⟨rfl, rfl, rfl, rfl, rfl⟩

theorem SameHead.trans {before middle after : Symbol} (hleft : before.SameHead middle)
    (hright : middle.SameHead after) : before.SameHead after where
  kind := hright.kind.trans hleft.kind
  name := hright.name.trans hleft.name
  location := hright.location.trans hleft.location
  modifiers := hright.modifiers.trans hleft.modifiers
  scope := hright.scope.trans hleft.scope

theorem SameHead.isDeclaration {before after : Symbol} (hhead : before.SameHead after) :
    after.isDeclaration = before.isDeclaration := by
  rw [Symbol.isDeclaration, Symbol.isDeclaration, isUse, isUse, hhead.kind, hhead.modifiers]

/-- An open symbol to which declarations have been added. -/
structure Grown (added : List Nest) (before after : Symbol) : Prop extends
    before.SameHead after where
  nests : nestsAll after.children = nestsAll before.children ++ added

theorem Grown.refl (symbol : Symbol) : symbol.Grown [] symbol :=
  ⟨⟨rfl, rfl, rfl, rfl, rfl⟩, (List.append_nil _).symm⟩

/-- What is added in two steps is added up. -/
theorem Grown.trans {first second : List Nest} {before middle after : Symbol}
    (hleft : before.Grown first middle) (hright : middle.Grown second after) :
    before.Grown (first ++ second) after where
  kind := hright.kind.trans hleft.kind
  name := hright.name.trans hleft.name
  location := hright.location.trans hleft.location
  modifiers := hright.modifiers.trans hleft.modifiers
  scope := hright.scope.trans hleft.scope
  nests := by rw [hright.nests, hleft.nests, List.append_assoc]

theorem grown_append (owner : Symbol) (more : List Symbol) :
    owner.Grown (nestsAll more) { owner with children := owner.children ++ more } :=
  ⟨⟨rfl, rfl, rfl, rfl, rfl⟩, nestsAll_append owner.children more⟩

/-! ## Orderly children -/

/-- The children of a symbol are what they may be: declarations only below a
declaration or the file, members with the short name of their class as scope,
and no local variable with the name of an earlier one. -/
structure Orderly (owner : Symbol) : Prop where
  nested : ∀ child ∈ owner.children, child.isDeclaration = true →
    owner.isDeclaration = true ∨ owner.kind = .file
  inner : ∀ child ∈ owner.children, child.kind ≠ .file
  members : owner.kind.isClassLike = true → ∀ child ∈ owner.children,
    child.kind.isMember = true → child.scope = some (shortName owner.name)
  distinct : owner.children.Pairwise fun earlier later => later.kind = .localVariable →
    later.isUse = false → earlier.kind.isVariable = true → later.name ≠ earlier.name

/-- The symbol and all below it are orderly. -/
def Tidy (symbol : Symbol) : Prop :=
  ∀ owner ∈ symbol.preorder, owner.Orderly

theorem tidy_iff {symbol : Symbol} :
    symbol.Tidy ↔ symbol.Orderly ∧ ∀ child ∈ symbol.children, child.Tidy :=
  forall_mem_preorder_iff

theorem tidy_of_children_nil {symbol : Symbol} (hnone : symbol.children = []) :
    symbol.Tidy := by
  refine tidy_iff.2 ⟨⟨?_, ?_, fun _ => ?_, ?_⟩, ?_⟩
  all_goals rw [hnone]
  · exact fun _ hmem => absurd hmem List.not_mem_nil
  · exact fun _ hmem => absurd hmem List.not_mem_nil
  · exact fun _ hmem => absurd hmem List.not_mem_nil
  · exact List.Pairwise.nil
  · exact fun _ hmem => absurd hmem List.not_mem_nil

mutual

/-- All that is in a symbol is the symbol itself, or a child of something in it. -/
theorem eq_or_mem_children_of_mem_preorder :
    (symbol : Symbol) → ∀ part ∈ symbol.preorder,
      part = symbol ∨ ∃ owner ∈ symbol.preorder, part ∈ owner.children
  | ⟨_, _, _, _, _, _, _, children, _, _⟩ => by
      intro part hpart
      rw [preorder] at hpart ⊢
      rcases List.mem_cons.1 hpart with rfl | hbelow
      · exact Or.inl rfl
      · right
        rcases mem_or_mem_children_of_mem_preorderAll children part hbelow with
          hchild | ⟨owner, howner, hchild⟩
        · exact ⟨_, List.mem_cons_self, hchild⟩
        · exact ⟨owner, List.mem_cons_of_mem _ howner, hchild⟩

theorem mem_or_mem_children_of_mem_preorderAll :
    (symbols : List Symbol) → ∀ part ∈ preorderAll symbols,
      part ∈ symbols ∨ ∃ owner ∈ preorderAll symbols, part ∈ owner.children
  | [] => fun _ hpart => absurd hpart List.not_mem_nil
  | symbol :: rest => by
      intro part hpart
      rw [preorderAll] at hpart ⊢
      rcases List.mem_append.1 hpart with hfirst | hrest
      · rcases eq_or_mem_children_of_mem_preorder symbol part hfirst with
          rfl | ⟨owner, howner, hchild⟩
        · exact Or.inl List.mem_cons_self
        · exact Or.inr ⟨owner, List.mem_append_left _ howner, hchild⟩
      · rcases mem_or_mem_children_of_mem_preorderAll rest part hrest with
          hmem | ⟨owner, howner, hchild⟩
        · exact Or.inl (List.mem_cons_of_mem _ hmem)
        · exact Or.inr ⟨owner, List.mem_append_right _ howner, hchild⟩

end

theorem Tidy.kind_ne_file {symbol : Symbol} (htidy : symbol.Tidy) :
    ∀ part ∈ preorderAll symbol.children, part.kind ≠ .file := by
  intro part hpart
  rcases mem_or_mem_children_of_mem_preorderAll symbol.children part hpart with
    hchild | ⟨owner, howner, hchild⟩
  · exact (htidy symbol (mem_preorder_iff.2 (Or.inl rfl))).inner part hchild
  · exact (htidy owner (mem_preorder_iff.2 (Or.inr howner))).inner part hchild

/-- A symbol that may be added where members have a given scope. -/
structure Fits (scope : Option String) (child : Symbol) : Prop where
  tidy : child.Tidy
  inner : child.kind ≠ .file
  members : child.kind.isMember = true → child.scope = scope

/-- A symbol that may be added anywhere there, as it is no declaration. -/
structure Plain (scope : Option String) (child : Symbol) : Prop extends child.Fits scope where
  plain : child.isDeclaration = false

/-- What is no declaration and has no children may be added anywhere, if its scope is right. -/
theorem plain_of_children_nil {scope : Option String} {symbol : Symbol}
    (hnone : symbol.children = []) (hplain : symbol.isDeclaration = false)
    (hinner : symbol.kind ≠ .file)
    (hmember : symbol.kind.isMember = true → symbol.scope = scope) : symbol.Plain scope :=
  ⟨⟨tidy_of_children_nil hnone, hinner, hmember⟩, hplain⟩

/-- Variables may be added anywhere. -/
theorem plain_of_isVariable {scope : Option String} {symbol : Symbol}
    (hvariable : symbol.kind.isVariable = true) (hnone : symbol.children = []) :
    symbol.Plain scope := by
  have hkind : symbol.kind.isScope = false ∧ symbol.kind ≠ .file ∧
      symbol.kind.isMember = false := by
    revert hvariable
    cases symbol.kind
    all_goals decide
  apply plain_of_children_nil hnone
  · rw [isDeclaration, hkind.1]
    rfl
  · exact hkind.2.1
  · rw [hkind.2.2]
    exact nofun

/-- Adding a child keeps a symbol tidy, if a local variable is new. -/
theorem Tidy.append {owner child : Symbol} {scope : Option String} (howner : owner.Tidy)
    (hchild : child.Fits scope)
    (hnested : child.isDeclaration = true → owner.isDeclaration = true ∨ owner.kind = .file)
    (hscope : owner.kind.isClassLike = true → scope = some (shortName owner.name))
    (hnew : child.kind = .localVariable → child.isUse = false →
      ∀ earlier ∈ owner.children, earlier.kind.isVariable = true → child.name ≠ earlier.name) :
    Tidy { owner with children := owner.children ++ [child] } := by
  obtain ⟨horderly, hchildren⟩ := tidy_iff.1 howner
  refine tidy_iff.2 ⟨⟨?_, ?_, fun hclass => ?_, ?_⟩, ?_⟩
  · exact List.forall_mem_append.2 ⟨horderly.nested, List.forall_mem_singleton.2 hnested⟩
  · exact List.forall_mem_append.2 ⟨horderly.inner, List.forall_mem_singleton.2 hchild.inner⟩
  · refine List.forall_mem_append.2 ⟨horderly.members hclass, List.forall_mem_singleton.2 ?_⟩
    exact fun hmember => (hchild.members hmember).trans (hscope hclass)
  · refine List.pairwise_append.2 ⟨horderly.distinct, List.pairwise_singleton _ _, ?_⟩
    intro earlier hearlier later hlater hlocal huse hvariable
    obtain rfl := List.mem_singleton.1 hlater
    exact hnew hlocal huse earlier hearlier hvariable
  · exact List.forall_mem_append.2 ⟨hchildren, List.forall_mem_singleton.2 hchild.tidy⟩

/-- Only the head and the children of a symbol matter. -/
theorem Tidy.congr {symbol other : Symbol} (htidy : symbol.Tidy) (hhead : symbol.SameHead other)
    (hchildren : other.children = symbol.children) : other.Tidy := by
  obtain ⟨horderly, hbelow⟩ := tidy_iff.1 htidy
  refine tidy_iff.2 ⟨⟨?_, ?_, ?_, ?_⟩, ?_⟩
  all_goals rw [hchildren]
  · rw [hhead.isDeclaration, hhead.kind]
    exact horderly.nested
  · exact horderly.inner
  · rw [hhead.kind, hhead.name]
    exact horderly.members
  · exact horderly.distinct
  · exact hbelow

/-- What a new symbol starts with. -/
theorem tidy_of_plain {owner : Symbol} {scope : Option String}
    (hplain : ∀ child ∈ owner.children, child.Plain scope)
    (huse : ∀ child ∈ owner.children, child.kind = .localVariable → child.isUse = true)
    (hscope : owner.kind.isClassLike = true → scope = some (shortName owner.name)) :
    owner.Tidy := by
  refine tidy_iff.2 ⟨⟨?_, ?_, fun hclass => ?_, ?_⟩, ?_⟩
  · intro child hchild hdeclaration
    rw [(hplain child hchild).plain] at hdeclaration
    cases hdeclaration
  · exact fun child hchild => (hplain child hchild).inner
  · exact fun child hchild hmember =>
      ((hplain child hchild).members hmember).trans (hscope hclass)
  · apply List.pairwise_of_forall_mem_list
    intro earlier _ later hlater hlocal hunused
    rw [huse later hlater hlocal] at hunused
    cases hunused
  · exact fun child hchild => (hplain child hchild).tidy

end Symbol

end SymbolIndex
