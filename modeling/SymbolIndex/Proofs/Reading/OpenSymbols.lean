import Mathlib.Data.List.Forall2
import SymbolIndex.Proofs.Symbol.Nests
import SymbolIndex.Reading.Declarations

/-!
# Open symbols

The walk that reads declarations keeps the symbols of the declarations around on
a stack, the root below them.  Going through a part of the tree adds to the
innermost of them and leaves all heads as they are.  A declaration is opened on
top of the stack, and when it is closed it is added with all that was declared
inside.
-/

namespace SymbolIndex.Reading

open SymbolIndex.Symbol

/-! ## Stacks of open symbols -/

/-- The innermost symbol of a stack grows, the others stay as they are. -/
inductive Grows (added : List Nest) : List Symbol → List Symbol → Prop
  | intro {top grown : Symbol} {rest others : List Symbol} (htop : top.Grown added grown)
      (hrest : List.Forall₂ (Grown []) rest others) : Grows added (top :: rest) (grown :: others)

theorem forall₂_grown_refl (stack : List Symbol) : List.Forall₂ (Grown []) stack stack :=
  List.forall₂_same.2 fun symbol _ => Grown.refl symbol

theorem forall₂_grown_trans {before middle after : List Symbol}
    (hleft : List.Forall₂ (Grown []) before middle)
    (hright : List.Forall₂ (Grown []) middle after) :
    List.Forall₂ (Grown []) before after := by
  induction hleft generalizing after with
  | nil => exact hright
  | cons hfirst _ ih =>
      cases hright with
      | cons hsecond hrest => exact List.Forall₂.cons (hfirst.trans hsecond) (ih hrest)

/-- What a stack grows by in two steps is added up. -/
theorem Grows.trans {first second : List Nest} {before middle after : List Symbol}
    (hleft : Grows first before middle) (hright : Grows second middle after) :
    Grows (first ++ second) before after := by
  cases hleft with
  | intro htop hrest =>
      cases hright with
      | intro htop' hrest' =>
          exact Grows.intro (htop.trans htop') (forall₂_grown_trans hrest hrest')

theorem Grows.sameHeads {added : List Nest} {before after : List Symbol}
    (hgrows : Grows added before after) : List.Forall₂ SameHead before after := by
  cases hgrows with
  | intro htop hrest =>
      exact List.Forall₂.cons htop.toSameHead (hrest.imp fun _ _ hgrown => hgrown.toSameHead)

theorem forall_container_congr {before after : List Symbol}
    (hheads : List.Forall₂ SameHead before after)
    (hbefore : ∀ symbol ∈ before, symbol.isDeclaration = true ∨ symbol.kind = .file) :
    ∀ symbol ∈ after, symbol.isDeclaration = true ∨ symbol.kind = .file := by
  induction hheads with
  | nil => exact hbefore
  | cons hhead _ ih =>
      obtain ⟨hfirst, hrest⟩ := List.forall_mem_cons.1 hbefore
      refine List.forall_mem_cons.2 ⟨?_, ih hrest⟩
      rwa [hhead.isDeclaration, hhead.kind]

/-- The names of the class-like symbols of a stack. -/
def classNames (stack : List Symbol) : List String :=
  (stack.filter (·.kind.isClassLike)).map (·.name)

theorem classNames_congr {before after : List Symbol}
    (hheads : List.Forall₂ SameHead before after) : classNames after = classNames before := by
  induction hheads with
  | nil => rfl
  | @cons first second _ _ hhead _ ih =>
      rw [classNames, List.filter_cons, hhead.kind, classNames, List.filter_cons]
      split
      · rw [List.map_cons, List.map_cons, hhead.name]
        exact congrArg _ ih
      · exact ih

namespace DeclarationState

/-- The open symbols, innermost first, down to the root. -/
def stack (state : DeclarationState) : List Symbol :=
  state.opened ++ [state.root]

/-- The stack of the walk is tidy, and the class-like symbols on it are the
classes that names are resolved in. -/
structure Sound (state : DeclarationState) : Prop where
  tidy : ∀ symbol ∈ state.stack, symbol.Tidy
  containers : ∀ symbol ∈ state.stack, symbol.isDeclaration = true ∨ symbol.kind = .file
  classes : classNames state.stack = state.resolver.classes.map (·.name)

/-- Between the states before and after a part of the tree. -/
structure Extends (added : List Nest) (before after : DeclarationState) : Prop where
  stack : Grows added before.stack after.stack
  classes : after.resolver.classes = before.resolver.classes
  sound : after.Sound

/-- What two steps add is added up. -/
theorem Extends.trans {first second : List Nest} {before middle after : DeclarationState}
    (hleft : Extends first before middle) (hright : Extends second middle after) :
    Extends (first ++ second) before after where
  stack := hleft.stack.trans hright.stack
  classes := hright.classes.trans hleft.classes
  sound := hright.sound

theorem grows_refl (state : DeclarationState) : Grows [] state.stack state.stack := by
  rw [stack]
  cases state.opened with
  | nil => exact Grows.intro (Grown.refl _) List.Forall₂.nil
  | cons top rest => exact Grows.intro (Grown.refl _) (forall₂_grown_refl _)

theorem declaringType?_congr {before after : DeclarationState}
    (hclasses : after.resolver.classes = before.resolver.classes) :
    after.declaringType? = before.declaringType? := by
  rw [declaringType?, declaringType?, NameResolver.className?, NameResolver.className?, hclasses]

/-- Heads and classes decide what is sound of a stack that is tidy. -/
theorem sound_of_grows {added : List Nest} {before after : DeclarationState}
    (hbefore : before.Sound) (hgrows : Grows added before.stack after.stack)
    (hclasses : after.resolver.classes = before.resolver.classes)
    (htidy : ∀ symbol ∈ after.stack, symbol.Tidy) : after.Sound where
  tidy := htidy
  containers := forall_container_congr hgrows.sameHeads hbefore.containers
  classes := by rw [classNames_congr hgrows.sameHeads, hbefore.classes, hclasses]

/-! ## Adding children -/

theorem grown_withChild (owner child : Symbol) :
    owner.Grown child.nests (withChild owner child) := by
  rw [withChild]
  split
  · rename_i hknown
    have hlocal : child.kind = .localVariable := beq_iff_eq.1 (Bool.and_eq_true_iff.1 hknown).1
    have hplain : child.isDeclaration = false := by
      rw [Symbol.isDeclaration, hlocal]
      rfl
    rw [nests_of_not_declaration hplain]
    exact Grown.refl owner
  · have hgrown := grown_append owner [child]
    rwa [nestsAll, nestsAll, List.append_nil] at hgrown

/-- An owner stays tidy with a child that fits. -/
theorem tidy_withChild {owner child : Symbol} {scope : Option String} (howner : owner.Tidy)
    (hchild : child.Fits scope)
    (hcontainer : owner.isDeclaration = true ∨ owner.kind = .file)
    (hscope : owner.kind.isClassLike = true → scope = some (shortName owner.name)) :
    (withChild owner child).Tidy := by
  rw [withChild]
  split
  · exact howner
  · rename_i hunknown
    refine howner.append hchild (fun _ => hcontainer) hscope ?_
    intro hlocal _ earlier hearlier hvariable hname
    apply hunknown
    rw [isKnownVariable, hlocal, Bool.and_eq_true]
    exact ⟨rfl, List.any_eq_true.2 ⟨earlier, hearlier, by simp [hvariable, hname]⟩⟩

theorem exists_top (state : DeclarationState) :
    ∃ top rest, state.stack = top :: rest := by
  rw [stack]
  cases state.opened with
  | nil => exact ⟨state.root, [], rfl⟩
  | cons top rest => exact ⟨top, rest ++ [state.root], rfl⟩

/-- A child goes to the innermost open symbol. -/
theorem stack_addChild {state : DeclarationState} {top : Symbol} {rest : List Symbol}
    (hstack : state.stack = top :: rest) (child : Symbol) :
    (state.addChild child).stack = withChild top child :: rest := by
  obtain ⟨resolver, root, opened, pending⟩ := state
  cases opened with
  | nil =>
      cases hstack
      rfl
  | cons first others =>
      cases hstack
      rfl

theorem resolver_addChild (state : DeclarationState) (child : Symbol) :
    (state.addChild child).resolver = state.resolver := by
  rw [addChild]
  split
  · rfl
  · rfl

variable {state : DeclarationState}

/-- Inside a class-like symbol, members get its short name as scope. -/
theorem Sound.declaringType?_eq (hsound : state.Sound) {top : Symbol} {rest : List Symbol}
    (hstack : state.stack = top :: rest) (hclass : top.kind.isClassLike = true) :
    state.declaringType? = some (shortName top.name) := by
  have hclasses := hsound.classes
  rw [hstack, classNames, List.filter_cons, if_pos hclass, List.map_cons] at hclasses
  rw [declaringType?, NameResolver.className?, ← List.head?_map, ← hclasses]
  rfl

/-- A child that fits adds its nests. -/
theorem Sound.addChild (hsound : state.Sound) {child : Symbol}
    (hchild : child.Fits state.declaringType?) :
    Extends child.nests state (state.addChild child) := by
  obtain ⟨top, rest, hstack⟩ := exists_top state
  have htidy := hsound.tidy
  have hcontainers := hsound.containers
  rw [hstack, List.forall_mem_cons] at htidy hcontainers
  have hadded := stack_addChild hstack child
  have hgrows : Grows child.nests state.stack (state.addChild child).stack := by
    rw [hstack, hadded]
    exact Grows.intro (grown_withChild top child) (forall₂_grown_refl rest)
  have hclasses := congrArg NameResolver.classes (resolver_addChild state child)
  refine ⟨hgrows, hclasses, sound_of_grows hsound hgrows hclasses ?_⟩
  rw [hadded, List.forall_mem_cons]
  exact ⟨tidy_withChild htidy.1 hchild hcontainers.1 (hsound.declaringType?_eq hstack), htidy.2⟩

/-- A step that leaves the stack and the classes as they are. -/
theorem Sound.extends_of_same (hsound : state.Sound) {after : DeclarationState}
    (hstack : after.stack = state.stack)
    (hclasses : after.resolver.classes = state.resolver.classes) : Extends [] state after where
  stack := by
    rw [hstack]
    exact grows_refl state
  classes := hclasses
  sound := ⟨hstack ▸ hsound.tidy, hstack ▸ hsound.containers, by
    rw [hstack, hclasses, hsound.classes]⟩

/-- Children that are no declarations add nothing. -/
theorem Sound.addChildren (hsound : state.Sound) {symbols : List Symbol}
    (hsymbols : ∀ symbol ∈ symbols, symbol.Plain state.declaringType?) :
    Extends [] state (state.addChildren symbols) := by
  rw [DeclarationState.addChildren]
  induction symbols generalizing state with
  | nil => exact hsound.extends_of_same rfl rfl
  | cons symbol rest ih =>
      obtain ⟨hsymbol, hrest⟩ := List.forall_mem_cons.1 hsymbols
      have hadded := hsound.addChild hsymbol.toFits
      rw [nests_of_not_declaration hsymbol.plain] at hadded
      have hscope := declaringType?_congr hadded.classes
      exact hadded.trans (ih hadded.sound (hscope ▸ hrest))

/-! ## Opening and closing -/

/-- A symbol with which a declaration may be opened. -/
structure Opens (state : DeclarationState) (symbol : Symbol) : Prop where
  declaration : symbol.isDeclaration = true
  tidy : symbol.Tidy
  empty : nestsAll symbol.children = []
  members : symbol.kind.isMember = true → symbol.scope = state.declaringType?

variable {state entered inside : DeclarationState} {symbol : Symbol}

/-- A declaration that may be opened leaves the stack tidy. -/
theorem sound_of_opened (hsound : state.Sound) (hopens : state.Opens symbol)
    (hstack : entered.stack = symbol :: state.stack)
    (hclasses : entered.resolver.classes.map (·.name) =
      classNames [symbol] ++ state.resolver.classes.map (·.name)) : entered.Sound where
  tidy := by
    rw [hstack]
    exact List.forall_mem_cons.2 ⟨hopens.tidy, hsound.tidy⟩
  containers := by
    rw [hstack]
    exact List.forall_mem_cons.2 ⟨Or.inl hopens.declaration, hsound.containers⟩
  classes := by
    rw [hstack, hclasses, ← hsound.classes, classNames, classNames, classNames, ← List.map_append,
      ← List.filter_append]
    rfl

theorem grows_of_forall₂ {others : List Symbol}
    (hothers : List.Forall₂ (Grown []) state.stack others) : Grows [] state.stack others := by
  obtain ⟨top, rest, hstack⟩ := exists_top state
  rw [hstack] at hothers ⊢
  cases hothers with
  | cons htop hrest => exact Grows.intro htop hrest

theorem Opens.isDeclaration_grown (hopens : state.Opens symbol) {inner : List Nest} {top : Symbol}
    (hgrown : symbol.Grown inner top) : top.isDeclaration = true :=
  hgrown.isDeclaration.trans hopens.declaration

/-- At its end a declaration is one nest with what it has grown by. -/
theorem Opens.nests_grown (hopens : state.Opens symbol) {inner : List Nest} {top : Symbol}
    (hgrown : symbol.Grown inner top) :
    top.nests = [.node symbol.kind (shortName symbol.name) symbol.location inner] := by
  rw [nests_eq, hopens.isDeclaration_grown hgrown, if_pos rfl, hgrown.kind, hgrown.name,
    hgrown.location, hgrown.nests, hopens.empty, List.nil_append]

/-- At its end a declaration fits the symbol around. -/
theorem Opens.fits_grown (hopens : state.Opens symbol) {inner : List Nest} {top : Symbol}
    (hgrown : symbol.Grown inner top) (htidy : top.Tidy) : top.Fits state.declaringType? where
  tidy := htidy
  inner := by
    intro hfile
    have hdeclaration := hopens.isDeclaration_grown hgrown
    rw [Symbol.isDeclaration, hfile] at hdeclaration
    cases hdeclaration
  members := by
    rw [hgrown.kind, hgrown.scope]
    exact hopens.members

/-- The symbol of a declaration is added to the one around it, with all that was
declared inside. -/
theorem Sound.close (hsound : state.Sound) (hopens : state.Opens symbol)
    (hinside : inside.Sound) {inner : List Nest}
    (hgrows : Grows inner (symbol :: state.stack) inside.stack) {resolver : NameResolver}
    (hclasses : resolver.classes = state.resolver.classes) :
    Extends [.node symbol.kind (shortName symbol.name) symbol.location inner] state
      { inside.closeSymbol with resolver := resolver } := by
  obtain ⟨insideResolver, root, opened, pending⟩ := inside
  cases opened with
  | nil =>
      -- The stack has at least the symbol and the root.
      cases hgrows with
      | intro _ hrest =>
          have hlength := hrest.length_eq
          rw [stack, List.length_append] at hlength
          cases hlength
  | cons top rest =>
      cases hgrows with
      | intro htop hrest =>
          obtain ⟨htidy, hothers⟩ := List.forall_mem_cons.1 hinside.tidy
          have hgrows := grows_of_forall₂ hrest
          have hbelow : Extends [] state ⟨resolver, root, rest, pending⟩ :=
            ⟨hgrows, hclasses, sound_of_grows hsound hgrows hclasses hothers⟩
          have hfits := hopens.fits_grown htop htidy
          rw [← declaringType?_congr hbelow.classes] at hfits
          have hadded := hbelow.trans (hbelow.sound.addChild hfits)
          rw [hopens.nests_grown htop] at hadded
          cases rest with
          | nil => exact hadded
          | cons next others => exact hadded

end DeclarationState

end SymbolIndex.Reading
