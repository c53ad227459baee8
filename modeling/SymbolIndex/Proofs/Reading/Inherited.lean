import SymbolIndex.Proofs.Hierarchy.Documented
import SymbolIndex.Proofs.Reading.Lookups
import SymbolIndex.Proofs.Text.Occurrences
import SymbolIndex.SymbolStore

/-!
# Inherited documentation

A comment says in a marker that a declaration takes over the documentation of
what it overrides.  Reading a comment looks for the marker in all of it.  The
symbol keeps only the text before the tags, and is asked for the word of the
marker again when members are merged.  The two agree where the text before the
tags has the word exactly if the comment has the marker.
-/

namespace SymbolIndex

open SymbolIndex.Text

namespace DocComment

/-! ## The marker in the parts of a comment -/

/-- The marker that a comment is searched for. -/
def inheritMarker : List Char := "@inheritdoc".toList

/-- The word of the marker, for which the documentation of a symbol is searched. -/
def inheritWord : List Char := "inheritdoc".toList

theorem solid_inheritMarker : Solid inheritMarker where
  ne_nil := by decide
  not_blank := by decide

/-- The tags of a comment as they are written, each with what follows it. -/
def tagChunks (comment : String) : List (List Char) :=
  chunks (lines (content comment.toList))

/-- A line stands before the first tag or in the chunk of one tag. -/
theorem says_text_or_chunk {word : List Char} (hword : Solid word) (lines : List (List Char)) :
    (∃ line ∈ lines, Says word line) ↔
      Says word (joinLines (textLines lines)) ∨ ∃ chunk ∈ chunks lines, Says word chunk := by
  have hjoin : ∀ lines, Says word (joinLines lines) ↔ ∃ line ∈ lines, Says word line :=
    hword.says_intercalate (by decide)
  rw [hjoin]
  induction lines with
  | nil => simp [textLines, chunks]
  | cons line rest ih =>
      rw [textLines] at ih ⊢
      rw [chunks, List.takeWhile_cons]
      cases htag : startsTag line with
      | false =>
          simp only [Bool.not_false, if_true, Bool.false_eq_true, if_false, List.mem_cons,
            exists_eq_or_imp, ih, or_assoc]
      | true =>
          -- A tag takes over the lines that would have been the text without it.
          simp only [Bool.not_true, Bool.false_eq_true, if_false, if_true, List.mem_cons,
            exists_eq_or_imp, hjoin, hword.says_trim, List.not_mem_nil, false_and, exists_false,
            false_or, textLines, ih, or_assoc]

/-- A comment has a word in its text or in one of its tags. -/
theorem says_content {word : List Char} (hword : Solid word) (comment : String) :
    Says word (content comment.toList) ↔
      Says word (parse comment).text.toList ∨ ∃ chunk ∈ tagChunks comment, Says word chunk := by
  rw [← hword.says_lines, says_text_or_chunk hword, parse, String.toList_ofList, hword.says_trim]
  exact Iff.rfl

/-- The marker is found in the text before the tags or in a tag. -/
theorem inheritsDoc_parse_iff (comment : String) :
    (parse comment).inheritsDoc = true ↔
      Says inheritMarker (parse comment).text.toList ∨
        ∃ chunk ∈ tagChunks comment, Says inheritMarker chunk := by
  rw [← says_content solid_inheritMarker]
  exact contains_iff_infix

/-- The text before the tags has the word of the marker exactly if there is a marker, there or in
a tag. -/
structure MarkedInText (comment : String) : Prop where
  of_tag : ∀ chunk ∈ tagChunks comment, Says inheritMarker chunk →
    Says inheritWord (parse comment).text.toList
  of_word : Says inheritWord (parse comment).text.toList →
    Says inheritMarker (parse comment).text.toList ∨
      ∃ chunk ∈ tagChunks comment, Says inheritMarker chunk

/-- Whether a symbol inherits can be told from the comment exactly if the text has the word when
there is a marker. -/
theorem markedInText_iff {comment : String} :
    MarkedInText comment ↔ (Says inheritWord (parse comment).text.toList ↔
      (parse comment).inheritsDoc = true) := by
  rw [inheritsDoc_parse_iff]
  constructor
  · rintro ⟨htag, hword⟩
    refine ⟨hword, ?_⟩
    rintro (htext | ⟨chunk, hchunk, hsaid⟩)
    · exact says_of_infix (by decide) htext
    · exact htag chunk hchunk hsaid
  · intro hiff
    exact ⟨fun chunk hchunk hsaid => hiff.2 (Or.inr ⟨chunk, hchunk, hsaid⟩), hiff.1⟩

instance (comment : String) : Decidable (MarkedInText comment) :=
  decidable_of_iff _ markedInText_iff.symm

/-- A symbol with the text of a comment, and the comment itself. -/
theorem inheritsDoc_eq_parse_iff {symbol : Symbol} {comment type : String}
    (hdoc : symbol.doc = some ⟨(parse comment).text, type⟩) :
    symbol.inheritsDoc = (parse comment).inheritsDoc ↔ MarkedInText comment := by
  have hsymbol : symbol.inheritsDoc = true ↔ Says inheritWord (parse comment).text.toList := by
    rw [Symbol.inheritsDoc, hdoc, Option.any_some]
    exact contains_iff_infix
  rw [markedInText_iff, ← hsymbol]
  exact Bool.eq_iff_iff

end DocComment

namespace Reading

open SymbolIndex.Symbol SymbolIndex.DocComment

variable {doc : Document} {kind : PhraseKind} {children : List Tree} {before : DeclarationState}

/-! ## The documentation of a declaration -/

/-- A function or a method with a header. -/
def hasSignature (kind : PhraseKind) (tree : Tree) : Bool :=
  match kind with
  | .functionDeclaration => (tree.childPhrase? .functionDeclarationHeader).isSome
  | .methodDeclaration => (tree.childPhrase? .methodDeclarationHeader).isSome
  | _ => false

theorem declaresScope_of_hasSignature {tree : Tree} (hsignature : hasSignature kind tree = true) :
    declaresScope kind = true := by
  cases kind
  case functionDeclaration | methodDeclaration => rfl
  all_goals cases hsignature

/-- A function with a header has the text of its comment. -/
theorem exists_doc_withSignature {resolver : NameResolver} {header? : Option Tree}
    (hheader : header?.isSome = true) (comment : DocComment) (symbol : Symbol) :
    ∃ type, (withSignature doc resolver header? (some comment) symbol).doc =
      some ⟨comment.text, type⟩ := by
  obtain ⟨header, rfl⟩ := Option.isSome_iff_exists.1 hheader
  exact ⟨_, rfl⟩

/-- The symbol is opened with the text of the comment that waits. -/
theorem exists_opened_doc {tree : Tree} (hsignature : hasSignature kind tree = true)
    {comment : DocComment} {range : Range} (hwaiting : before.pending = some (comment, range)) :
    ∃ opened ∈ (enterDeclaration doc kind tree before).opened.head?, ∃ type,
      opened.doc = some ⟨comment.text, type⟩ := by
  have hcomment : before.pending.map (·.1) = some comment := by rw [hwaiting, Option.map_some]
  cases kind
  case functionDeclaration =>
    refine ⟨functionOf doc before tree, rfl, ?_⟩
    rw [functionOf, hcomment]
    exact exists_doc_withSignature hsignature comment _
  case methodDeclaration =>
    refine ⟨methodOf doc before tree, rfl, ?_⟩
    rw [methodOf, hcomment]
    exact exists_doc_withSignature hsignature comment _
  all_goals cases hsignature

/-! ## What is built stays in the table -/

/-- The symbol is among those that have been declared. -/
structure Gathers (symbol : Symbol) (state : DeclarationState) : Prop where
  opened : ∀ owner ∈ state.opened, owner.kind.isScope = true
  gathered : symbol ∈ preorderAll state.gathered

variable {symbol : Symbol} {state : DeclarationState}

theorem mem_preorderAll_append {left right : List Symbol} :
    symbol ∈ preorderAll (left ++ right) ↔
      symbol ∈ preorderAll left ∨ symbol ∈ preorderAll right := by
  rw [preorderAll_append, List.mem_append]

theorem additive_isScope :
    Additive fun state => ∀ owner ∈ state.opened, owner.kind.isScope = true :=
  additive_opened fun _ _ hhead hscope => by rwa [hhead.kind]

/-- What has been declared stays declared. -/
theorem additive_gathers (symbol : Symbol) : Additive (Gathers symbol) where
  congr state other hroot hopened hstate := by
    have hgathered : other.gathered = state.gathered := by
      rw [DeclarationState.gathered, DeclarationState.gathered, hroot, hopened]
    exact ⟨hopened ▸ hstate.opened, hgathered ▸ hstate.gathered⟩
  child state child hstate := by
    obtain ⟨added, hgathered, -⟩ := exists_gathered_addChild state child
    refine ⟨additive_isScope.child state child hstate.opened, ?_⟩
    rw [hgathered, mem_preorderAll_append]
    exact Or.inl hstate.gathered
  mark state mark _ _ hstate := by
    have hgathered := hstate.gathered
    rw [DeclarationState.gathered, mem_preorderAll_append] at hgathered
    refine ⟨hstate.opened, ?_⟩
    rw [DeclarationState.gathered, mem_preorderAll_append, mem_preorderAll_append]
    exact hgathered.imp_left Or.inl
  traits state top rest associated hopened hstate := by
    have hgathered := hstate.gathered
    refine ⟨additive_isScope.traits state top rest associated hopened hstate.opened, ?_⟩
    rw [DeclarationState.gathered, hopened] at hgathered
    rw [DeclarationState.gathered]
    simpa using hgathered

/-- A symbol that is closed is listed itself, and lists those below it. -/
theorem Gathers.close (hstate : Gathers symbol state) : Gathers symbol state.closeSymbol := by
  rw [DeclarationState.closeSymbol]
  split
  · exact hstate
  · rename_i top rest hopened
    have hscopes := hstate.opened
    rw [hopened] at hscopes
    obtain ⟨htop, hrest⟩ := List.forall_mem_cons.1 hscopes
    refine ⟨additive_isScope.child _ top hrest, ?_⟩
    have hbefore : state.gathered = { state with opened := rest }.gathered ++ top.children := by
      simp [DeclarationState.gathered, hopened]
    have hgathered := hstate.gathered
    rw [hbefore, mem_preorderAll_append] at hgathered
    rw [gathered_addChild _ htop, mem_preorderAll_append]
    refine hgathered.imp_right fun hbelow => ?_
    exact mem_preorderAll_iff.2 ⟨top, List.mem_cons_self, mem_preorder_iff.2 (Or.inr hbelow)⟩

/-- The walk loses no symbol that has been declared. -/
theorem declarationWalk_keeps_gathers (doc : Document) (symbol : Symbol) :
    (declarationWalk doc).Keeps (Gathers symbol) where
  token leaf state hstate := (additive_gathers symbol).token hstate leaf
  enter kind tree state hstate := by
    cases hdeclares : declaresScope kind with
    | false => exact (additive_gathers symbol).enter hdeclares hstate
    | true =>
        obtain ⟨opened, hmirrors, hroot, hopened⟩ :=
          @exists_opened_enter doc kind tree state hdeclares
        have hgathered : (enterDeclaration doc kind tree state).gathered =
            state.gathered ++ opened.children := by
          simp [DeclarationState.gathered, hroot, hopened]
        constructor
        · intro owner hmem
          have hentered : owner ∈ opened :: state.opened := hopened ▸ hmem
          rcases List.mem_cons.1 hentered with rfl | hbelow
          · exact hmirrors.opens.isScope
          · exact hstate.opened owner hbelow
        · have hentered : symbol ∈ preorderAll (enterDeclaration doc kind tree state).gathered := by
            rw [hgathered, mem_preorderAll_append]
            exact Or.inl hstate.gathered
          exact hentered
  leave kind tree state hstate := by
    cases hdeclares : declaresScope kind with
    | false => exact (additive_gathers symbol).leave hdeclares hstate
    | true =>
        obtain ⟨hroot, hopened⟩ := @leave_of_declaresScope kind tree state hdeclares
        exact (additive_gathers symbol).congr _ _ hroot hopened hstate.close

/-- What is among the declared symbols behind a part of the tree is in the table. -/
theorem mem_symbols_of_gathers {part : Tree}
    (hvisits : (declarationWalk doc).Visits doc.tree (DeclarationState.start doc) part before)
    (hgathers : Gathers symbol ((declarationWalk doc).run part before)) :
    symbol ∈ (SymbolTable.ofDocument doc).symbols := by
  obtain ⟨layers, htree, hdescends, hbefore⟩ := Walk.exists_layers_of_visits hvisits
  have hkeeps := declarationWalk_keeps_gathers doc symbol
  rw [hbefore] at hgathers
  have hend := Walk.run_wrap_of_keeps hdescends hgathers
    (fun sibling _ state hstate => hkeeps.run sibling state hstate) hkeeps.leave
  rw [← htree] at hend
  rw [symbols_ofDocument]
  exact hend.gathered

/-- The symbol that is built from a declaration is in the table, with the
documentation with which it was opened. -/
theorem exists_built_of_visits (hdeclares : declaresScope kind = true)
    (hvisits : (declarationWalk doc).Visits doc.tree (DeclarationState.start doc)
      (.phrase kind children) before) :
    ∃ symbol ∈ (SymbolTable.ofDocument doc).symbols,
      builtFrom? doc kind children before = some symbol ∧
        ∀ opened ∈ (enterDeclaration doc kind (.phrase kind children) before).opened.head?,
          symbol.doc = opened.doc := by
  obtain ⟨around, symbol, hadds⟩ := @exists_adds doc kind hdeclares children before
  have hscopes := isScope_of_mem_opened hvisits
  have hadded : Gathers symbol (around.addChild symbol) := by
    constructor
    · exact additive_isScope.child around symbol (hadds.opened ▸ hscopes)
    · have hscope : symbol.kind.isScope = true :=
        (testsHead_fitsDeclaration doc kind (.phrase kind children)).scope symbol
          (fitsDeclaration_of_declaredKind? hdeclares hadds.declared hadds.location)
      rw [gathered_addChild around hscope, mem_preorderAll_append]
      exact Or.inr (mem_preorderAll_iff.2
        ⟨symbol, List.mem_cons_self, mem_preorder_iff.2 (Or.inl rfl)⟩)
  have hleft : Gathers symbol ((declarationWalk doc).run (.phrase kind children) before) :=
    (additive_gathers symbol).congr _ _ hadds.root_run hadds.opened_run hadded
  exact ⟨symbol, mem_symbols_of_gathers hvisits hleft, hadds.built, hadds.documented⟩

/-! ## Agreement -/

/-- A function or method that is read with a comment says that its documentation is
inherited as the comment does, exactly if the text of the comment before the tags
has the word of the marker just when there is a marker.  With a marker it then
gives way to every declaration that has a documentation of its own, as it does
where the comment leaves it without a documentation. -/
theorem inheritsDoc_of_hasSignature {comment : String} {range : Range}
    (hsignature : hasSignature kind (.phrase kind children) = true)
    (hvisits : (declarationWalk doc).Visits doc.tree (DeclarationState.start doc)
      (.phrase kind children) before)
    (hwaiting : before.pending = some (DocComment.parse comment, range)) :
    ∃ symbol ∈ (SymbolTable.ofDocument doc).symbols,
      builtFrom? doc kind children before = some symbol ∧
      (symbol.inheritsDoc = (DocComment.parse comment).inheritsDoc ↔ MarkedInText comment) ∧
      ((DocComment.parse comment).inheritsDoc = true →
        MarkedInText comment ∨ symbol.hasDoc = false →
        ∀ hierarchy : Hierarchy, hierarchy.YieldsIn symbol) := by
  obtain ⟨symbol, hmem, hbuilt, hdocumented⟩ :=
    exists_built_of_visits (declaresScope_of_hasSignature hsignature) hvisits
  obtain ⟨opened, hopened, type, hdoc⟩ := exists_opened_doc hsignature hwaiting
  have hagrees := inheritsDoc_eq_parse_iff ((hdocumented opened hopened).trans hdoc)
  refine ⟨symbol, hmem, hbuilt, hagrees, fun hmarked hcase => ?_⟩
  apply Hierarchy.yieldsIn_of_ownDoc_eq_false
  rw [Hierarchy.ownDoc]
  rcases hcase with htext | hnone
  · rw [hagrees.2 htext, hmarked, Bool.not_true, Bool.and_false]
  · rw [hnone, Bool.false_and]

/-- A class with a documented method, and one that overrides it under a comment. -/
def overriding (comment : String) : Document :=
  Snippet.document "a"
    ("<?php class A \x7b /** Base. */ function f() \x7b\x7d \x7d class B extends A \x7b " ++
      comment ++ " function f() \x7b\x7d \x7d")
    [Snippet.classDeclaration [] "A" none []
      [Snippet.docComment "/** Base. */", Snippet.method [] "f" [] none []],
      Snippet.classDeclaration [] "B" (some "A") []
        [Snippet.docComment comment, Snippet.method [] "f" [] none []]]

def overridingStore (comment : String) : SymbolStore :=
  SymbolStore.empty.add (SymbolTable.ofDocument (overriding comment))

/-- A class in a store, with what it inherits from. -/
def hierarchyIn (store : SymbolStore) (name : String) : Hierarchy :=
  ⟨store.lookup, ((store.classLike name).head?).getD default⟩

/-- Where the bases have none themselves, one level of bases is all. -/
theorem members_eq_directMembers {store : SymbolStore} {name : String}
    (hfound : (store.classLike name).head?.isSome = true)
    (hnone : ∀ declared ∈ (hierarchyIn store name).direct, declared.symbol.associated = [])
    (policy : MemberPolicy) :
    store.members name policy =
      ((hierarchyIn store name).directMembers policy fun _ => true).map (·.symbol) := by
  obtain ⟨root, hroot⟩ := Option.isSome_iff_exists.1 hfound
  have hhierarchy : store.hierarchy? name = some (hierarchyIn store name) := by
    rw [hierarchyIn, hroot, Option.getD_some]
    exact congrArg (Option.map (Hierarchy.mk store.lookup)) hroot
  rw [SymbolStore.members, hhierarchy, ← Hierarchy.members_eq_directMembers hnone]

/-- A method that is read under a comment, with the symbol that is built from it. -/
structure ReadUnder (doc : Document) (comment : String) (children : List Tree)
    (before : DeclarationState) (symbol : Symbol) : Prop where
  isSignature : hasSignature .methodDeclaration (.phrase .methodDeclaration children) = true
  visited : (declarationWalk doc).Visits doc.tree (DeclarationState.start doc)
    (.phrase .methodDeclaration children) before
  waiting : ∃ range, before.pending = some (DocComment.parse comment, range)
  mem : symbol ∈ (SymbolTable.ofDocument doc).symbols
  built : builtFrom? doc .methodDeclaration children before = some symbol

/-- What reading and merging come to for the overriding class, as it is evaluated: whether the
symbol of its method says that it inherits its documentation, and the type that declares the
member. -/
def Evaluates (comment : String) (inherits : Bool) (owner : String) : Prop :=
  (∃ visit ∈ (declarationWalk (overriding comment)).visited (overriding comment).tree
      (DeclarationState.start (overriding comment)),
    visit.1.phraseKind? = some .methodDeclaration ∧
      hasSignature .methodDeclaration visit.1 = true ∧
      visit.2.pending.map (·.1) = some (DocComment.parse comment) ∧
      ∃ symbol ∈ builtFrom? (overriding comment) .methodDeclaration visit.1.children visit.2,
        symbol ∈ (SymbolTable.ofDocument (overriding comment)).symbols ∧
          symbol.inheritsDoc = inherits) ∧
  ((overridingStore comment).classLike "B").head?.isSome = true ∧
  (∀ declared ∈ (hierarchyIn (overridingStore comment) "B").direct,
    declared.symbol.associated = []) ∧
  (((hierarchyIn (overridingStore comment) "B").directMembers .documented
    fun _ => true).map (·.symbol)).map (·.scope) = [some owner]

instance (comment : String) (inherits : Bool) (owner : String) :
    Decidable (Evaluates comment inherits owner) :=
  inferInstanceAs (Decidable (_ ∧ _))

/-- What is evaluated for a comment is how the method under it is read. -/
theorem Evaluates.exists_readUnder {comment owner : String} {inherits : Bool}
    (hevaluates : Evaluates comment inherits owner) :
    (∃ children before symbol, ReadUnder (overriding comment) comment children before symbol ∧
      symbol.inheritsDoc = inherits) ∧
      ((overridingStore comment).members "B" .documented).map (·.scope) = [some owner] := by
  obtain ⟨⟨⟨part, before⟩, hmem, hkind, hsignature, hpending, symbol, hbuilt, hsymbol, hinherits⟩,
    hfound, hnone, hmembers⟩ := hevaluates
  refine ⟨?_, by rwa [members_eq_directMembers hfound hnone]⟩
  have hvisits := Walk.visits_of_mem_visited _ hmem
  cases part with
  | token _ => cases hkind
  | phrase kind children =>
      obtain rfl := Option.some.inj hkind
      obtain ⟨⟨waiting, range⟩, hwaiting, rfl⟩ := Option.map_eq_some_iff.1 hpending
      exact ⟨children, before, symbol, ⟨hsignature, hvisits, ⟨range, hwaiting⟩, hsymbol, hbuilt⟩,
        hinherits⟩

/-- A comment with the marker in its text. -/
def markerInText : String := "/** \x7b@inheritDoc\x7d */"

/-- With the marker in the text the method takes the documentation of the base. -/
theorem inheritsDoc_of_hasSignature_in_text :
    MarkedInText markerInText ∧ (DocComment.parse markerInText).inheritsDoc = true ∧
      (∃ children before symbol, ReadUnder (overriding markerInText) markerInText children before
        symbol ∧ symbol.inheritsDoc = true ∧ ∀ hierarchy : Hierarchy, hierarchy.YieldsIn symbol) ∧
      ((overridingStore markerInText).members "B" .documented).map (·.scope) = [some "A"] := by
  have hmarked : MarkedInText markerInText := by decide +kernel
  have hparsed : (DocComment.parse markerInText).inheritsDoc = true := by decide +kernel
  have hevaluates : Evaluates markerInText true "A" := by decide +kernel
  obtain ⟨⟨children, before, _, hread, -⟩, hmembers⟩ := hevaluates.exists_readUnder
  obtain ⟨range, hwaiting⟩ := hread.waiting
  obtain ⟨symbol, hmem, hbuilt, hagrees, hyields⟩ :=
    inheritsDoc_of_hasSignature hread.isSignature hread.visited hwaiting
  exact ⟨hmarked, hparsed, ⟨children, before, symbol,
    ⟨hread.isSignature, hread.visited, hread.waiting, hmem, hbuilt⟩,
    (hagrees.2 hmarked).trans hparsed, hyields hparsed (Or.inl hmarked)⟩, hmembers⟩

/-- A comment with the marker behind its text. -/
def markerInTag : String := "/** Mine.\n @inheritdoc */"

/-- A comment with the word of the marker, and no marker. -/
def wordInText : String := "/** inheritdoc */"

/-- Behind the text the marker is lost, and the method does not give way.  The
word alone is taken for the marker, and the method does. -/
theorem inheritsDoc_ne_parse :
    ((DocComment.parse markerInTag).inheritsDoc = true ∧
      (∃ children before symbol, ReadUnder (overriding markerInTag) markerInTag children before
        symbol ∧ symbol.inheritsDoc = false) ∧
      ((overridingStore markerInTag).members "B" .documented).map (·.scope) = [some "B"]) ∧
    (DocComment.parse wordInText).inheritsDoc = false ∧
      (∃ children before symbol, ReadUnder (overriding wordInText) wordInText children before
        symbol ∧ symbol.inheritsDoc = true) ∧
      ((overridingStore wordInText).members "B" .documented).map (·.scope) = [some "A"] := by
  have htag : Evaluates markerInTag false "B" := by decide +kernel
  have hword : Evaluates wordInText true "A" := by decide +kernel
  exact ⟨⟨by decide +kernel, htag.exists_readUnder⟩, by decide +kernel, hword.exists_readUnder⟩

end Reading

end SymbolIndex
