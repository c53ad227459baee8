import Mathlib.Data.List.TakeWhile
import SymbolIndex.Proofs.SourceText
import SymbolIndex.Proofs.Symbol.Nests
import SymbolIndex.SymbolTable

/-!
# Marks of the context

Namespaces and imports stand among the top-level symbols and mark the context of
what follows.  The context at a position is read off the symbols before the first
one that starts behind it.  When no mark starts earlier than a symbol in front of
it, this leaves out only marks that start behind the position.
-/

namespace SymbolIndex

open SymbolTable

namespace Symbol

/-- The symbol of a namespace or an import. -/
def isMark (symbol : Symbol) : Bool :=
  symbol.kind == .namespaceMark || symbol.isUse

/-- The symbol does not start behind a position. -/
def startsBy (position : Position) (symbol : Symbol) : Bool :=
  symbol.range?.all fun range => decide (range.start ≤ position)

variable {symbol : Symbol} {position : Position}

theorem startsBy_iff {location : Location} (hlocation : symbol.location = some location) :
    symbol.startsBy position = true ↔ location.range.start ≤ position := by
  rw [startsBy, range?, hlocation]
  exact decide_eq_true_iff

theorem startsBy_mono {later : Position} (hle : position ≤ later)
    (hstarts : symbol.startsBy position = true) : symbol.startsBy later = true := by
  cases hlocation : symbol.location with
  | none =>
      rw [startsBy, range?, hlocation]
      rfl
  | some location =>
      rw [startsBy_iff hlocation] at hstarts ⊢
      exact le_trans hstarts hle

theorem isMark_of_isDeclaration (hdeclaration : symbol.isDeclaration = true) :
    symbol.isMark = false := by
  rw [isDeclaration, Bool.and_eq_true, Bool.and_eq_true, Bool.not_eq_true'] at hdeclaration
  obtain ⟨⟨hscope, huse⟩, -⟩ := hdeclaration
  rw [isMark, huse, Bool.or_false, beq_eq_false_iff_ne]
  intro hkind
  rw [hkind] at hscope
  cases hscope

theorem isMark_of_written (hkind : symbol.kind ≠ .namespaceMark)
    (hwritten : symbol.modifiers.Written) : symbol.isMark = false := by
  rw [isMark, isUse, Modifiers.containsAll_of_meets (by decide) hwritten.isUse, Bool.or_false,
    beq_eq_false_iff_ne]
  exact hkind

end Symbol

/-! ## Contexts -/

theorem extendContext_of_plain {symbol : Symbol} (hplain : symbol.isMark = false)
    (context : ImportContext) : extendContext context symbol = context := by
  rw [Symbol.isMark, Bool.or_eq_false_iff, beq_eq_false_iff_ne] at hplain
  rw [extendContext, if_neg hplain.1, hplain.2, if_neg Bool.false_ne_true]

/-- Only marks change a context. -/
theorem foldl_extendContext_of_plain {symbols : List Symbol}
    (hplain : ∀ symbol ∈ symbols, symbol.isMark = false) (context : ImportContext) :
    symbols.foldl extendContext context = context := by
  induction symbols with
  | nil => rfl
  | cons symbol rest ih =>
      obtain ⟨hsymbol, hrest⟩ := List.forall_mem_cons.1 hplain
      rw [List.foldl_cons, extendContext_of_plain hsymbol, ih hrest]

/-- No mark starts earlier than a symbol in front of it. -/
def MarksInOrder (symbols : List Symbol) : Prop :=
  symbols.Pairwise fun earlier later => later.isMark = true →
    ∀ position, later.startsBy position = true → earlier.startsBy position = true

/-- What is no mark may stand anywhere. -/
theorem MarksInOrder.append_plain {symbols added : List Symbol} (horder : MarksInOrder symbols)
    (hplain : ∀ symbol ∈ added, symbol.isMark = false) : MarksInOrder (symbols ++ added) := by
  have hnone : ∀ {earlier later : Symbol}, later ∈ added → later.isMark = true →
      ∀ position, later.startsBy position = true → earlier.startsBy position = true := by
    intro earlier later hlater hmark
    rw [hplain later hlater] at hmark
    cases hmark
  refine List.pairwise_append.2 ⟨horder, ?_, fun _ _ later hlater => hnone hlater⟩
  exact List.pairwise_of_forall_mem_list fun _ _ later hlater => hnone hlater

/-- Up to a position, behind which all further marks start, the symbols before
them count. -/
theorem foldl_extendContext_takeWhile {before after : List Symbol} {position : Position}
    (horder : MarksInOrder before)
    (hbefore : ∀ symbol ∈ before, symbol.isMark = true → symbol.startsBy position = true)
    (hafter : ∀ symbol ∈ after, symbol.isMark = true → symbol.startsBy position = false)
    (context : ImportContext) :
    ((before ++ after).takeWhile (·.startsBy position)).foldl extendContext context =
      before.foldl extendContext context := by
  induction before generalizing context with
  | nil =>
      refine foldl_extendContext_of_plain (fun symbol hmem => ?_) context
      have hstarts := List.mem_takeWhile_imp hmem
      rw [← Bool.not_eq_true]
      intro hmark
      rw [hafter symbol ((List.takeWhile_sublist _).subset hmem) hmark] at hstarts
      cases hstarts
  | cons symbol rest ih =>
      obtain ⟨hfirst, hrest⟩ := List.forall_mem_cons.1 hbefore
      obtain ⟨hahead, horderRest⟩ := List.pairwise_cons.1 horder
      rw [List.cons_append, List.takeWhile_cons]
      split
      · rw [List.foldl_cons, List.foldl_cons, ih horderRest hrest]
      · -- All marks would start behind this symbol, so there are none.
        rename_i hstops
        have hplain : ∀ other ∈ symbol :: rest, other.isMark = false := by
          refine List.forall_mem_cons.2 ⟨?_, fun other hother => ?_⟩
          · rw [← Bool.not_eq_true]
            exact fun hmark => hstops (hfirst hmark)
          · rw [← Bool.not_eq_true]
            exact fun hmark =>
              hstops (hahead other hother hmark position (hrest other hother hmark))
        rw [foldl_extendContext_of_plain hplain]
        rfl

/-- Where the marks before a position are those of the symbols up to a place, they give its
context. -/
theorem SymbolTable.contextAt_eq {table : SymbolTable} {before after : List Symbol}
    {position : Position} (hroot : table.root.children = before ++ after)
    (hlocated : ∀ symbol ∈ table.root.children, symbol.location.isSome = true)
    (horder : MarksInOrder before)
    (hbefore : ∀ symbol ∈ before, symbol.isMark = true → symbol.startsBy position = true)
    (hafter : ∀ symbol ∈ after, symbol.isMark = true → symbol.startsBy position = false) :
    table.contextAt position = before.foldl extendContext ⟨"", []⟩ := by
  rw [contextAt, marksBefore, List.filter_eq_self.2 hlocated, hroot]
  exact foldl_extendContext_takeWhile horder hbefore hafter _

end SymbolIndex
