import SymbolIndex.Proofs.Exchange.Storable

/-!
# Stored symbols are read back

A storable symbol is read back with all below it, exactly where as many lists and maps may be
opened as it has around each other: `Symbol.storedAs`.
-/

namespace SymbolIndex

open SymbolIndex.Record

namespace SymbolKind

theorem nodup_map_name : (all.map name).Nodup := by
  decide +kernel

theorem isShort_name (kind : SymbolKind) : IsShort kind.name := by
  cases kind <;> decide

theorem ofDatum?_toDatum (style : Style) (room : Nat) (kind : SymbolKind) :
    ofDatum? style room kind.toDatum = some kind :=
  plainVariant?_name style kind.mem_all nodup_map_name room

end SymbolKind

namespace SymbolId

def IsStorable (id : SymbolId) : Prop :=
  IsShort id.name

theorem storedAs {id : SymbolId} (h : id.IsStorable) :
    StoredAs (ofDatum? .compact) id id.toDatum 1 := by
  have hkind : MessagePack.IsKept (.text id.kind.name) := id.kind.isShort_name
  have hname : MessagePack.IsKept (.text id.name) := h
  apply StoredAs.record ["kind", "name"] rfl (by decide) (by decide) ?_ rfl
  · intro room
    have hfields := fields?_record [("kind", id.kind.toDatum), ("name", .text id.name)]
      (by simp) .compact room
    simp only [List.map_cons, List.map_nil] at hfields
    simp [ofDatum?, hfields, text?, SymbolKind.ofDatum?_toDatum]
  · simp [SymbolKind.toDatum, Datum.nesting, hkind, hname]

end SymbolId

namespace DocInfo

structure IsStorable (doc : DocInfo) : Prop where
  description : IsShort doc.description
  type : IsShort doc.type

theorem storedAs {doc : DocInfo} (h : doc.IsStorable) :
    StoredAs (ofDatum? .compact) doc doc.toDatum 1 := by
  have hdescription : MessagePack.IsKept (.text doc.description) := h.description
  have htype : MessagePack.IsKept (.text doc.type) := h.type
  apply StoredAs.record ["description", "type"] rfl (by decide) (by decide) ?_ rfl
  · intro room
    have hfields := fields?_record
      [("description", .text doc.description), ("type", .text doc.type)] (by simp) .compact room
    simp only [List.map_cons, List.map_nil] at hfields
    simp [ofDatum?, hfields, text?]
  · simp [Datum.nesting, hdescription, htype]

end DocInfo

namespace Symbol

/-- The fields of a symbol are storable, whatever its children are. -/
structure HasStorableFields (symbol : Symbol) : Prop where
  name : IsShort symbol.name
  location : ∀ location ∈ symbol.location, location.IsStorable
  doc : ∀ doc ∈ symbol.doc, doc.IsStorable
  type : IsShort symbol.type
  length_associated : symbol.associated.length < UInt32.size
  associated : ∀ id ∈ symbol.associated, id.IsStorable
  length_children : symbol.children.length < UInt32.size
  scope : ∀ scope ∈ symbol.scope, IsShort scope
  value : ∀ value ∈ symbol.value, IsShort value

mutual

/-- A symbol and all below it have storable fields. -/
def IsStorable : Symbol → Prop
  | symbol@⟨_, _, _, _, _, _, _, children, _, _⟩ => HasStorableFields symbol ∧ AreStorable children

def AreStorable : List Symbol → Prop
  | [] => True
  | symbol :: rest => IsStorable symbol ∧ AreStorable rest

end

mutual

/-- The number of lists and maps around each other in a symbol: its own map, and in it a location
with three of them, the list of the associated names or the list of its children. -/
def depth : Symbol → Nat
  | ⟨_, _, location, _, _, _, associated, children, _, _⟩ =>
    1 + max (if location.isSome then 3 else 0)
      (max (1 + if associated.isEmpty then 0 else 1) (1 + depthAll children))

def depthAll : List Symbol → Nat
  | [] => 0
  | symbol :: rest => max (depth symbol) (depthAll rest)

end

theorem depth_eq (symbol : Symbol) :
    symbol.depth = 1 + max (if symbol.location.isSome then 3 else 0)
      (max (1 + if symbol.associated.isEmpty then 0 else 1) (1 + depthAll symbol.children)) := by
  cases symbol
  rw [depth]

/-- The fields that a symbol is stored in. -/
def fields (symbol : Symbol) : List (String × Datum) :=
  [("kind", symbol.kind.toDatum), ("name", .text symbol.name),
    ("location", (symbol.location.map Location.toDatum).getD .null),
    ("modifiers", symbol.modifiers.toDatum .compact),
    ("doc", (symbol.doc.map DocInfo.toDatum).getD .null), ("type", .text symbol.type),
    ("associated", .list (symbol.associated.map SymbolId.toDatum)),
    ("children", .list (toDatumAll .compact symbol.children)),
    ("scope", .optionalText symbol.scope), ("value", .optionalText symbol.value)]

theorem toDatum_eq_record (symbol : Symbol) : symbol.toDatum .compact = .record symbol.fields := by
  cases symbol
  rw [toDatum, fields]

theorem fields?_toDatum (symbol : Symbol) (room : Nat) :
    fields? .compact fieldNames (room + 1) (symbol.toDatum .compact) =
      some (symbol.fields.map fun field => some field.2) := by
  rw [toDatum_eq_record]
  exact fields?_record symbol.fields (by simp [fields]) .compact room

/-- A list of symbols is stored item by item. -/
structure StoredAll (symbols : List Symbol) : Prop where
  areKept : MessagePack.AreKept (toDatumAll .compact symbols)
  nesting_le : Datum.nestingAll (toDatumAll .compact symbols) ≤ 2 * depthAll symbols
  read_eq : ∀ room, (toDatumAll .compact symbols).mapM (ofDatum? .compact room) =
    if depthAll symbols ≤ room then some symbols else none

theorem length_toDatumAll (style : Style) (symbols : List Symbol) :
    (toDatumAll style symbols).length = symbols.length := by
  induction symbols with
  | nil => rfl
  | cons symbol rest ih => rw [toDatumAll, List.length_cons, List.length_cons, ih]

section

variable {symbol : Symbol} (h : symbol.HasStorableFields) (hchildren : StoredAll symbol.children)
include h

theorem HasStorableFields.storedLocation :
    StoredAs (fun room datum => optional? (Location.ofDatum? .compact room) (some datum))
      symbol.location ((symbol.location.map Location.toDatum).getD .null)
      (if symbol.location.isSome then 3 else 0) :=
  StoredAs.optional (fun location hmem => Location.storedAs (h.location location hmem))
    (by simp [Location.toDatum, Datum.record])

theorem HasStorableFields.storedDoc :
    StoredAs (fun room datum => optional? (DocInfo.ofDatum? .compact room) (some datum))
      symbol.doc ((symbol.doc.map DocInfo.toDatum).getD .null)
      (if symbol.doc.isSome then 1 else 0) :=
  StoredAs.optional (fun doc hmem => DocInfo.storedAs (h.doc doc hmem))
    (by simp [DocInfo.toDatum, Datum.record])

theorem HasStorableFields.storedAssociated :
    StoredAs (listOf? (SymbolId.ofDatum? .compact)) symbol.associated
      (.list (symbol.associated.map SymbolId.toDatum))
      (1 + if symbol.associated.isEmpty then 0 else 1) :=
  StoredAs.list h.length_associated fun id hmem => SymbolId.storedAs (h.associated id hmem)

include hchildren

theorem HasStorableFields.isKept : MessagePack.IsKept (symbol.toDatum .compact) := by
  have hitems : MessagePack.IsKept (.list (toDatumAll .compact symbol.children)) :=
    ⟨by rw [length_toDatumAll]; exact h.length_children, hchildren.areKept⟩
  rw [toDatum_eq_record]
  apply MessagePack.isKept_record fieldNames rfl (by decide) (by decide)
  simp only [fields, List.forall_mem_cons, List.not_mem_nil, false_implies, implies_true, and_true]
  exact ⟨symbol.kind.isShort_name, h.name, h.storedLocation.isKept,
    MessagePack.isKept_word32 symbol.modifiers.bits, h.storedDoc.isKept, h.type,
    h.storedAssociated.isKept, hitems, MessagePack.isKept_optionalText h.scope,
    MessagePack.isKept_optionalText h.value⟩

/-- Every level that counts stands for two lists or maps at most. -/
theorem HasStorableFields.nesting_le : (symbol.toDatum .compact).nesting ≤ 2 * symbol.depth := by
  have hlocation := h.storedLocation.nesting_le
  have hdoc := h.storedDoc.nesting_le
  have hassociated := h.storedAssociated.nesting_le
  have hall := hchildren.nesting_le
  have hitems : (Datum.list (toDatumAll .compact symbol.children)).nesting ≤
      1 + 2 * depthAll symbol.children := by
    rw [Datum.nesting]
    omega
  have hfields : ∀ field ∈ symbol.fields, field.2.nesting ≤ 2 * (symbol.depth - 1) := by
    have hdepth := symbol.depth_eq
    simp only [fields, List.forall_mem_cons, List.not_mem_nil, false_implies, implies_true,
      and_true, SymbolKind.toDatum, Modifiers.toDatum, Datum.nesting_optionalText]
    refine ⟨Nat.zero_le _, Nat.zero_le _, ?_, Nat.zero_le _, ?_, Nat.zero_le _, ?_, ?_,
      Nat.zero_le _, Nat.zero_le _⟩
    · omega
    · split at hdoc <;> omega
    · omega
    · omega
  have hrecord := Datum.nesting_record_le hfields
  have hdepth := symbol.depth_eq
  rw [toDatum_eq_record]
  omega

omit hchildren in
theorem HasStorableFields.ofFields?_zero (child : Datum → Option Symbol) :
    ofFields? .compact 0 child (symbol.fields.map fun field => some field.2) = none := by
  have hassociated := h.storedAssociated.read_eq 0
  rw [if_neg (by omega)] at hassociated
  simp [ofFields?, fields, hassociated]

/-- The fields of a symbol are read back where its parts fit in. -/
theorem HasStorableFields.ofFields?_succ (room : Nat) :
    ofFields? .compact (room + 1) (ofDatum? .compact room)
        (symbol.fields.map fun field => some field.2) =
      if symbol.depth ≤ room + 2 then some symbol else none := by
  have hlocation := h.storedLocation.read_eq (room + 1)
  have hdoc := h.storedDoc.read_eq (room + 1)
  have hassociated := h.storedAssociated.read_eq (room + 1)
  have hitems := hchildren.read_eq room
  have hmodifiers : Modifiers.ofDatum? .compact (symbol.modifiers.toDatum .compact) =
      some symbol.modifiers := by
    simp [Modifiers.ofDatum?, Modifiers.toDatum]
  have hdepth := symbol.depth_eq
  rw [if_pos (by split <;> omega)] at hdoc
  simp only [ofFields?, fields, List.map_cons, List.map_nil, Option.bind_eq_bind,
    Option.bind_some, SymbolKind.ofDatum?_toDatum, text?, hlocation, hmodifiers, hdoc, hassociated,
    items?, hitems, optional?_optionalText]
  by_cases hfits : symbol.depth ≤ room + 2
  · rw [if_pos (by omega), if_pos (by omega), if_pos (by omega), if_pos hfits]
    cases symbol
    rfl
  · -- One of the three parts does not fit in either.
    rw [if_neg hfits]
    by_cases hfitsLocation : (if symbol.location.isSome then 3 else 0) ≤ room + 1
    · by_cases hfitsAssociated : (1 + if symbol.associated.isEmpty then 0 else 1) ≤ room + 1
      · rw [if_pos hfitsLocation, if_pos hfitsAssociated, if_neg (by omega)]
        rfl
      · rw [if_pos hfitsLocation, if_neg hfitsAssociated]
        rfl
    · rw [if_neg hfitsLocation]
      rfl

/-- What is stored of a symbol whose children are stored. -/
theorem HasStorableFields.storedAs :
    StoredAs (ofDatum? .compact) symbol (symbol.toDatum .compact) symbol.depth where
  isKept := h.isKept hchildren
  nesting_le := h.nesting_le hchildren
  read_eq := by
    intro room
    have hdepth := symbol.depth_eq
    match room with
    | 0 =>
      rw [if_neg (by omega)]
      rfl
    | 1 =>
      rw [if_neg (by omega), ofDatum?, fields?_toDatum]
      exact h.ofFields?_zero _
    | room + 2 =>
      rw [ofDatum?, fields?_toDatum]
      exact h.ofFields?_succ hchildren room

end

mutual

/-- A symbol is stored as deep as its children make it. -/
theorem storedAs : ∀ {symbol : Symbol}, symbol.IsStorable →
    StoredAs (ofDatum? .compact) symbol (symbol.toDatum .compact) symbol.depth
  | ⟨_, _, _, _, _, _, _, _, _, _⟩, h => h.1.storedAs (storedAll h.2)

theorem storedAll : ∀ {symbols : List Symbol}, AreStorable symbols → StoredAll symbols
  | [], _ => by
    constructor <;> simp [toDatumAll, MessagePack.AreKept, Datum.nestingAll, depthAll]
  | symbol :: rest, h => by
    obtain ⟨hkept, hnesting, hread⟩ := storedAs h.1
    obtain ⟨hkeptAll, hnestingAll, hreadAll⟩ := storedAll h.2
    refine ⟨⟨hkept, hkeptAll⟩, ?_, ?_⟩
    · simp only [toDatumAll, Datum.nestingAll, depthAll]
      omega
    · intro room
      rw [toDatumAll, List.mapM_cons, hread, hreadAll, depthAll]
      simp only [Nat.max_le]
      by_cases hsymbol : symbol.depth ≤ room
      · by_cases hrest : depthAll rest ≤ room
        · simp [hsymbol, hrest]
        · simp [hsymbol, hrest]
      · simp [hsymbol]

end

end Symbol

end SymbolIndex
