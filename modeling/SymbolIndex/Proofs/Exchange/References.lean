import SymbolIndex.Proofs.Exchange.Symbols

/-!
# Stored references are read back

A storable scope is read back with all references and scopes in it: `Scope.storedAs`. The maps that
tell scopes from references do not count where it is read, so that its datum is nested more deeply
than it may be.
-/

namespace SymbolIndex

open SymbolIndex.Record

namespace Reference

structure IsStorable (reference : Reference) : Prop where
  name : IsShort reference.name
  scope : IsShort reference.scope
  altName : ∀ altName ∈ reference.altName, IsShort altName
  type : IsShort reference.type
  location : reference.location.IsStorable

/-- A reference is stored four levels deep. -/
theorem storedAs {reference : Reference} (h : reference.IsStorable) :
    StoredAs (ofDatum? .compact) reference reference.toDatum 4 := by
  obtain ⟨hkept, hnesting, hread⟩ := Location.storedAs h.location
  have hkind : MessagePack.IsKept (.text reference.kind.name) := reference.kind.isShort_name
  have hname : MessagePack.IsKept (.text reference.name) := h.name
  have hscope : MessagePack.IsKept (.text reference.scope) := h.scope
  have htype : MessagePack.IsKept (.text reference.type) := h.type
  apply StoredAs.record ["kind", "name", "scope", "alt_name", "type", "location"] rfl
    (by decide) (by decide) ?_ rfl
  · intro room
    have hfields := fields?_record
      [("kind", reference.kind.toDatum), ("name", .text reference.name),
        ("scope", .text reference.scope), ("alt_name", .optionalText reference.altName),
        ("type", .text reference.type), ("location", reference.location.toDatum)]
      (by simp) .compact room
    simp only [List.map_cons, List.map_nil] at hfields
    by_cases hroom : 3 ≤ room
    · simp only [ofDatum?, hfields, Nat.add_sub_cancel, text?, SymbolKind.ofDatum?_toDatum,
        optional?_optionalText, hread, hroom, Option.bind_eq_bind, Option.bind_some, ↓reduceIte]
    · simp only [ofDatum?, hfields, Nat.add_sub_cancel, text?, optional?_optionalText, hread, hroom,
        Option.bind_eq_bind, Option.bind_some, Option.bind_none, Option.bind_fun_none, ↓reduceIte]
  · simp [SymbolKind.toDatum, Datum.nesting, Datum.nesting_optionalText, hkind, hname, hscope,
      MessagePack.isKept_optionalText h.altName, htype, hkept, hnesting]

end Reference

namespace Scope

mutual

/-- The positions and lengths in a scope, at any depth, fit in 32 bits. -/
def IsStorable : Scope → Prop
  | ⟨location, children⟩ =>
    location.IsStorable ∧ children.length < UInt32.size ∧ AreStorable children

def AreStorable : List ScopeChild → Prop
  | [] => True
  | .scope inner :: rest => IsStorable inner ∧ AreStorable rest
  | .reference reference :: rest => reference.IsStorable ∧ AreStorable rest

end

mutual

/-- The number of lists and maps around each other in a scope, not counting the maps that tell
scopes from references: its own map, and in it a location with three of them, or the list of its
children. -/
def depth : Scope → Nat
  | ⟨_, children⟩ => 1 + max 3 (1 + depthAll children)

def depthAll : List ScopeChild → Nat
  | [] => 0
  | .scope inner :: rest => max (depth inner) (depthAll rest)
  | .reference _ :: rest => max 4 (depthAll rest)

end

/-- A list of scopes and references is stored item by item, each in a map that names it. -/
structure StoredAll (children : List ScopeChild) : Prop where
  areKept : MessagePack.AreKept (childrenToDatum children)
  nesting_le : Datum.nestingAll (childrenToDatum children) ≤ 2 * depthAll children + 1
  read_eq : ∀ room, (childrenToDatum children).mapM (childOfDatum? .compact (room + 1)) =
    if depthAll children ≤ room then some children else none

theorem length_childrenToDatum (children : List ScopeChild) :
    (childrenToDatum children).length = children.length := by
  induction children with
  | nil => rfl
  | cons child rest ih => cases child <;> simp [childrenToDatum, ih]

/-- What is stored of a scope whose children are stored. -/
theorem storedAs_of_children {location : Location} {children : List ScopeChild}
    (hlocation : location.IsStorable) (hlength : children.length < UInt32.size)
    (hchildren : StoredAll children) :
    StoredAs (ofDatum? .compact) ⟨location, children⟩ (toDatum ⟨location, children⟩)
      (depth ⟨location, children⟩) := by
  obtain ⟨hkept, hnesting, hread⟩ := Location.storedAs hlocation
  have hkeptItems : MessagePack.IsKept (.list (childrenToDatum children)) :=
    ⟨by rwa [length_childrenToDatum], hchildren.areKept⟩
  have hnestingItems := hchildren.nesting_le
  rw [toDatum, depth, Nat.add_comm]
  apply StoredAs.record ["location", "children"] rfl (by decide) (by decide) ?_ rfl
  · intro room
    have hfields := fields?_record
      [("location", location.toDatum), ("children", .list (childrenToDatum children))]
      (by simp) .compact
    simp only [List.map_cons, List.map_nil] at hfields
    match room with
    | 0 =>
      rw [if_neg (by omega), ofDatum?]
      simp [hfields, hread]
    | room + 1 =>
      have hitems := hchildren.read_eq room
      rw [ofDatum?]
      simp only [hfields, hread, items?, hitems, Option.bind_eq_bind, Option.bind_some]
      by_cases hlocated : 3 ≤ room + 1
      · by_cases hall : depthAll children ≤ room
        · rw [if_pos hlocated, if_pos hall, if_pos (by omega)]
          rfl
        · rw [if_pos hlocated, if_neg hall, if_neg (by omega)]
          rfl
      · have hdeep : ¬ max 3 (1 + depthAll children) ≤ room + 1 := by omega
        rw [if_neg hlocated, if_neg hdeep]
        rfl
  · simp only [List.forall_mem_cons, List.not_mem_nil, false_implies, implies_true, and_true,
      Datum.nesting]
    exact ⟨⟨hkept, by omega⟩, hkeptItems, by omega⟩

/-- The map that names a scope takes a level of its own. -/
theorem childOfDatum?_scope (room : Nat) (datum : Datum) :
    childOfDatum? .compact (room + 1) (.record [("Scope", datum)]) =
      (ofDatum? .compact room datum).map .scope := by
  have hvariant : variant? .compact ["Scope", "Reference"] room (.record [("Scope", datum)]) =
      some ("Scope", datum) :=
    variant?_record (by decide) (by decide) rfl datum
  simp only [childOfDatum?, hvariant, Option.bind_eq_bind, Option.bind_some]
  rw [if_neg (by decide)]
  cases ofDatum? .compact room datum <;> rfl

/-- The map that names a reference takes a level of its own. -/
theorem childOfDatum?_reference (room : Nat) (datum : Datum) :
    childOfDatum? .compact (room + 1) (.record [("Reference", datum)]) =
      (Reference.ofDatum? .compact room datum).map .reference := by
  have hvariant : variant? .compact ["Scope", "Reference"] room (.record [("Reference", datum)]) =
      some ("Reference", datum) :=
    variant?_record (by decide) (by decide) rfl datum
  simp [childOfDatum?, hvariant, roomInside?]

/-- A child before others that are stored, in a map that names what it is. -/
theorem StoredAll.cons {α : Type} {read : Nat → Datum → Option α} {value : α} {datum : Datum}
    {depth : Nat} {name : String} {wrap : α → ScopeChild} {rest : List ScopeChild}
    (hrest : StoredAll rest) (hstored : StoredAs read value datum depth)
    (hwrap : childrenToDatum (wrap value :: rest) =
      .record [(name, datum)] :: childrenToDatum rest)
    (hdepth : depthAll (wrap value :: rest) = max depth (depthAll rest)) (hname : IsShort name)
    (hread : ∀ room, childOfDatum? .compact (room + 1) (.record [(name, datum)]) =
      (read room datum).map wrap) :
    StoredAll (wrap value :: rest) where
  areKept := by
    have hkept : MessagePack.IsKept (.record [(name, datum)]) :=
      MessagePack.isKept_record [name] rfl (by simp [UInt32.size]) (by simpa using hname)
        (by simpa using hstored.isKept)
    rw [hwrap]
    exact ⟨hkept, hrest.areKept⟩
  nesting_le := by
    have hle : (Datum.record [(name, datum)]).nesting ≤ 2 * depth + 1 :=
      Datum.nesting_record_le (by simpa using hstored.nesting_le)
    have hall := hrest.nesting_le
    rw [hwrap, hdepth, Datum.nestingAll]
    omega
  read_eq := by
    intro room
    rw [hwrap, hdepth, List.mapM_cons, hread, hstored.read_eq, hrest.read_eq]
    simp only [Nat.max_le]
    by_cases hfits : depth ≤ room
    · by_cases hall : depthAll rest ≤ room
      · simp [hfits, hall]
      · simp [hfits, hall]
    · simp [hfits]

mutual

theorem storedAs : ∀ {scope : Scope}, scope.IsStorable →
    StoredAs (ofDatum? .compact) scope scope.toDatum scope.depth
  | ⟨_, _⟩, h => storedAs_of_children h.1 h.2.1 (storedAll h.2.2)

theorem storedAll : ∀ {children : List ScopeChild}, AreStorable children → StoredAll children
  | [], _ => by
    constructor <;> simp [childrenToDatum, MessagePack.AreKept, Datum.nestingAll, depthAll]
  | .scope _ :: _, h =>
    (storedAll h.2).cons (storedAs h.1) rfl rfl (by decide) fun room =>
      childOfDatum?_scope room _
  | .reference _ :: _, h =>
    (storedAll h.2).cons (Reference.storedAs h.1) rfl rfl (by decide) fun room =>
      childOfDatum?_reference room _

end

end Scope

end SymbolIndex
