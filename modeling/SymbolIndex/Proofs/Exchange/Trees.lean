import SymbolIndex.Exchange.Forms
import SymbolIndex.Proofs.Exchange.Json
import SymbolIndex.Proofs.Exchange.Record

/-!
# Trees are read back

A tree is read back from its JSON text exactly if no more than 127 lists and maps stand around each
other in it: `parse?_print_toDatum`.
-/

namespace SymbolIndex

open SymbolIndex.Record

namespace TokenKind

theorem mem_all (kind : TokenKind) : kind ∈ all := by
  cases kind <;> decide

theorem nodup_map_name : (all.map name).Nodup := by
  decide +kernel

end TokenKind

namespace PhraseKind

theorem mem_all (kind : PhraseKind) : kind ∈ all := by
  cases kind <;> decide

theorem nodup_map_name : (all.map name).Nodup := by
  decide +kernel

end PhraseKind

namespace Token

/-- A token is read back if there is room for its record. -/
theorem ofDatum?_toDatum (style : Style) (token : Token) (room : Nat) :
    ofDatum? style room token.toDatum = if 1 ≤ room then some token else none := by
  cases room with
  | zero => rfl
  | succ room =>
    have hfields := fields?_record [("kind", .text token.kind.name),
      ("offset", .natural token.offset.toNat), ("length", .natural token.length.toNat)]
      (by simp) style room
    have hkind := plainVariant?_name style token.kind.mem_all TokenKind.nodup_map_name room
    simp only [List.map_cons, List.map_nil] at hfields
    simp [ofDatum?, toDatum, hfields, hkind]

theorem nesting_toDatum (token : Token) : token.toDatum.nesting = 1 := by
  simp [toDatum, Datum.record, Datum.nesting, Datum.nestingEntries]

theorem isKept_toDatum (token : Token) : Json.IsKept token.toDatum := by
  simp [toDatum, Datum.record, Json.IsKept, Json.AreEntriesKept]

end Token

namespace Tree

mutual

/-- The number of lists and maps around each other in the form of a tree. -/
def nesting : Tree → Nat
  | token _ => 2
  | phrase _ children => 3 + nestingAll children

def nestingAll : List Tree → Nat
  | [] => 0
  | tree :: rest => max (nesting tree) (nestingAll rest)

end

mutual

theorem nesting_toDatum : ∀ tree : Tree, tree.toDatum.nesting = tree.nesting
  | token leaf => by
    simp [toDatum, nesting, Datum.record, Datum.nesting, Datum.nestingEntries,
      leaf.nesting_toDatum]
  | phrase kind children => by
    simp [toDatum, nesting, Datum.record, Datum.nesting, Datum.nestingEntries,
      nestingAll_toDatumAll children]
    omega

theorem nestingAll_toDatumAll : ∀ trees : List Tree,
    Datum.nestingAll (toDatumAll trees) = nestingAll trees
  | [] => rfl
  | tree :: rest => by
    rw [toDatumAll, Datum.nestingAll, nesting_toDatum tree, nestingAll_toDatumAll rest, nestingAll]

end

mutual

theorem isKept_toDatum : ∀ tree : Tree, Json.IsKept tree.toDatum
  | token leaf => by
    simp [toDatum, Datum.record, Json.IsKept, Json.AreEntriesKept, leaf.isKept_toDatum]
  | phrase kind children => by
    simp [toDatum, Datum.record, Json.IsKept, Json.AreEntriesKept, areKept_toDatumAll children]

theorem areKept_toDatumAll : ∀ trees : List Tree, Json.AreKept (toDatumAll trees)
  | [] => trivial
  | tree :: rest => ⟨isKept_toDatum tree, areKept_toDatumAll rest⟩

end

theorem variant?_token (room : Nat) (content : Datum) :
    variant? .textual ["Phrase", "Token"] (room + 1) (.record [("Token", content)]) =
      some ("Token", content) :=
  variant?_record (by decide) (by decide) rfl content

theorem variant?_phrase (room : Nat) (content : Datum) :
    variant? .textual ["Phrase", "Token"] (room + 1) (.record [("Phrase", content)]) =
      some ("Phrase", content) :=
  variant?_record (by decide) (by decide) rfl content

/-- The form of a phrase is read in its kind and children, the children three lists and maps
further inside. -/
theorem ofDatum?_phrase (kind : PhraseKind) (items : List Datum) (room : Nat) :
    ofDatum? (room + 3) (.record [("Phrase",
        .record [("kind", .text kind.name), ("children", .list items)])]) =
      (items.mapM (ofDatum? room)).map (phrase kind) := by
  have hfields := fields?_record [("kind", .text kind.name), ("children", .list items)]
    (by simp) .textual (room + 1)
  have hkind := plainVariant?_name .textual kind.mem_all PhraseKind.nodup_map_name (room + 1)
  simp only [List.map_cons, List.map_nil] at hfields
  simp [ofDatum?, variant?_phrase, hfields, hkind]

/-- A phrase takes room for three levels, even without children. -/
theorem ofDatum?_phrase_of_lt (kind : PhraseKind) (items : List Datum) {room : Nat}
    (h : room < 3) :
    ofDatum? room (.record [("Phrase",
        .record [("kind", .text kind.name), ("children", .list items)])]) = none := by
  match room, h with
  | 0, _ => rfl
  | 1, _ => simp [ofDatum?, variant?_phrase, fields?_record_zero]
  | 2, _ =>
    have hfields := fields?_record [("kind", .text kind.name), ("children", .list items)]
      (by simp) .textual 0
    simp only [List.map_cons, List.map_nil] at hfields
    simp [ofDatum?, variant?_phrase 1, hfields]

mutual

/-- A tree is read where as many lists and maps may be opened as it is nested. -/
theorem ofDatum?_toDatum : ∀ (tree : Tree) (room : Nat),
    ofDatum? room tree.toDatum = if tree.nesting ≤ room then some tree else none
  | token leaf, 0 => rfl
  | token leaf, room + 1 => by
    by_cases hroom : 1 ≤ room
    · simp [ofDatum?, toDatum, variant?_token, nesting, leaf.ofDatum?_toDatum, hroom]
    · simp [ofDatum?, toDatum, variant?_token, nesting, leaf.ofDatum?_toDatum, hroom]
  | phrase kind children, room => by
    rw [toDatum, nesting]
    by_cases hroom : room < 3
    · rw [ofDatum?_phrase_of_lt kind _ hroom, if_neg (by omega)]
    · obtain ⟨inner, rfl⟩ := Nat.exists_eq_add_of_le' (Nat.not_lt.1 hroom)
      rw [ofDatum?_phrase, mapM_ofDatum?_toDatumAll children inner]
      by_cases hinner : nestingAll children ≤ inner
      · rw [if_pos hinner, if_pos (by omega), Option.map_some]
      · rw [if_neg hinner, if_neg (by omega), Option.map_none]

/-- Trees are read back if there is room for each of them. -/
theorem mapM_ofDatum?_toDatumAll : ∀ (trees : List Tree) (room : Nat),
    (toDatumAll trees).mapM (ofDatum? room) =
      if nestingAll trees ≤ room then some trees else none
  | [], room => by
    simp [toDatumAll, nestingAll]
  | tree :: rest, room => by
    rw [toDatumAll, nestingAll, List.mapM_cons, ofDatum?_toDatum tree room,
      mapM_ofDatum?_toDatumAll rest room]
    simp only [Nat.max_le]
    by_cases htree : nesting tree ≤ room
    · by_cases hrest : nestingAll rest ≤ room
      · simp [htree, hrest]
      · simp [htree, hrest]
    · simp [htree]

end

/-- A tree is read back from its JSON text if no more than 127 lists and maps stand around each
other in it, and nothing is read otherwise. -/
theorem parse?_print_toDatum (tree : Tree) :
    tree.toDatum.nesting = tree.nesting ∧
      (Json.parse? (Json.print tree.toDatum) >>= ofDatum? Json.maxNesting) =
        if tree.nesting ≤ 127 then some tree else none := by
  have hparse := Json.parse?_print tree.isKept_toDatum
  have hread := ofDatum?_toDatum tree Json.maxNesting
  constructor
  · exact tree.nesting_toDatum
  · rw [hparse]
    exact hread

end Tree

end SymbolIndex
