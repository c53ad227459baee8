import SymbolIndex.Exchange.Record
import SymbolIndex.Reference
import SymbolIndex.Text.Hex
import SymbolIndex.Tree.Basic

/-!
# The forms of the library's values

How trees, symbols, references and their tables are stored and exchanged: every structure is a
record with its fields in order, every alternative goes by its name. Modifiers are a word of bits
in the compact style and their names in the textual one.
-/

namespace SymbolIndex

open SymbolIndex.Text
open SymbolIndex.Record

namespace Modifiers

/-- The names of the modifiers, then the bits without a name in hexadecimal. -/
def print (modifiers : Modifiers) : String :=
  String.intercalate " | "
    (modifiers.names ++
      (if modifiers.unnamed = 0 then [] else ["0x" ++ hexNat modifiers.unnamed.toNat]))

/-- One modifier by its name, or a word of bits in hexadecimal after `0x`. -/
def parsePart? (part : List Char) : Option Modifiers :=
  match "0x".toList.isPrefixOf? part with
  | some digits => do
    let digits := match digits with
      | '+' :: rest => rest
      | digits => digits
    let value ← hexNat? digits
    if value < UInt32.size then some ⟨UInt32.ofNat value⟩ else none
  | none => (named.find? fun entry => entry.1.toList == part).map (·.2)

/-- Modifiers between bars. A blank text has none. -/
def parse? (text : String) : Option Modifiers :=
  if (trim text.toList).isEmpty then some empty
  else do
    let parts ← (splitOn '|' text.toList).mapM fun part => parsePart? (trim part)
    some (parts.foldl union Modifiers.empty)

def toDatum (style : Style) (modifiers : Modifiers) : Datum :=
  match style with
  | .textual => .text modifiers.print
  | .compact => .natural modifiers.bits.toNat

def ofDatum? (style : Style) (datum : Datum) : Option Modifiers :=
  match style with
  | .textual => text? datum >>= parse?
  | .compact => (word32? datum).map Modifiers.mk

end Modifiers

namespace SymbolKind

def toDatum (kind : SymbolKind) : Datum :=
  .text kind.name

def ofDatum? (style : Style) (room : Nat) (datum : Datum) : Option SymbolKind :=
  plainVariant? style all name room datum

end SymbolKind

namespace Position

def toDatum (position : Position) : Datum :=
  .record [("line", .natural position.line), ("character", .natural position.character)]

def ofDatum? (style : Style) (room : Nat) (datum : Datum) : Option Position := do
  let [line, character] ← fields? style ["line", "character"] room datum | none
  some ⟨← naturalBelow? UInt32.size (← line), ← naturalBelow? UInt32.size (← character)⟩

end Position

namespace Range

def toDatum (range : Range) : Datum :=
  .record [("start", range.start.toDatum), ("end", range.stop.toDatum)]

def ofDatum? (style : Style) (room : Nat) (datum : Datum) : Option Range := do
  let [start, stop] ← fields? style ["start", "end"] room datum | none
  let position := Position.ofDatum? style (room - 1)
  some ⟨← position (← start), ← position (← stop)⟩

end Range

namespace Location

def toDatum (location : Location) : Datum :=
  .record [("uri", .text location.uri), ("range", location.range.toDatum)]

def ofDatum? (style : Style) (room : Nat) (datum : Datum) : Option Location := do
  let [uri, range] ← fields? style ["uri", "range"] room datum | none
  some ⟨← text? (← uri), ← Range.ofDatum? style (room - 1) (← range)⟩

end Location

namespace Token

def toDatum (token : Token) : Datum :=
  .record
    [("kind", .text token.kind.name), ("offset", .natural token.offset.toNat),
      ("length", .natural token.length.toNat)]

def ofDatum? (style : Style) (room : Nat) (datum : Datum) : Option Token := do
  let [kind, offset, length] ← fields? style ["kind", "offset", "length"] room datum | none
  some
    ⟨← plainVariant? style TokenKind.all TokenKind.name (room - 1) (← kind),
      ← word32? (← offset), ← word32? (← length)⟩

end Token

namespace Tree

mutual

def toDatum : Tree → Datum
  | token leaf => .record [("Token", leaf.toDatum)]
  | phrase kind children =>
    .record
      [("Phrase",
        .record [("kind", .text kind.name), ("children", .list (toDatumAll children))])]

def toDatumAll : List Tree → List Datum
  | [] => []
  | tree :: rest => toDatum tree :: toDatumAll rest

end

/-- Reads a tree in the textual style with at most `room` lists and maps around each other. -/
def ofDatum? : Nat → Datum → Option Tree
  | 0, _ => none
  | room + 1, datum => do
    let (name, content) ← variant? .textual ["Phrase", "Token"] (room + 1) datum
    if name = "Token" then (Token.ofDatum? .textual room content).map token
    else
      let [some kind, some (.list items)] ←
        fields? .textual ["kind", "children"] room content | none
      let kind ← plainVariant? .textual PhraseKind.all PhraseKind.name (room - 1) kind
      match room with
      | inner + 2 => (items.mapM (ofDatum? inner)).map (phrase kind)
      | _ => none

end Tree

namespace SymbolId

def toDatum (id : SymbolId) : Datum :=
  .record [("kind", id.kind.toDatum), ("name", .text id.name)]

def ofDatum? (style : Style) (room : Nat) (datum : Datum) : Option SymbolId := do
  let [kind, name] ← fields? style ["kind", "name"] room datum | none
  some ⟨← SymbolKind.ofDatum? style (room - 1) (← kind), ← text? (← name)⟩

end SymbolId

namespace DocInfo

def toDatum (doc : DocInfo) : Datum :=
  .record [("description", .text doc.description), ("type", .text doc.type)]

def ofDatum? (style : Style) (room : Nat) (datum : Datum) : Option DocInfo := do
  let [description, type] ← fields? style ["description", "type"] room datum | none
  some ⟨← text? (← description), ← text? (← type)⟩

end DocInfo

namespace Symbol

mutual

def toDatum (style : Style) : Symbol → Datum
  | ⟨kind, name, location, modifiers, doc, type, associated, children, scope, value⟩ =>
    .record
      [("kind", kind.toDatum), ("name", .text name),
        ("location", (location.map Location.toDatum).getD .null),
        ("modifiers", modifiers.toDatum style), ("doc", (doc.map DocInfo.toDatum).getD .null),
        ("type", .text type), ("associated", .list (associated.map SymbolId.toDatum)),
        ("children", .list (toDatumAll style children)), ("scope", .optionalText scope),
        ("value", .optionalText value)]

def toDatumAll (style : Style) : List Symbol → List Datum
  | [] => []
  | symbol :: rest => toDatum style symbol :: toDatumAll style rest

end

def fieldNames : List String :=
  ["kind", "name", "location", "modifiers", "doc", "type", "associated", "children", "scope",
    "value"]

/-- Puts a symbol together from its fields, with at most `room` lists and maps around each other
in each of them. -/
def ofFields? (style : Style) (room : Nat) (child : Datum → Option Symbol) :
    List (Option Datum) → Option Symbol
  | [kind, name, location, modifiers, doc, type, associated, children, scope, value] => do
    let kind ← SymbolKind.ofDatum? style room (← kind)
    let name ← text? (← name)
    let location ← optional? (Location.ofDatum? style room) location
    let modifiers ← Modifiers.ofDatum? style (← modifiers)
    let doc ← optional? (DocInfo.ofDatum? style room) doc
    let type ← text? (← type)
    let associated ← listOf? (SymbolId.ofDatum? style) room (← associated)
    let children ← (← items? room (← children)).mapM child
    let scope ← optional? text? scope
    let value ← optional? text? value
    some ⟨kind, name, location, modifiers, doc, type, associated, children, scope, value⟩
  | _ => none

/-- Reads a symbol with at most `room` lists and maps around each other. Two of them stand around
its children. -/
def ofDatum? (style : Style) : Nat → Datum → Option Symbol
  | 0, _ => none
  | 1, datum => fields? style fieldNames 1 datum >>= ofFields? style 0 fun _ => none
  | room + 2, datum =>
    fields? style fieldNames (room + 2) datum >>= ofFields? style (room + 1) (ofDatum? style room)

end Symbol

namespace SymbolTable

def toDatum (table : SymbolTable) : Datum :=
  .record
    [("uri", .text table.uri), ("hash", .natural table.hash.toNat),
      ("root", table.root.toDatum .compact)]

def ofDatum? (room : Nat) (datum : Datum) : Option SymbolTable := do
  let [uri, hash, root] ← fields? .compact ["uri", "hash", "root"] room datum | none
  some
    ⟨← text? (← uri), ← word64? (← hash), ← Symbol.ofDatum? .compact (room - 1) (← root)⟩

end SymbolTable

namespace Reference

def toDatum (reference : Reference) : Datum :=
  .record
    [("kind", reference.kind.toDatum), ("name", .text reference.name),
      ("scope", .text reference.scope), ("alt_name", .optionalText reference.altName),
      ("type", .text reference.type), ("location", reference.location.toDatum)]

def ofDatum? (style : Style) (room : Nat) (datum : Datum) : Option Reference := do
  let [kind, name, scope, altName, type, location] ←
    fields? style ["kind", "name", "scope", "alt_name", "type", "location"] room datum | none
  some
    ⟨← SymbolKind.ofDatum? style (room - 1) (← kind), ← text? (← name), ← text? (← scope),
      ← optional? text? altName, ← text? (← type),
      ← Location.ofDatum? style (room - 1) (← location)⟩

end Reference

namespace Scope

mutual

def toDatum : Scope → Datum
  | ⟨location, children⟩ =>
    .record [("location", location.toDatum), ("children", .list (childrenToDatum children))]

def childrenToDatum : List ScopeChild → List Datum
  | [] => []
  | .scope inner :: rest => .record [("Scope", toDatum inner)] :: childrenToDatum rest
  | .reference reference :: rest =>
    .record [("Reference", reference.toDatum)] :: childrenToDatum rest

end

mutual

/-- Reads a scope with at most `room` lists and maps around each other. -/
def ofDatum? (style : Style) : Nat → Datum → Option Scope
  | 0, _ => none
  | room + 1, datum => do
    let [location, children] ← fields? style ["location", "children"] (room + 1) datum | none
    let location ← Location.ofDatum? style room (← location)
    some ⟨location, ← (← items? room (← children)).mapM (childOfDatum? style room)⟩

/-- Reads a child of a scope, with at most `room` lists and maps around each other where the list
of the children stands. -/
def childOfDatum? (style : Style) : Nat → Datum → Option ScopeChild
  | 0, _ => none
  | room + 1, datum => do
    let (name, content) ← variant? style ["Scope", "Reference"] room datum
    if name = "Reference" then
      (Reference.ofDatum? style (← roomInside? style room) content).map ScopeChild.reference
    else
      let scope ← match style, room with
        | .compact, room => ofDatum? .compact room content
        | .textual, room + 1 => ofDatum? .textual room content
        | .textual, 0 => none
      some (.scope scope)

end

end Scope

namespace ReferenceTable

def toDatum (table : ReferenceTable) : Datum :=
  .record
    [("uri", .text table.uri), ("hash", .natural table.hash.toNat),
      ("root", table.root.toDatum)]

def ofDatum? (room : Nat) (datum : Datum) : Option ReferenceTable := do
  let [uri, hash, root] ← fields? .compact ["uri", "hash", "root"] room datum | none
  some
    ⟨← text? (← uri), ← word64? (← hash), ← Scope.ofDatum? .compact (room - 1) (← root)⟩

end ReferenceTable

end SymbolIndex
