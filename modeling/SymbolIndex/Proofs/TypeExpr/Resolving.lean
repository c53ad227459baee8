import SymbolIndex.Proofs.TypeExpr.Shapes

/-!
# Names of types

Resolving a type replaces its names one by one, also the names in its groups,
and leaves groups and suffixes as they are.  Names that become the same make
members the same, which are then written once.  So resolving a union gives the
union of what its parts are resolved to.
-/

namespace SymbolIndex.TypeExpr

namespace PlainName

/-- A name without the backslash it begins with. -/
def unrooted (name : PlainName) (hrooted : name.chars.head? = some '\\') : PlainName where
  chars := name.chars.tail
  plain c hmem := name.plain c (List.mem_of_mem_tail hmem)
  unsuffixed hsuffix := name.unsuffixed (hsuffix.trans (List.tail_suffix name.chars))
  solid := by
    obtain ⟨c, hmem, hsolid⟩ := name.solid
    rw [List.eq_cons_of_mem_head? hrooted] at hmem
    exact ⟨c, (List.mem_cons.1 hmem).resolve_left hsolid, hsolid⟩

/-- What becomes of a name: with a leading backslash it is complete, a built-in
type stays, and the others are resolved. -/
def resolved (resolve : String → PlainName) (name : PlainName) : PlainName :=
  if hrooted : name.chars.head? = some '\\' then name.unrooted hrooted
  else if isKeyword name.text then name
  else resolve name.text

end PlainName

namespace Shape

/-- Every name of a member replaced, in groups too. -/
def rename (f : PlainName → PlainName) : Shape → Shape
  | leaf name rank => leaf (f name) rank
  | group shapes rank => group (shapes.map (rename f)) rank

/-- Every union inside a member without later repetitions. -/
def distinct : Shape → Shape
  | leaf name rank => leaf name rank
  | group shapes rank => group (shapes.map distinct).eraseDups rank

end Shape

/-! ## Member by member -/

variable (resolve : List Char → List Char)

/-- Resolves a name, which may begin with a backslash or be built-in. -/
def resolveName : List Char → List Char
  | '\\' :: name => name
  | name => if isKeywordName name then name else resolve name

/-- Resolves the names of one member. -/
def resolveMember (part : List Char) : List Char :=
  match groupBody? (base part) with
  | some body => grouped (resolveChars resolve body) ++ suffixes (rank part)
  | none => resolveName resolve (base part) ++ suffixes (rank part)

/-- A type is resolved member by member. -/
theorem resolveChars_eq (chars : List Char) :
    resolveChars resolve chars = joinUnique ((members chars).map (resolveMember resolve)) := by
  have hattach : (members chars).map (resolveMember resolve) =
      (members chars).attach.map fun part => resolveMember resolve part.1 :=
    List.attach_map_val.symm
  rw [resolveChars, hattach]
  congr 1
  apply List.map_congr_left
  rintro ⟨part, hpart⟩ -
  dsimp only
  split
  · rename_i body hbody
    rw [resolveMember, hbody]
    rfl
  · rename_i hname
    rw [resolveMember, hname]
    rfl

/-- A callback for names, on their characters. -/
def onChars (f : String → PlainName) (name : List Char) : List Char :=
  (f (String.ofList name)).chars

/-- A written name is resolved as the name is. -/
theorem resolveName_chars (f : String → PlainName) (name : PlainName) :
    resolveName (onChars f) name.chars = (name.resolved f).chars := by
  rw [PlainName.resolved]
  split
  · rename_i hrooted
    have hchars := List.eq_cons_of_mem_head? hrooted
    rw [hchars]
    rfl
  · rename_i hrooted
    unfold resolveName
    split
    · rename_i rest heq
      exact absurd (congrArg List.head? heq) hrooted
    · rw [isKeyword, PlainName.text, String.toList_ofList]
      split
      · rfl
      · rfl

/-- What a union is resolved to: every name in it is replaced, and later
repetitions are left out, in groups too. -/
def resolvedShapes (f : String → PlainName) (shapes : List Shape) : List Shape :=
  ((shapes.map (Shape.rename (PlainName.resolved f))).map Shape.distinct).eraseDups

/-- A union is resolved as its members are. -/
theorem resolveChars_join {f : String → PlainName} {shapes : List Shape}
    (hmembers : ∀ shape ∈ shapes, resolveMember (onChars f) shape.chars =
      (shape.rename (PlainName.resolved f)).distinct.chars) :
    resolveChars (onChars f) (join (shapes.map Shape.chars)) =
      join ((resolvedShapes f shapes).map Shape.chars) := by
  have hresolved : (shapes.map Shape.chars).map (resolveMember (onChars f)) =
      ((shapes.map (Shape.rename (PlainName.resolved f))).map Shape.distinct).map Shape.chars := by
    rw [List.map_map, List.map_map, List.map_map]
    exact List.map_congr_left hmembers
  rw [resolveChars_eq, Shape.members_join_chars, hresolved, joinUnique,
    eraseDups_map Shape.chars_injective, resolvedShapes]

/-- A member is resolved name by name. -/
theorem resolveMember_chars (f : String → PlainName) (shape : Shape) :
    resolveMember (onChars f) shape.chars =
      (shape.rename (PlainName.resolved f)).distinct.chars := by
  induction shape using Shape.chars.induct with
  | case1 name rank =>
      rw [resolveMember, Shape.base_chars, Shape.rank_chars, Shape.core, name.groupBody?_chars,
        Shape.rename, Shape.distinct, Shape.chars, ← resolveName_chars]
      rfl
  | case2 shapes rank ih =>
      rw [resolveMember, Shape.base_chars, Shape.rank_chars, Shape.core,
        groupBody?_eq_some_iff.2 rfl, Shape.rename, Shape.distinct, Shape.chars,
        ← resolvedShapes, ← resolveChars_join ih]
      rfl

/-! ## Types -/

/-- Every name of a type is resolved, and repetitions are dropped. -/
theorem resolveNames_eq (f : String → PlainName) (shapes : List Shape) :
    resolveNames (ofShapes shapes) (fun name => (f name).text) =
      ofShapes (resolvedShapes f shapes) := by
  have hcallback : (fun name => ((f (String.ofList name)).text).toList) = onChars f := by
    funext name
    rw [PlainName.text, String.toList_ofList, onChars]
  rw [resolveNames, hcallback, ofShapes, String.toList_ofList,
    resolveChars_join fun shape _ => resolveMember_chars f shape, ofShapes]

theorem resolvedShapes_eraseDups (f : String → PlainName) (shapes : List Shape) :
    resolvedShapes f shapes.eraseDups = resolvedShapes f shapes := by
  rw [resolvedShapes, resolvedShapes, List.map_map, List.map_map, eraseDups_map_eraseDups]

theorem resolvedShapes_append (f : String → PlainName) (shapes others : List Shape) :
    resolvedShapes f (shapes ++ others) =
      (resolvedShapes f shapes ++ resolvedShapes f others).eraseDups := by
  rw [resolvedShapes, resolvedShapes, resolvedShapes, List.map_append, List.map_append,
    eraseDups_eraseDups_append, eraseDups_append_eraseDups]

/-- Resolving a type replaces every name in it, at every depth, and resolving a
union gives the union of what its parts are resolved to. -/
theorem resolveNames_ofShapes (f : String → PlainName) (shapes others : List Shape) :
    let resolve := fun type => resolveNames type fun name => (f name).text
    resolve (ofShapes shapes) = ofShapes (resolvedShapes f shapes) ∧
      resolve (merge (ofShapes shapes) (ofShapes others)) =
        merge (resolve (ofShapes shapes)) (resolve (ofShapes others)) := by
  intro resolve
  refine ⟨resolveNames_eq f shapes, ?_⟩
  calc resolve (merge (ofShapes shapes) (ofShapes others))
      = ofShapes (resolvedShapes f (shapes ++ others)) := by
        rw [merge_ofShapes, ← resolvedShapes_eraseDups]
        exact resolveNames_eq f (shapes ++ others).eraseDups
    _ = merge (ofShapes (resolvedShapes f shapes)) (ofShapes (resolvedShapes f others)) := by
        rw [merge_ofShapes, resolvedShapes_append]
    _ = merge (resolve (ofShapes shapes)) (resolve (ofShapes others)) := by
        rw [← resolveNames_eq, ← resolveNames_eq]

end SymbolIndex.TypeExpr
