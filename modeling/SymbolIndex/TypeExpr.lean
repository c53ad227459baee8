import SymbolIndex.Text.Blank
import SymbolIndex.Text.Casing

/-!
# Type expressions

An inferred type is a union written with `|` between its members. A member is a name, a name with
array suffixes, or a parenthesised union with array suffixes. The empty text is the unknown type.

The operations are defined on characters, by recursion on the text, and lifted to strings.
-/

namespace SymbolIndex.TypeExpr

open SymbolIndex.Text

/-- Nesting after one character. A parenthesis that closes nothing leaves the nesting at zero. -/
def nestingAfter (depth : Nat) : Char → Nat
  | '(' => depth + 1
  | ')' => depth - 1
  | _ => depth

/-- Nesting after a text. -/
def nesting (depth : Nat) (chars : List Char) : Nat :=
  chars.foldl nestingAfter depth

/-- Cuts at the bars outside all parentheses. -/
def split (depth : Nat) : List Char → List (List Char)
  | [] => [[]]
  | c :: rest =>
    if c = '|' ∧ depth = 0 then [] :: split 0 rest
    else
      match split (nestingAfter depth c) rest with
      | [] => [[c]]
      | part :: more => (c :: part) :: more

/-- The members of a union, in order; blank ones do not count. -/
def members (chars : List Char) : List (List Char) :=
  ((split 0 chars).map trim).filter (fun part => !part.isEmpty)

/-- Writes members as a union. -/
def join (parts : List (List Char)) : List Char :=
  List.intercalate ['|'] parts

/-- Writes members as a union, each at its first place only. -/
def joinUnique (parts : List (List Char)) : List Char :=
  join parts.eraseDups

def keywords : List String :=
  ["string", "integer", "int", "boolean", "bool", "float", "double", "object", "mixed", "array",
    "resource", "void", "null", "false", "true", "static", "callable", "$this", "real",
    "iterable", "never"]

/-- A built-in type, in any ASCII case, rather than the name of a class. -/
def isKeywordName (name : List Char) : Bool :=
  keywords.any fun keyword => keyword.toList == asciiLower name

/-- Takes the array suffixes off a member read backwards: what is left, and how many there were. -/
def peelReversed : List Char → List Char × Nat
  | ']' :: '[' :: rest => ((peelReversed rest).1, (peelReversed rest).2 + 1)
  | rest => (rest, 0)

/-- A member without its array suffixes. -/
def base (part : List Char) : List Char :=
  (peelReversed part.reverse).1.reverse

/-- The number of array suffixes of a member. -/
def rank (part : List Char) : Nat :=
  (peelReversed part.reverse).2

/-- The array suffix, `rank` times. -/
def suffixes : Nat → List Char
  | 0 => []
  | rank + 1 => '[' :: ']' :: suffixes rank

/-- What stands between the parentheses of a group. -/
def groupBody? : List Char → Option (List Char)
  | '(' :: rest =>
    match rest.reverse with
    | ')' :: body => some body.reverse
    | _ => none
  | _ => none

/-- A member that ends in an array suffix, without that suffix. -/
def element? (part : List Char) : Option (List Char) :=
  match part.reverse with
  | ']' :: '[' :: rest => some rest.reverse
  | _ => none

/-- The members that one member of an array type contributes to its element type. -/
def elementMembers (part : List Char) : List (List Char) :=
  match element? part with
  | none => []
  | some inner =>
    match groupBody? inner with
    | some body => members body
    | none => [inner]

def elementChars (chars : List Char) : List Char :=
  joinUnique ((members chars).flatMap elementMembers)

def arrayChars (chars : List Char) : List Char :=
  match members chars with
  | [] => "array".toList
  | [part] => part ++ ['[', ']']
  | parts => '(' :: join parts ++ [')', '[', ']']

/-- A member that names a class. -/
def namesClass (part : List Char) : Bool :=
  (element? part).isNone && part.head? != some '(' && !isKeywordName part

def isLateBound (name : List Char) : Bool :=
  name == "$this".toList || asciiLower name == "static".toList

def rebindMember (fqn : List Char) (part : List Char) : List Char :=
  if isLateBound (base part) then fqn ++ suffixes (rank part) else part

/-! ### Names inside groups

A group is shorter than the member it is the body of, and a member no longer than its union, so
the names of a type can be replaced group by group. -/

theorem length_le_of_mem_split {depth : Nat} {chars part : List Char}
    (h : part ∈ split depth chars) : part.length ≤ chars.length := by
  induction chars generalizing depth part with
  | nil => simp_all [split]
  | cons c rest ih =>
    rw [split] at h
    split at h
    · rcases List.mem_cons.1 h with rfl | h
      · simp
      · exact Nat.le_succ_of_le (ih h)
    · split at h
      · simp_all
      · rename_i head more heq
        rcases List.mem_cons.1 h with rfl | h
        · have hhead : head ∈ split (nestingAfter depth c) rest := by simp [heq]
          simpa using ih hhead
        · have hpart : part ∈ split (nestingAfter depth c) rest := by simp [heq, h]
          exact Nat.le_succ_of_le (ih hpart)

theorem length_dropWhile_le (p : Char → Bool) (chars : List Char) :
    (chars.dropWhile p).length ≤ chars.length :=
  (List.dropWhile_suffix p).length_le

theorem length_trim_le (chars : List Char) : (trim chars).length ≤ chars.length := by
  simp only [trim, trimEnd, List.length_reverse]
  refine Nat.le_trans (length_dropWhile_le _ _) ?_
  simpa using length_dropWhile_le isBlank chars

theorem length_le_of_mem_members {chars part : List Char} (h : part ∈ members chars) :
    part.length ≤ chars.length := by
  simp only [members, List.mem_filter, List.mem_map] at h
  obtain ⟨⟨raw, hraw, rfl⟩, -⟩ := h
  exact Nat.le_trans (length_trim_le raw) (length_le_of_mem_split hraw)

theorem length_peelReversed_le (chars : List Char) :
    (peelReversed chars).1.length ≤ chars.length := by
  fun_induction peelReversed chars with
  | case1 rest ih => simp only [List.length_cons]; omega
  | case2 => simp

theorem length_base_le (part : List Char) : (base part).length ≤ part.length := by
  simpa [base] using length_peelReversed_le part.reverse

theorem length_lt_of_groupBody? {chars body : List Char} (h : groupBody? chars = some body) :
    body.length < chars.length := by
  unfold groupBody? at h
  split at h
  · rename_i rest
    split at h
    · rename_i reversed heq
      have hlength := congrArg List.length heq
      simp only [Option.some.injEq] at h
      subst h
      simp only [List.length_reverse, List.length_cons] at *
      omega
    · simp at h
  · simp at h

/-- Replaces the class names of a type, inside groups too. A name with a leading backslash is
complete and loses the backslash; a built-in type stays. -/
def resolveChars (resolve : List Char → List Char) (chars : List Char) : List Char :=
  joinUnique ((members chars).attach.map fun ⟨part, hpart⟩ =>
    let resolved :=
      match hbody : groupBody? (base part) with
      | some body =>
        have : body.length < chars.length :=
          Nat.lt_of_lt_of_le (length_lt_of_groupBody? hbody)
            (Nat.le_trans (length_base_le part) (length_le_of_mem_members hpart))
        '(' :: resolveChars resolve body ++ [')']
      | none =>
        match base part with
        | '\\' :: name => name
        | name => if isKeywordName name then name else resolve name
    resolved ++ suffixes (rank part))
termination_by chars.length

/-! ### On strings -/

def isKeyword (name : String) : Bool :=
  isKeywordName name.toList

/-- The members of a union, in order. -/
def atoms (type : String) : List String :=
  (members type.toList).map String.ofList

/-- The union of two types: the members of both, each at its first place. -/
def merge (left right : String) : String :=
  String.ofList (joinUnique (members left.toList ++ members right.toList))

/-- The union of many types. -/
def mergeAll (types : List String) : String :=
  types.foldl merge ""

/-- The element type of an array type. Members that are no arrays are dropped. -/
def element (type : String) : String :=
  String.ofList (elementChars type.toList)

/-- The type of arrays of `type`. -/
def arrayOf (type : String) : String :=
  String.ofList (arrayChars type.toList)

/-- The classes that a type names, without leading backslashes. -/
def classNames (type : String) : List String :=
  ((members type.toList).filter namesClass).map fun part =>
    String.ofList (part.dropWhile (· == '\\'))

/-- Replaces the late-bound members `$this` and `static` by the class `fqn`, if it has a name. -/
def rebind (type fqn : String) : String :=
  if fqn = "" then type
  else String.ofList (joinUnique ((members type.toList).map (rebindMember fqn.toList)))

/-- Replaces the class names of a type by what `resolve` makes of them. -/
def resolveNames (type : String) (resolve : String → String) : String :=
  String.ofList (resolveChars (fun name => (resolve (String.ofList name)).toList) type.toList)

end SymbolIndex.TypeExpr
