import Mathlib.Data.List.Perm.Lattice
import Mathlib.Logic.Function.Iterate
import SymbolIndex.Hierarchy

/-!
# The walk over what a type inherits from

References between types are whatever the documents say: they may go in circles,
meet again, and name several declarations at once.  Over any lookup that gives
the declarations of a name, the walk comes to an end and finds exactly the
declarations of the names that the root leads to.  It finds them level by level:
first those that the root refers to, then those that these refer to, and so on.
-/

namespace SymbolIndex

open SymbolIndex.Text
open scoped List

namespace ClassLookup

/-- Gives all declarations of a name, which are those with this name up to the
case of its letters. -/
structure Complete (lookup : ClassLookup) : Prop where
  find_perm : ∀ name, (lookup.find name).Perm
    (lookup.declarations.filter fun declared => decide (lower declared.symbol.name = lower name))

/-- Looks through all declarations. -/
def scanning (declarations : List Declared) : ClassLookup where
  declarations := declarations
  find name :=
    declarations.filter fun declared => decide (lower declared.symbol.name = lower name)

theorem complete_scanning (declarations : List Declared) : (scanning declarations).Complete where
  find_perm _ := List.Perm.refl _

/-- A complete lookup finds the declarations of a name, and no others. -/
theorem Complete.mem_find_iff {lookup : ClassLookup} (hlookup : lookup.Complete)
    {name : String} {declared : Declared} :
    declared ∈ lookup.find name ↔
      declared ∈ lookup.declarations ∧ lower declared.symbol.name = lower name := by
  rw [(hlookup.find_perm name).mem_iff, List.mem_filter, decide_eq_true_eq]

end ClassLookup

namespace Hierarchy

/-! ## What is to be found -/

/-- The root leads to a lower-cased name by references of types.  Of the root's
own name only the root is followed, of any other name all declarations are. -/
inductive Reaches (hierarchy : Hierarchy) : String → Prop
  | direct {id : SymbolId} (hreference : id ∈ hierarchy.root.symbol.associated) :
      Reaches hierarchy (lower id.name)
  | further {owner : Declared} {id : SymbolId}
      (hreached : Reaches hierarchy (lower owner.symbol.name))
      (hother : lower owner.symbol.name ≠ lower hierarchy.name)
      (howner : owner ∈ hierarchy.lookup.declarations)
      (hreference : id ∈ owner.symbol.associated) :
      Reaches hierarchy (lower id.name)

/-- The root leads to the name of a declaration, which is not the root's name. -/
def Inherits (hierarchy : Hierarchy) (declared : Declared) : Prop :=
  lower declared.symbol.name ≠ lower hierarchy.name ∧
    hierarchy.Reaches (lower declared.symbol.name)

/-- What declarations refer to, in order. -/
def references (declarations : List Declared) : List SymbolId :=
  declarations.flatMap (·.symbol.associated)

theorem references_cons (declared : Declared) (rest : List Declared) :
    references (declared :: rest) = declared.symbol.associated ++ references rest :=
  List.flatMap_cons

/-- The names in references that are not among the lower-cased ones met before,
each as it is written first. -/
def firstMentions (met : List String) (ids : List SymbolId) : List String :=
  ((ids.map (·.name)).filter fun name => decide (lower name ∉ met)).eraseDupsBy
    fun later earlier => decide (lower later = lower earlier)

/-- The declarations at one distance from the root, and the names of all that
are no farther. -/
structure Level where
  names : List String
  declarations : List Declared

/-- The declarations of the names that a level is the first to refer to. -/
def Level.next (find : String → List Declared) (level : Level) : Level :=
  let fresh := firstMentions (level.names.map lower) (references level.declarations)
  ⟨level.names ++ fresh, fresh.flatMap find⟩

def level (hierarchy : Hierarchy) (distance : Nat) : Level :=
  (Level.next hierarchy.lookup.find)^[distance] ⟨[hierarchy.name], [hierarchy.root]⟩

/-- The declarations at distances from one to `depth`, the near ones first. -/
def breadthFirst (hierarchy : Hierarchy) (depth : Nat) : List Declared :=
  (List.range depth).flatMap fun distance => (hierarchy.level (distance + 1)).declarations

/-! ## The walk, round by round -/

/-- The lower-cased names met so far, the declarations that wait for their turn,
and what was found. -/
structure Search where
  met : List String
  queue : List Declared
  types : List Declared := []
  traits : List Declared := []

namespace Search

def start (root : Declared) : Search :=
  { met := [lower root.symbol.name], queue := [root] }

def found (search : Search) : List Declared :=
  search.types ++ search.traits

/-- Follows a reference, unless its name was met before. -/
def follow (find : String → List Declared) (search : Search) (id : SymbolId) : Search :=
  if lower id.name ∈ search.met then search
  else
    { met := lower id.name :: search.met
      queue := search.queue ++ find id.name
      types := search.types ++ (find id.name).filter fun declared => !isTrait declared
      traits := search.traits ++ (find id.name).filter isTrait }

/-- Follows the references of the declaration whose turn it is. -/
def round (find : String → List Declared) (search : Search) : Search :=
  match search.queue with
  | [] => search
  | current :: rest => current.symbol.associated.foldl (follow find) { search with queue := rest }

end Search

/-! ## The walk comes to an end

The rounds know nothing of the names that can occur at all.  `reach` does, and
ends because only so many of them are left; the rounds do the same. -/

/-- A declaration refers to given lower-cased names only. -/
def RefersWithin (names : List String) (declared : Declared) : Prop :=
  ∀ id ∈ declared.symbol.associated, lower id.name ∈ names

theorem refersWithin_referredNames {hierarchy : Hierarchy} {declared : Declared}
    (hmem : declared = hierarchy.root ∨ declared ∈ hierarchy.lookup.declarations) :
    RefersWithin hierarchy.referredNames declared := by
  intro id hid
  exact List.mem_map_of_mem (List.mem_flatMap.2 ⟨declared, List.mem_cons.2 hmem, hid⟩)

section

variable {find : String → List Declared} {names : List String}

theorem firstMentions_of_met {met : List String} {id : SymbolId} (hmet : lower id.name ∈ met)
    (rest : List SymbolId) : firstMentions met (id :: rest) = firstMentions met rest := by
  rw [firstMentions, firstMentions, List.map_cons, List.filter_cons_of_neg (by simpa using hmet)]

theorem firstMentions_of_new {met : List String} {id : SymbolId} (hnew : lower id.name ∉ met)
    (rest : List SymbolId) : firstMentions met (id :: rest) =
      id.name :: firstMentions (lower id.name :: met) rest := by
  rw [firstMentions, firstMentions, List.map_cons,
    List.filter_cons_of_pos (by simpa using hnew), List.eraseDupsBy_cons, List.filter_filter]
  congr 3
  funext name
  simp [Bool.and_comm]

theorem firstMentions_congr {met other : List String} (hsame : ∀ key, key ∈ met ↔ key ∈ other)
    (ids : List SymbolId) : firstMentions met ids = firstMentions other ids := by
  simp only [firstMentions, hsame]

/-- What is discovered are the declarations of the names mentioned first, and
these are the names met in addition. -/
theorem discover_spec (find : String → List Declared) {ids : List SymbolId}
    (hnames : ∀ id ∈ ids, lower id.name ∈ names) (met : List String) :
    (discover find names met ids).2 = (firstMentions met ids).flatMap find ∧
      ∀ key, key ∈ (discover find names met ids).1 ↔
        key ∈ met ∨ key ∈ (firstMentions met ids).map lower := by
  induction ids generalizing met with
  | nil => simp [discover, firstMentions]
  | cons id rest ih =>
      obtain ⟨hfirst, hrest⟩ := List.forall_mem_cons.1 hnames
      rw [discover]
      by_cases hmet : lower id.name ∈ met
      · rw [if_neg (by simp [hmet]), firstMentions_of_met hmet]
        exact ih hrest met
      · obtain ⟨hfound, hkeys⟩ := ih hrest (lower id.name :: met)
        rw [if_pos (by simp [hmet, hfirst]), firstMentions_of_new hmet, List.flatMap_cons]
        refine ⟨congrArg (find id.name ++ ·) hfound, fun key => ?_⟩
        rw [hkeys key, List.mem_cons, List.map_cons, List.mem_cons, or_left_comm, or_assoc]

/-- What is discovered refers to names of the given ones only. -/
theorem refersWithin_of_mem_discover
    (hfind : ∀ name, ∀ declared ∈ find name, RefersWithin names declared)
    {ids : List SymbolId} (hnames : ∀ id ∈ ids, lower id.name ∈ names) {met : List String} :
    ∀ declared ∈ (discover find names met ids).2, RefersWithin names declared := by
  intro declared hmem
  rw [(discover_spec find hnames met).1] at hmem
  obtain ⟨name, -, hfound⟩ := List.mem_flatMap.1 hmem
  exact hfind name declared hfound

/-- Following references one by one discovers all of them. -/
theorem foldl_follow_eq {ids : List SymbolId} (hnames : ∀ id ∈ ids, lower id.name ∈ names)
    (search : Search) :
    ids.foldl (Search.follow find) search =
      { met := (discover find names search.met ids).1
        queue := search.queue ++ (discover find names search.met ids).2
        types := search.types ++
          (discover find names search.met ids).2.filter fun declared => !isTrait declared
        traits := search.traits ++ (discover find names search.met ids).2.filter isTrait } := by
  induction ids generalizing search with
  | nil => simp [discover]
  | cons id rest ih =>
      obtain ⟨hfirst, hrest⟩ := List.forall_mem_cons.1 hnames
      rw [List.foldl_cons, ih hrest, discover]
      by_cases hmet : lower id.name ∈ search.met
      · simp [Search.follow, hmet]
      · simp [Search.follow, hmet, hfirst]

/-- After some rounds nothing waits any more, and what `reach` gives was found. -/
theorem exists_rounds (hfind : ∀ name, ∀ declared ∈ find name, RefersWithin names declared)
    (search : Search) (hqueue : ∀ declared ∈ search.queue, RefersWithin names declared) :
    ∃ rounds, ((Search.round find)^[rounds] search).queue = [] ∧
      ((Search.round find)^[rounds] search).types = search.types ++
        (reach find names search.met search.queue).filter (fun declared => !isTrait declared) ∧
      ((Search.round find)^[rounds] search).traits = search.traits ++
        (reach find names search.met search.queue).filter isTrait := by
  obtain ⟨met, queue, types, traits⟩ := search
  dsimp only at hqueue ⊢
  -- The rounds follow the recursion of `reach`, one for each of its calls.
  induction met, queue using reach.induct find names generalizing types traits with
  | case1 met => exact ⟨0, rfl, by simp [reach], by simp [reach]⟩
  | case2 met current queue discovery ih =>
      obtain ⟨hcurrent, hothers⟩ := List.forall_mem_cons.1 hqueue
      have hround : Search.round find ⟨met, current :: queue, types, traits⟩ =
          ⟨discovery.1, queue ++ discovery.2,
            types ++ discovery.2.filter (fun declared => !isTrait declared),
            traits ++ discovery.2.filter isTrait⟩ :=
        foldl_follow_eq hcurrent _
      have hlater : ∀ declared ∈ queue ++ discovery.2, RefersWithin names declared :=
        List.forall_mem_append.2 ⟨hothers, refersWithin_of_mem_discover hfind hcurrent⟩
      obtain ⟨rounds, hdone, htypes, htraits⟩ := ih _ _ hlater
      refine ⟨rounds + 1, ?_⟩
      rw [Function.iterate_succ_apply, hround, reach, List.filter_append, List.filter_append,
        ← List.append_assoc, ← List.append_assoc]
      exact ⟨hdone, htypes, htraits⟩

/-! ## The walk goes level by level -/

/-- The names met in the first references are left out in the later ones. -/
theorem discover_append (met : List String) (left right : List SymbolId) :
    discover find names met (left ++ right) =
      ((discover find names (discover find names met left).1 right).1,
        (discover find names met left).2 ++
          (discover find names (discover find names met left).1 right).2) := by
  induction left generalizing met with
  | nil => simp [discover]
  | cons id rest ih =>
      rw [List.cons_append, discover, discover]
      split
      · rw [ih, List.append_assoc]
      · rw [ih]

/-- Declarations at the front of the queue have all their turns before anything
that they lead to. -/
theorem reach_append (find : String → List Declared) (names met : List String)
    (front back : List Declared) :
    reach find names met (front ++ back) =
      (discover find names met (references front)).2 ++
        reach find names (discover find names met (references front)).1
          (back ++ (discover find names met (references front)).2) := by
  induction front generalizing met back with
  | nil => simp [references, discover]
  | cons current rest ih =>
      rw [List.cons_append, reach, List.append_assoc, ih, references_cons, discover_append,
        List.append_assoc, List.append_assoc]

/-- The next level is what is discovered from a level as a whole. -/
theorem next_eq_discover (find : String → List Declared) {level : Level}
    (hlevel : ∀ id ∈ references level.declarations, lower id.name ∈ names) {met : List String}
    (hmet : ∀ key, key ∈ met ↔ key ∈ level.names.map lower) :
    (level.next find).declarations =
        (discover find names met (references level.declarations)).2 ∧
      ∀ key, key ∈ (discover find names met (references level.declarations)).1 ↔
        key ∈ (level.next find).names.map lower := by
  obtain ⟨hfound, hkeys⟩ := discover_spec find hlevel met
  have hfresh := firstMentions_congr hmet (references level.declarations)
  rw [hfound, hfresh]
  refine ⟨rfl, fun key => ?_⟩
  rw [hkeys key, hmet key, hfresh, ← List.mem_append, ← List.map_append]
  rfl

/-- The walk is the levels one after another, up to the first that is empty. -/
theorem exists_levels (hfind : ∀ name, ∀ declared ∈ find name, RefersWithin names declared)
    (level : Level) (hlevel : ∀ declared ∈ level.declarations, RefersWithin names declared)
    {met : List String} (hmet : ∀ key, key ∈ met ↔ key ∈ level.names.map lower) :
    ∃ depth, ((Level.next find)^[depth] level).declarations = [] ∧
      reach find names met level.declarations = (List.range depth).flatMap fun distance =>
        ((Level.next find)^[distance + 1] level).declarations := by
  -- Unless the next level is empty, fewer names are left for it.
  induction hleft : (unmet names met).length using Nat.strongRecOn generalizing level met with
  | ind left ih =>
      have hids : ∀ id ∈ references level.declarations, lower id.name ∈ names := by
        intro id hid
        obtain ⟨owner, howner, hid⟩ := List.mem_flatMap.1 hid
        exact hlevel owner howner id hid
      obtain ⟨hnext, hnames⟩ := next_eq_discover find hids hmet
      have hreach := reach_append find names met level.declarations []
      rw [List.append_nil, List.nil_append, ← hnext] at hreach
      rcases unmet_discover find names met (references level.declarations) with
        hfewer | ⟨-, hnone⟩
      · have hlater : ∀ declared ∈ (level.next find).declarations,
            RefersWithin names declared := by
          rw [hnext]
          exact refersWithin_of_mem_discover hfind hids
        obtain ⟨depth, hdone, hrest⟩ :=
          ih _ (hleft ▸ hfewer) (level.next find) hlater hnames rfl
        refine ⟨depth + 1, hdone, ?_⟩
        rw [hreach, hrest, List.range_succ_eq_map, List.flatMap_cons, List.flatMap_map]
        rfl
      · rw [← hnext] at hnone
        refine ⟨1, hnone, ?_⟩
        rw [hreach, hnone, reach]
        simpa using hnone.symm

end

/-! ## Exactly what the root leads to is found -/

theorem filter_append_filter_perm {α : Type} {p q r : α → Bool} {items : List α}
    (heither : ∀ item, r item = (p item || q item))
    (hdisjoint : ∀ item, p item = true → q item = false) :
    items.filter p ++ items.filter q ~ items.filter r := by
  have hleft : (items.filter r).filter p = items.filter p := by
    rw [List.filter_filter]
    refine List.filter_congr fun item _ => ?_
    rw [heither]
    cases p item <;> simp
  have hright : (items.filter r).filter (fun item => !p item) = items.filter q := by
    rw [List.filter_filter]
    refine List.filter_congr fun item _ => ?_
    have hnot := hdisjoint item
    rw [heither]
    cases hp : p item <;> simp_all
  simpa only [hleft, hright] using List.filter_append_perm p (items.filter r)

namespace Search

variable {hierarchy : Hierarchy} {search : Search}

/-- Following a new name finds its declarations. -/
theorem found_follow (find : String → List Declared) {id : SymbolId}
    (hnew : lower id.name ∉ search.met) :
    (search.follow find id).found.Perm (search.found ++ find id.name) := by
  have hsplit : ((find id.name).filter (fun declared => !isTrait declared) ++
      (find id.name).filter isTrait).Perm (find id.name) :=
    List.perm_append_comm.trans (List.filter_append_perm isTrait _)
  rw [follow, if_neg hnew]
  calc
    (search.types ++ (find id.name).filter fun declared => !isTrait declared) ++
        (search.traits ++ (find id.name).filter isTrait)
      = search.types ++ (((find id.name).filter (fun declared => !isTrait declared) ++
          search.traits) ++ (find id.name).filter isTrait) := by simp only [List.append_assoc]
    _ ~ search.types ++ ((search.traits ++
          (find id.name).filter (fun declared => !isTrait declared)) ++
          (find id.name).filter isTrait) :=
        (List.perm_append_comm.append_right _).append_left _
    _ = search.found ++ ((find id.name).filter (fun declared => !isTrait declared) ++
          (find id.name).filter isTrait) := by simp only [found, List.append_assoc]
    _ ~ search.found ++ find id.name := hsplit.append_left _

/-- What was met stays met, and whatever is found in addition waits. -/
structure Grows (before after : Search) : Prop where
  met : before.met ⊆ after.met
  queue : before.queue ⊆ after.queue
  found : ∀ declared ∈ after.found, declared ∈ before.found ∨ declared ∈ after.queue

theorem Grows.refl (search : Search) : search.Grows search where
  met := List.Subset.refl _
  queue := List.Subset.refl _
  found _ hmem := Or.inl hmem

theorem Grows.trans {first second third : Search} (hleft : first.Grows second)
    (hright : second.Grows third) : first.Grows third where
  met := List.Subset.trans hleft.met hright.met
  queue := List.Subset.trans hleft.queue hright.queue
  found declared hmem := by
    rcases hright.found declared hmem with hsecond | hqueue
    · exact (hleft.found declared hsecond).imp_right fun hqueue => hright.queue hqueue
    · exact Or.inr hqueue

theorem grows_follow (find : String → List Declared) (search : Search) (id : SymbolId) :
    search.Grows (search.follow find id) := by
  by_cases hmet : lower id.name ∈ search.met
  · rw [follow, if_pos hmet]
    exact Grows.refl search
  · have hfound := found_follow find hmet
    refine ⟨?_, ?_, ?_⟩
    · rw [follow, if_neg hmet]
      exact List.subset_cons_self _ _
    · rw [follow, if_neg hmet]
      exact List.subset_append_left _ _
    · intro declared hmem
      rw [hfound.mem_iff, List.mem_append] at hmem
      rw [follow, if_neg hmet]
      exact hmem.imp_right fun hhere => List.mem_append_right _ hhere

/-- All names that are followed are met afterwards. -/
theorem grows_foldl_follow (find : String → List Declared) (ids : List SymbolId)
    (search : Search) : search.Grows (ids.foldl (follow find) search) ∧
      ∀ id ∈ ids, lower id.name ∈ (ids.foldl (follow find) search).met := by
  induction ids generalizing search with
  | nil => exact ⟨Grows.refl search, fun _ hmem => absurd hmem List.not_mem_nil⟩
  | cons id rest ih =>
      obtain ⟨hgrows, hmet⟩ := ih (search.follow find id)
      refine ⟨(grows_follow find search id).trans hgrows, List.forall_mem_cons.2 ⟨?_, hmet⟩⟩
      apply hgrows.met
      by_cases hmet : lower id.name ∈ search.met
      · rwa [follow, if_pos hmet]
      · rw [follow, if_neg hmet]
        exact List.mem_cons_self

/-- All that was met is led to, and of all declarations those with a name that
was met are found, each once. -/
structure Sound (hierarchy : Hierarchy) (search : Search) : Prop where
  root_met : lower hierarchy.name ∈ search.met
  reaches : ∀ key ∈ search.met, key = lower hierarchy.name ∨ hierarchy.Reaches key
  found_perm : search.found.Perm (hierarchy.lookup.declarations.filter fun declared =>
    decide (lower declared.symbol.name ≠ lower hierarchy.name ∧
      lower declared.symbol.name ∈ search.met))
  queued : ∀ declared ∈ search.queue, declared = hierarchy.root ∨ declared ∈ search.found

/-- What was found and does not wait had its turn. -/
def Followed (hierarchy : Hierarchy) (search : Search) : Prop :=
  ∀ declared, declared = hierarchy.root ∨ declared ∈ search.found →
    declared ∈ search.queue ∨ ∀ id ∈ declared.symbol.associated, lower id.name ∈ search.met

/-- What is found can be told from the names that were met. -/
theorem Sound.mem_found_iff (hsound : search.Sound hierarchy) {declared : Declared} :
    declared ∈ search.found ↔ declared ∈ hierarchy.lookup.declarations ∧
      lower declared.symbol.name ≠ lower hierarchy.name ∧
        lower declared.symbol.name ∈ search.met := by
  rw [hsound.found_perm.mem_iff, List.mem_filter, decide_eq_true_eq]

/-- A reference of what is found leads on from the root. -/
theorem Sound.reaches_of_reference (hsound : search.Sound hierarchy) {owner : Declared}
    (howner : owner = hierarchy.root ∨ owner ∈ search.found) {id : SymbolId}
    (hreference : id ∈ owner.symbol.associated) : hierarchy.Reaches (lower id.name) := by
  rcases howner with rfl | hfound
  · exact Reaches.direct hreference
  · obtain ⟨hdeclared, hother, hmet⟩ := hsound.mem_found_iff.1 hfound
    have hreached := (hsound.reaches _ hmet).resolve_left hother
    exact Reaches.further hreached hother hdeclared hreference

/-- Following a name to which the root leads keeps the search sound. -/
theorem Sound.follow (hlookup : hierarchy.lookup.Complete) (hsound : search.Sound hierarchy)
    {id : SymbolId} (hreaches : hierarchy.Reaches (lower id.name)) :
    (search.follow hierarchy.lookup.find id).Sound hierarchy := by
  by_cases hmet : lower id.name ∈ search.met
  · rwa [Search.follow, if_pos hmet]
  · have hfound := found_follow hierarchy.lookup.find hmet
    have hgrows := grows_follow hierarchy.lookup.find search id
    have hkeys : (search.follow hierarchy.lookup.find id).met = lower id.name :: search.met := by
      rw [Search.follow, if_neg hmet]
    have hroot : lower hierarchy.name ≠ lower id.name := fun h => hmet (h ▸ hsound.root_met)
    refine ⟨hgrows.met hsound.root_met, ?_, ?_, ?_⟩
    · rw [hkeys]
      exact List.forall_mem_cons.2 ⟨Or.inr hreaches, hsound.reaches⟩
    · calc
        (search.follow hierarchy.lookup.find id).found
          ~ search.found ++ hierarchy.lookup.find id.name := hfound
        _ ~ _ := hsound.found_perm.append (hlookup.find_perm id.name)
        _ ~ _ := filter_append_filter_perm
          (fun declared => by
            rw [hkeys, ← Bool.decide_or, decide_eq_decide, List.mem_cons]
            grind)
          (fun declared hold => by
            rw [decide_eq_true_eq] at hold
            rw [decide_eq_false_iff_not]
            exact fun h => hmet (h ▸ hold.2))
    · intro declared hmem
      rw [hfound.mem_iff, List.mem_append]
      rw [Search.follow, if_neg hmet] at hmem
      rcases List.mem_append.1 hmem with hold | hnew
      · exact (hsound.queued declared hold).imp_right Or.inl
      · exact Or.inr (Or.inr hnew)

theorem Sound.foldl_follow (hlookup : hierarchy.lookup.Complete) {ids : List SymbolId}
    (hreaches : ∀ id ∈ ids, hierarchy.Reaches (lower id.name)) (hsound : search.Sound hierarchy) :
    (ids.foldl (Search.follow hierarchy.lookup.find) search).Sound hierarchy := by
  induction ids generalizing search with
  | nil => exact hsound
  | cons id rest ih =>
      obtain ⟨hfirst, hrest⟩ := List.forall_mem_cons.1 hreaches
      exact ih hrest (hsound.follow hlookup hfirst)

/-- What one round keeps. -/
theorem Sound.round (hlookup : hierarchy.lookup.Complete) (hsound : search.Sound hierarchy)
    (hfollowed : search.Followed hierarchy) :
    (search.round hierarchy.lookup.find).Sound hierarchy ∧
      (search.round hierarchy.lookup.find).Followed hierarchy := by
  rw [Search.round]
  split
  · exact ⟨hsound, hfollowed⟩
  · rename_i current rest hqueue
    have hcurrent : current = hierarchy.root ∨ current ∈ search.found :=
      hsound.queued current (hqueue ▸ List.mem_cons_self)
    have hreaches : ∀ id ∈ current.symbol.associated, hierarchy.Reaches (lower id.name) :=
      fun id hid => hsound.reaches_of_reference hcurrent hid
    have htaken : Sound hierarchy { search with queue := rest } :=
      { hsound with
        queued := fun declared hmem =>
          hsound.queued declared (hqueue ▸ List.mem_cons_of_mem _ hmem) }
    obtain ⟨hgrows, hmet⟩ := grows_foldl_follow hierarchy.lookup.find current.symbol.associated
      { search with queue := rest }
    refine ⟨htaken.foldl_follow hlookup hreaches, ?_⟩
    intro declared hknown
    have hold : declared = hierarchy.root ∨ declared ∈ search.found ∨
        declared ∈ (current.symbol.associated.foldl (Search.follow hierarchy.lookup.find)
          { search with queue := rest }).queue :=
      hknown.imp_right fun hfound => hgrows.found declared hfound
    rcases or_assoc.2 hold with hold | hqueued
    · rcases hfollowed declared hold with hqueued | hdone
      · rw [hqueue] at hqueued
        rcases List.mem_cons.1 hqueued with rfl | hwaits
        · exact Or.inr hmet
        · exact Or.inl (hgrows.queue hwaits)
      · exact Or.inr fun id hid => hgrows.met (hdone id hid)
    · exact Or.inl hqueued

/-- After any number of rounds the search is sound, and what does not wait was followed. -/
theorem Sound.rounds (hlookup : hierarchy.lookup.Complete) (hsound : search.Sound hierarchy)
    (hfollowed : search.Followed hierarchy) (count : Nat) :
    ((Search.round hierarchy.lookup.find)^[count] search).Sound hierarchy ∧
      ((Search.round hierarchy.lookup.find)^[count] search).Followed hierarchy := by
  induction count generalizing search with
  | zero => exact ⟨hsound, hfollowed⟩
  | succ count ih =>
      obtain ⟨hsound, hfollowed⟩ := hsound.round hlookup hfollowed
      exact ih hsound hfollowed

theorem sound_start (hierarchy : Hierarchy) : (start hierarchy.root).Sound hierarchy where
  root_met := List.mem_singleton.2 rfl
  reaches _ hmem := Or.inl (List.mem_singleton.1 hmem)
  found_perm := by
    rw [List.filter_eq_nil_iff.2]
    · exact List.Perm.refl _
    · intro declared _
      rw [decide_eq_true_eq, start, List.mem_singleton]
      exact fun h => h.1 h.2
  queued _ hmem := Or.inl (List.mem_singleton.1 hmem)

theorem followed_start (hierarchy : Hierarchy) : (start hierarchy.root).Followed hierarchy := by
  intro declared hknown
  rcases hknown with rfl | hfound
  · exact Or.inl (List.mem_singleton.2 rfl)
  · exact absurd hfound List.not_mem_nil

/-- When nothing waits any more, all that the root leads to was met. -/
theorem Sound.mem_met_of_reaches (hsound : search.Sound hierarchy)
    (hfollowed : search.Followed hierarchy) (hdone : search.queue = []) {key : String}
    (hreaches : hierarchy.Reaches key) : key ∈ search.met := by
  have hnone : ∀ declared, declared ∉ search.queue := by
    rw [hdone]
    exact fun _ => List.not_mem_nil
  induction hreaches with
  | direct hreference =>
      exact (hfollowed _ (Or.inl rfl)).resolve_left (hnone _) _ hreference
  | further hreached hother howner hreference ih =>
      have hfound := hsound.mem_found_iff.2 ⟨howner, hother, ih⟩
      exact (hfollowed _ (Or.inr hfound)).resolve_left (hnone _) _ hreference

open Classical in
/-- When nothing waits any more, exactly what the root leads to is found. -/
theorem Sound.found_perm_inherits (hsound : search.Sound hierarchy)
    (hfollowed : search.Followed hierarchy) (hdone : search.queue = []) :
    search.found ~ hierarchy.lookup.declarations.filter fun declared =>
      decide (hierarchy.Inherits declared) := by
  refine hsound.found_perm.trans (List.Perm.of_eq (List.filter_congr ?_))
  intro declared _
  rw [decide_eq_decide, Inherits]
  refine and_congr_right fun hother => ⟨?_, hsound.mem_met_of_reaches hfollowed hdone⟩
  exact fun hmet => (hsound.reaches _ hmet).resolve_left hother

end Search

open Classical in
/-- Over any lookup that gives the declarations of a name, whatever refers to
what, the walk is done after finitely many rounds.  Then each declaration is
found once whose name the root leads to, if it is not the root's own; types come
before traits, and among both the order is that of the levels. -/
theorem associated_exact (hierarchy : Hierarchy) (hlookup : hierarchy.lookup.Complete) :
    (∃ rounds, let last :=
        (Search.round hierarchy.lookup.find)^[rounds] (Search.start hierarchy.root)
      last.queue = [] ∧ hierarchy.associated = last.types ++ last.traits) ∧
    hierarchy.associated ~ (hierarchy.lookup.declarations.filter fun declared =>
      decide (hierarchy.Inherits declared)) ∧
    ∃ depth, (hierarchy.level depth).declarations = [] ∧
      hierarchy.associated =
        (hierarchy.breadthFirst depth).filter (fun declared => !isTrait declared) ++
          (hierarchy.breadthFirst depth).filter isTrait := by
  have hfind : ∀ name, ∀ declared ∈ hierarchy.lookup.find name,
      RefersWithin hierarchy.referredNames declared := by
    intro name declared hmem
    exact refersWithin_referredNames (Or.inr (hlookup.mem_find_iff.1 hmem).1)
  have hroot : ∀ declared ∈ [hierarchy.root], RefersWithin hierarchy.referredNames declared :=
    List.forall_mem_singleton.2 (refersWithin_referredNames (Or.inl rfl))
  obtain ⟨rounds, hdone, htypes, htraits⟩ :=
    exists_rounds hfind (Search.start hierarchy.root) hroot
  have hassociated : hierarchy.associated =
      ((Search.round hierarchy.lookup.find)^[rounds] (Search.start hierarchy.root)).types ++
        ((Search.round hierarchy.lookup.find)^[rounds] (Search.start hierarchy.root)).traits := by
    rw [htypes, htraits]
    rfl
  obtain ⟨hsound, hfollowed⟩ := (Search.sound_start hierarchy).rounds hlookup
    (Search.followed_start hierarchy) rounds
  have hnames : ∀ key, key ∈ [lower hierarchy.name] ↔ key ∈ [hierarchy.name].map lower :=
    fun _ => Iff.rfl
  obtain ⟨depth, hempty, hlevels⟩ :=
    exists_levels hfind ⟨[hierarchy.name], [hierarchy.root]⟩ hroot hnames
  refine ⟨⟨rounds, hdone, hassociated⟩, ?_, depth, hempty, ?_⟩
  · rw [hassociated]
    exact hsound.found_perm_inherits hfollowed hdone
  · have hreached : hierarchy.reached = hierarchy.breadthFirst depth := hlevels
    rw [associated, hreached]

def typeNamed (kind : SymbolKind) (name : String) (references : List String) : Declared :=
  ⟨none, { kind := kind, name := name, associated := references.map (⟨.classType, ·⟩) }⟩

/-- Types that refer to themselves, in circles, to a name that is declared twice
and to a trait. -/
def tangled : Hierarchy where
  lookup := .scanning
    [typeNamed .classType "A" ["B", "T", "C", "a"], typeNamed .classType "B" ["D"],
      typeNamed .classType "b" ["A"], typeNamed .classType "C" ["D", "C"],
      typeNamed .interfaceType "D" ["B"], typeNamed .traitType "T" [],
      typeNamed .classType "E" ["A"]]
  root := typeNamed .classType "A" ["B", "T", "C", "a"]

/-- The walk comes to an end after three levels, in spite of the circles. -/
theorem associated_exact_tangled :
    tangled.lookup.Complete ∧
      (∃ depth, (tangled.level depth).declarations = [] ∧
        tangled.associated =
          (tangled.breadthFirst depth).filter (fun declared => !isTrait declared) ++
            (tangled.breadthFirst depth).filter isTrait) ∧
      (tangled.level 3).declarations = [] ∧
      (tangled.breadthFirst 3).map (·.symbol.name) = ["B", "b", "T", "C", "D"] := by
  have hlookup : tangled.lookup.Complete := ClassLookup.complete_scanning _
  refine ⟨hlookup, (associated_exact tangled hlookup).2.2, ?_, ?_⟩
  · have hnone : (tangled.level 3).declarations.length = 0 := by decide +kernel
    exact List.length_eq_zero_iff.1 hnone
  · decide +kernel

end Hierarchy

end SymbolIndex
