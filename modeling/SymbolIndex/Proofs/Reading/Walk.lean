import SymbolIndex.Proofs.Tree.Places
import SymbolIndex.Reading.Walk

/-!
# Runs of walks

Five ways to say what a walk does to its state.  A property that every step
keeps is kept by the run.  So is one that is kept by the steps at the parts to
which the walk comes, in the states in which it comes there, and a relation
between the states of two walks that go through the tree in lockstep.  A relation
between the states before and after is shown for a tree from what entering and
leaving do around the run below it; it suits walks that undo on the way out what
they did on the way in.  Where that relation speaks of the run itself, it is shown
as a property of the tree and of the state in which the walk comes to it.
-/

namespace SymbolIndex.Walk

variable {σ : Type} {walk : Walk σ}

/-! ## Properties that every step keeps -/

section

variable {P : σ → Prop}

/-- Every step of the walk keeps a property of the state. -/
structure Keeps (walk : Walk σ) (P : σ → Prop) : Prop where
  token : ∀ leaf state, P state → P (walk.token leaf state)
  enter : ∀ kind tree state, P state → P (walk.enter kind tree state)
  leave : ∀ kind tree state, P state → P (walk.leave kind tree state)

mutual

theorem Keeps.run (hkeeps : walk.Keeps P) :
    (tree : Tree) → (state : σ) → P state → P (walk.run tree state)
  | .token leaf, state, hstate => by
      rw [Walk.run]
      exact hkeeps.token leaf state hstate
  | .phrase kind children, state, hstate => by
      have hentered := hkeeps.enter kind (.phrase kind children) state hstate
      rw [Walk.run]
      split
      · exact hkeeps.leave _ _ _ (hkeeps.runAll children _ hentered)
      · exact hentered

theorem Keeps.runAll (hkeeps : walk.Keeps P) :
    (trees : List Tree) → (state : σ) → P state → P (walk.runAll trees state)
  | [], state, hstate => by
      rw [Walk.runAll]
      exact hstate
  | tree :: rest, state, hstate => by
      rw [Walk.runAll]
      exact hkeeps.runAll rest _ (hkeeps.run tree state hstate)

end

end

/-! ## Relations between two walks -/

section

variable {τ : Type} {other : Walk τ} {R : σ → τ → Prop}

/-- Two walks go below the same phrases, and all their steps keep a relation between their
states. -/
structure Lockstep (walk : Walk σ) (other : Walk τ) (R : σ → τ → Prop) : Prop where
  descends : walk.descends = other.descends
  token : ∀ leaf left right, R left right → R (walk.token leaf left) (other.token leaf right)
  enter : ∀ kind tree left right, R left right →
    R (walk.enter kind tree left) (other.enter kind tree right)
  leave : ∀ kind tree left right, R left right →
    R (walk.leave kind tree left) (other.leave kind tree right)

mutual

/-- What the steps of two walks keep between them, the walks keep. -/
theorem Lockstep.run (hsteps : walk.Lockstep other R) :
    (tree : Tree) → (left : σ) → (right : τ) → R left right →
    R (walk.run tree left) (other.run tree right)
  | .token leaf, left, right, hstate => by
      rw [Walk.run, Walk.run]
      exact hsteps.token leaf left right hstate
  | .phrase kind children, left, right, hstate => by
      have hentered := hsteps.enter kind (.phrase kind children) left right hstate
      rw [Walk.run, Walk.run, ← hsteps.descends]
      split
      · exact hsteps.leave _ _ _ _ (hsteps.runAll children _ _ hentered)
      · exact hentered

theorem Lockstep.runAll (hsteps : walk.Lockstep other R) :
    (trees : List Tree) → (left : σ) → (right : τ) → R left right →
    R (walk.runAll trees left) (other.runAll trees right)
  | [], left, right, hstate => by
      rw [Walk.runAll, Walk.runAll]
      exact hstate
  | tree :: rest, left, right, hstate => by
      rw [Walk.runAll, Walk.runAll]
      exact hsteps.runAll rest _ _ (hsteps.run tree left right hstate)

end

end

/-! ## Relations between before and after -/

/-- What a walk does around and between the parts of a tree gives what it does
to the tree: `R` for one tree, `Rs` for trees one after the other. -/
structure Relates (walk : Walk σ) (R : Tree → σ → σ → Prop) (Rs : List Tree → σ → σ → Prop) :
    Prop where
  token : ∀ leaf state, R (.token leaf) state (walk.token leaf state)
  passed : ∀ kind children state, walk.descends kind = false →
    R (.phrase kind children) state (walk.enter kind (.phrase kind children) state)
  phrase : ∀ kind children state inside, walk.descends kind = true →
    Rs children (walk.enter kind (.phrase kind children) state) inside →
    R (.phrase kind children) state (walk.leave kind (.phrase kind children) inside)
  nil : ∀ state, Rs [] state state
  cons : ∀ tree rest state next last, R tree state next → Rs rest next last →
    Rs (tree :: rest) state last

section

variable {R : Tree → σ → σ → Prop} {Rs : List Tree → σ → σ → Prop}

mutual

/-- What the steps give is what the walk does to a tree. -/
theorem Relates.run (hrelates : walk.Relates R Rs) :
    (tree : Tree) → (state : σ) → R tree state (walk.run tree state)
  | .token leaf, state => by
      rw [Walk.run]
      exact hrelates.token leaf state
  | .phrase kind children, state => by
      rw [Walk.run]
      split
      · rename_i hdescends
        exact hrelates.phrase kind children state _ hdescends (hrelates.runAll children _)
      · rename_i hpasses
        exact hrelates.passed kind children state (Bool.eq_false_iff.2 hpasses)

theorem Relates.runAll (hrelates : walk.Relates R Rs) :
    (trees : List Tree) → (state : σ) → Rs trees state (walk.runAll trees state)
  | [], state => by
      rw [Walk.runAll]
      exact hrelates.nil state
  | tree :: rest, state => by
      rw [Walk.runAll]
      exact hrelates.cons tree rest state _ _ (hrelates.run tree state)
        (hrelates.runAll rest _)

end

end

/-! ## Properties of a tree and the state before it -/

theorem run_token (walk : Walk σ) (leaf : Token) (state : σ) :
    walk.run (.token leaf) state = walk.token leaf state := by
  rw [Walk.run]

/-- A phrase is entered, its children are gone through, and then it is left. -/
theorem run_of_descends {kind : PhraseKind} (hdescends : walk.descends kind = true)
    (children : List Tree) (state : σ) :
    walk.run (.phrase kind children) state =
      walk.leave kind (.phrase kind children)
        (walk.runAll children (walk.enter kind (.phrase kind children) state)) := by
  rw [Walk.run, if_pos hdescends]

/-- A phrase that the walk passes over is only entered. -/
theorem run_of_passes {kind : PhraseKind} (hpasses : walk.descends kind = false)
    (children : List Tree) (state : σ) :
    walk.run (.phrase kind children) state =
      walk.enter kind (.phrase kind children) state := by
  rw [Walk.run, if_neg (Bool.eq_false_iff.1 hpasses)]

/-- A property `P` of a tree and the state in which the walk comes to it, and one
of trees one after the other, `Ps`, follow from those of what is below. -/
structure Inducts (walk : Walk σ) (P : Tree → σ → Prop) (Ps : List Tree → σ → Prop) :
    Prop where
  token : ∀ leaf state, P (.token leaf) state
  passed : ∀ kind children state, walk.descends kind = false → P (.phrase kind children) state
  phrase : ∀ kind children state, walk.descends kind = true →
    Ps children (walk.enter kind (.phrase kind children) state) → P (.phrase kind children) state
  nil : ∀ state, Ps [] state
  cons : ∀ tree rest state, P tree state → Ps rest (walk.run tree state) →
    Ps (tree :: rest) state

section

variable {P : Tree → σ → Prop} {Ps : List Tree → σ → Prop}

mutual

theorem Inducts.tree (hinducts : walk.Inducts P Ps) :
    (tree : Tree) → (state : σ) → P tree state
  | .token leaf, state => hinducts.token leaf state
  | .phrase kind children, state => by
      cases hdescends : walk.descends kind with
      | true => exact hinducts.phrase kind children state hdescends (hinducts.trees children _)
      | false => exact hinducts.passed kind children state hdescends

theorem Inducts.trees (hinducts : walk.Inducts P Ps) :
    (trees : List Tree) → (state : σ) → Ps trees state
  | [], state => hinducts.nil state
  | tree :: rest, state =>
      hinducts.cons tree rest state (hinducts.tree tree state) (hinducts.trees rest _)

end

/-- It is enough to show `P` of a phrase from that of each child, in the state in
which the walk comes to the child. -/
theorem Inducts.of_children
    (htoken : ∀ leaf state, P (.token leaf) state)
    (hpassed : ∀ kind children state, walk.descends kind = false → P (.phrase kind children) state)
    (hphrase : ∀ kind children state, walk.descends kind = true →
      (∀ earlier child later, children = earlier ++ child :: later →
        P child (walk.runAll earlier (walk.enter kind (.phrase kind children) state))) →
      P (.phrase kind children) state) :
    walk.Inducts P fun trees state => ∀ earlier tree later, trees = earlier ++ tree :: later →
      P tree (walk.runAll earlier state) where
  token := htoken
  passed := hpassed
  phrase := hphrase
  nil state earlier tree later hsplit := by simp at hsplit
  cons tree rest state htree hrest earlier part later hsplit := by
    rcases List.cons_eq_append_iff.1 hsplit with ⟨rfl, hsame⟩ | ⟨front, rfl, rfl⟩
    · cases hsame
      rwa [Walk.runAll]
    · rw [Walk.runAll]
      exact hrest front part later rfl

end

/-! ## Visits -/

/-- On its way through a tree, from a state, the walk comes to a part of it in
some state. -/
inductive Visits (walk : Walk σ) : Tree → σ → Tree → σ → Prop
  | here (tree : Tree) (state : σ) : Visits walk tree state tree state
  | inside {kind : PhraseKind} {earlier later : List Tree} {child part : Tree}
      {state before : σ} (hdescends : walk.descends kind = true)
      (hvisits : Visits walk child
        (walk.runAll earlier
          (walk.enter kind (.phrase kind (earlier ++ child :: later)) state)) part before) :
      Visits walk (.phrase kind (earlier ++ child :: later)) state part before

theorem Visits.mem_parts {tree part : Tree} {state before : σ}
    (hvisits : walk.Visits tree state part before) : part ∈ tree.parts := by
  induction hvisits with
  | here tree state => exact tree.self_mem_parts
  | inside _ _ ih =>
      exact Tree.mem_parts_phrase.2
        (Or.inr ⟨_, List.mem_append_right _ List.mem_cons_self, ih⟩)

/-- What the walk comes to below a part, it comes to below the tree. -/
theorem Visits.trans {tree middle part : Tree} {state between before : σ}
    (houter : walk.Visits tree state middle between)
    (hinner : walk.Visits middle between part before) : walk.Visits tree state part before := by
  induction houter with
  | here tree state => exact hinner
  | inside hdescends _ ih => exact Visits.inside hdescends (ih hinner)

theorem runAll_append (walk : Walk σ) (left right : List Tree) (state : σ) :
    walk.runAll (left ++ right) state = walk.runAll right (walk.runAll left state) := by
  induction left generalizing state with
  | nil => rw [List.nil_append, Walk.runAll]
  | cons tree rest ih => rw [List.cons_append, Walk.runAll, Walk.runAll, ih]

/-- What each of some trees keeps, in the state in which the walk comes to it, all of them keep. -/
theorem runAll_of_splits {P : σ → Prop} {trees : List Tree} {state : σ} (hstate : P state)
    (hsplits : ∀ front tree back, trees = front ++ tree :: back → P (walk.runAll front state) →
      P (walk.run tree (walk.runAll front state))) : P (walk.runAll trees state) := by
  induction trees generalizing state with
  | nil =>
      rw [Walk.runAll]
      exact hstate
  | cons tree rest ih =>
      have hfirst := hsplits [] tree rest rfl hstate
      rw [Walk.runAll]
      refine ih hfirst fun front next back hrest hfront => ?_
      have hnext := hsplits (tree :: front) next back (congrArg (tree :: ·) hrest)
      rw [Walk.runAll] at hnext
      exact hnext hfront

theorem runAll_of_forall {P : σ → Prop} {trees : List Tree} {state : σ} (hstate : P state)
    (htrees : ∀ tree ∈ trees, ∀ before, P before → P (walk.run tree before)) :
    P (walk.runAll trees state) :=
  runAll_of_splits hstate fun _ tree _ hsplit hfront =>
    htrees tree (hsplit ▸ List.mem_append_right _ List.mem_cons_self) _ hfront

mutual

/-- The parts to which the walk comes, each with the state in which it does. -/
def visited (walk : Walk σ) : Tree → σ → List (Tree × σ)
  | .token leaf, state => [(.token leaf, state)]
  | .phrase kind children, state =>
    let entered := walk.enter kind (.phrase kind children) state
    (.phrase kind children, state) ::
      if walk.descends kind then visitedAll walk children entered else []

def visitedAll (walk : Walk σ) : List Tree → σ → List (Tree × σ)
  | [], _ => []
  | tree :: rest, state => visited walk tree state ++ visitedAll walk rest (walk.run tree state)

end

mutual

/-- All that is listed as visited, the walk comes to. -/
theorem visits_of_mem_visited : (tree : Tree) → ∀ {state : σ} {part : Tree} {before : σ},
    (part, before) ∈ walk.visited tree state → walk.Visits tree state part before
  | .token leaf => by
      intro hmem
      rw [visited] at hmem
      cases List.mem_singleton.1 hmem
      exact Visits.here _ _
  | .phrase kind children => by
      intro hmem
      rw [visited] at hmem
      rcases List.mem_cons.1 hmem with hsame | hbelow
      · cases hsame
        exact Visits.here _ _
      · split at hbelow
        · rename_i hdescends
          obtain ⟨earlier, child, later, rfl, hvisits⟩ := exists_visits_of_mem_visitedAll children
            hbelow
          exact Visits.inside hdescends hvisits
        · exact absurd hbelow List.not_mem_nil

theorem exists_visits_of_mem_visitedAll : (trees : List Tree) → ∀ {state : σ} {part : Tree}
    {before : σ}, (part, before) ∈ walk.visitedAll trees state →
    ∃ earlier tree later, trees = earlier ++ tree :: later ∧
      walk.Visits tree (walk.runAll earlier state) part before
  | [] => fun hmem => absurd hmem List.not_mem_nil
  | tree :: rest => by
      intro hmem
      rw [visitedAll] at hmem
      rcases List.mem_append.1 hmem with hfirst | hrest
      · refine ⟨[], tree, rest, rfl, ?_⟩
        rw [Walk.runAll]
        exact visits_of_mem_visited tree hfirst
      · obtain ⟨earlier, child, later, rfl, hvisits⟩ := exists_visits_of_mem_visitedAll rest hrest
        refine ⟨tree :: earlier, child, later, rfl, ?_⟩
        rw [Walk.runAll]
        exact hvisits

end

/-! ## Leaves -/

mutual

/-- What the walk comes to and does not go below, in order: the tokens, and the
phrases that it passes over. -/
def leaves (walk : Walk σ) : Tree → List Tree
  | .token leaf => [.token leaf]
  | .phrase kind children =>
    if walk.descends kind then leavesAll walk children else [.phrase kind children]

def leavesAll (walk : Walk σ) : List Tree → List Tree
  | [] => []
  | tree :: rest => leaves walk tree ++ leavesAll walk rest

end

theorem leavesAll_append (walk : Walk σ) (left right : List Tree) :
    walk.leavesAll (left ++ right) = walk.leavesAll left ++ walk.leavesAll right := by
  induction left with
  | nil => rfl
  | cons tree rest ih => rw [List.cons_append, leavesAll, leavesAll, ih, List.append_assoc]

mutual

theorem tokensAll_leaves (walk : Walk σ) :
    (tree : Tree) → Tree.tokensAll (walk.leaves tree) = tree.tokens
  | .token leaf => rfl
  | .phrase kind children => by
      rw [leaves]
      split
      · rw [Tree.tokens]
        exact tokensAll_leavesAll walk children
      · rw [Tree.tokensAll, Tree.tokensAll, List.append_nil]

theorem tokensAll_leavesAll (walk : Walk σ) :
    (trees : List Tree) → Tree.tokensAll (walk.leavesAll trees) = Tree.tokensAll trees
  | [] => rfl
  | tree :: rest => by
      rw [leavesAll, Tree.tokensAll_append, Tree.tokensAll, tokensAll_leaves walk tree,
        tokensAll_leavesAll walk rest]

end

/-! ## Properties that the steps at visited parts keep -/

section

variable {P : σ → Prop} {tree : Tree} {state : σ}

/-- The steps of the walk through a tree, from a state, keep a property. -/
structure KeepsAt (walk : Walk σ) (P : σ → Prop) (tree : Tree) (state : σ) : Prop where
  token : ∀ leaf before, walk.Visits tree state (.token leaf) before →
    P before → P (walk.token leaf before)
  enter : ∀ kind children before, walk.Visits tree state (.phrase kind children) before →
    P before → P (walk.enter kind (.phrase kind children) before)
  leave : ∀ kind children before, .phrase kind children ∈ tree.parts →
    P before → P (walk.leave kind (.phrase kind children) before)

/-- What the steps keep on the way through a phrase, they keep on the way through each child. -/
theorem KeepsAt.child {kind : PhraseKind} {earlier later : List Tree} {child : Tree}
    (hkeeps : walk.KeepsAt P (.phrase kind (earlier ++ child :: later)) state)
    (hdescends : walk.descends kind = true) :
    walk.KeepsAt P child (walk.runAll earlier
      (walk.enter kind (.phrase kind (earlier ++ child :: later)) state)) where
  token leaf before hvisits := hkeeps.token leaf before (hvisits.inside hdescends)
  enter kind children before hvisits :=
    hkeeps.enter kind children before (hvisits.inside hdescends)
  leave kind children before hpart := hkeeps.leave kind children before
    (Tree.mem_parts_phrase.2 (Or.inr ⟨_, List.mem_append_right _ List.mem_cons_self, hpart⟩))

mutual

/-- What the steps at all parts keep, the walk keeps. -/
theorem KeepsAt.run : (tree : Tree) → (state : σ) → walk.KeepsAt P tree state → P state →
    P (walk.run tree state)
  | .token leaf, state, hkeeps, hstate => by
      rw [Walk.run]
      exact hkeeps.token leaf state (Visits.here _ _) hstate
  | .phrase kind children, state, hkeeps, hstate => by
      have hentered := hkeeps.enter kind children state (Visits.here _ _) hstate
      rw [Walk.run]
      split
      · rename_i hdescends
        apply hkeeps.leave _ _ _ (Tree.self_mem_parts _)
        have hall := KeepsAt.runAll kind [] children [] state hdescends
        rw [List.append_nil] at hall
        exact hall hkeeps hentered
      · exact hentered

/-- Some children of a phrase, from the one on that the walk has come to. -/
theorem KeepsAt.runAll (kind : PhraseKind) (earlier : List Tree) :
    (children later : List Tree) → (state : σ) → walk.descends kind = true →
    walk.KeepsAt P (.phrase kind (earlier ++ (children ++ later))) state →
    P (walk.runAll earlier
      (walk.enter kind (.phrase kind (earlier ++ (children ++ later))) state)) →
    P (walk.runAll children (walk.runAll earlier
      (walk.enter kind (.phrase kind (earlier ++ (children ++ later))) state)))
  | [], _, _, _, _, hstate => by
      rw [Walk.runAll]
      exact hstate
  | child :: rest, later, state, hdescends, hkeeps, hstate => by
      rw [List.cons_append] at hkeeps hstate ⊢
      have hchild := KeepsAt.run child _ (hkeeps.child hdescends) hstate
      have hsame : earlier ++ child :: (rest ++ later) =
          (earlier ++ [child]) ++ (rest ++ later) := by
        rw [List.append_assoc, List.singleton_append]
      have hlater := KeepsAt.runAll kind (earlier ++ [child]) rest later state hdescends
      rw [← hsame, runAll_append, Walk.runAll, Walk.runAll] at hlater
      rw [Walk.runAll]
      exact hlater hkeeps hchild

end

/-- What the steps keep holds wherever the walk comes to. -/
theorem KeepsAt.visits {part : Tree} {before : σ}
    (hvisits : walk.Visits tree state part before) (hkeeps : walk.KeepsAt P tree state)
    (hstate : P state) : P before := by
  induction hvisits with
  | here tree state => exact hstate
  | @inside kind earlier later child part state before hdescends _ ih =>
      have hentered := hkeeps.enter kind _ state (Visits.here _ _) hstate
      apply ih (hkeeps.child hdescends)
      exact KeepsAt.runAll kind [] earlier (child :: later) state hdescends hkeeps hentered

end

/-! ## Arrivals -/

/-- The state in which the walk comes to a tree inside of phrases, all of which it goes below. -/
def arrive (walk : Walk σ) : List Layer → Tree → σ → σ
  | [], _, state => state
  | layer :: rest, tree, state =>
    walk.arrive rest tree
      (walk.runAll layer.earlier (walk.enter layer.kind (Tree.wrap (layer :: rest) tree) state))

/-- Where the walk comes to a part, the phrases around are such as it goes below, and the state is
that of the arrival. -/
theorem exists_layers_of_visits {tree part : Tree} {state before : σ}
    (hvisits : walk.Visits tree state part before) :
    ∃ layers, tree = Tree.wrap layers part ∧
      (∀ layer ∈ layers, walk.descends layer.kind = true) ∧
      before = walk.arrive layers part state := by
  induction hvisits with
  | here tree state => exact ⟨[], rfl, fun _ hmem => absurd hmem List.not_mem_nil, rfl⟩
  | @inside kind earlier later child part state before hdescends _ ih =>
      obtain ⟨layers, rfl, hlayers, rfl⟩ := ih
      exact ⟨⟨kind, earlier, later⟩ :: layers, rfl,
        List.forall_mem_cons.2 ⟨hdescends, hlayers⟩, rfl⟩

/-- What entering the phrases around a place keeps, and going through what stands
before the place in them, holds where the walk arrives. -/
theorem arrive_of_keeps {P : σ → Prop} {layers : List Layer} {tree : Tree} {state : σ}
    (hstate : P state)
    (henter : ∀ layer inner, layer :: inner <:+ layers → ∀ before, P before →
      P (walk.enter layer.kind (Tree.wrap (layer :: inner) tree) before))
    (hearlier : ∀ sibling ∈ Tree.earlierIn layers, ∀ before, P before →
      P (walk.run sibling before)) : P (walk.arrive layers tree state) := by
  induction layers generalizing state with
  | nil => exact hstate
  | cons layer rest ih =>
      have hentered := henter layer rest List.suffix_rfl state hstate
      refine ih (runAll_of_forall hentered ?_) ?_ ?_
      · exact fun sibling hmem => hearlier sibling (List.mem_append_left _ hmem)
      · exact fun next inner hinner => henter next inner (hinner.trans (List.suffix_cons _ _))
      · exact fun sibling hmem => hearlier sibling (List.mem_append_right _ hmem)

/-- The run from there on: the tree, what is behind it, and leaving the phrases. -/
theorem run_wrap {layer : Layer} {rest : List Layer} {tree : Tree} {state : σ}
    (hdescends : walk.descends layer.kind = true) :
    walk.run (Tree.wrap (layer :: rest) tree) state =
      walk.leave layer.kind (Tree.wrap (layer :: rest) tree)
        (walk.runAll layer.later (walk.run (Tree.wrap rest tree)
          (walk.runAll layer.earlier
            (walk.enter layer.kind (Tree.wrap (layer :: rest) tree) state)))) := by
  rw [Tree.wrap, Walk.run, if_pos hdescends, runAll_append, Walk.runAll]

/-- What holds behind a tree, holds at the end if what stands behind the place keeps it, and
leaving phrases does. -/
theorem run_wrap_of_keeps {P : σ → Prop} {layers : List Layer} {tree : Tree} {state : σ}
    (hdescends : ∀ layer ∈ layers, walk.descends layer.kind = true)
    (htree : P (walk.run tree (walk.arrive layers tree state)))
    (hlater : ∀ sibling ∈ Tree.laterIn layers, ∀ before, P before → P (walk.run sibling before))
    (hleave : ∀ kind tree before, P before → P (walk.leave kind tree before)) :
    P (walk.run (Tree.wrap layers tree) state) := by
  induction layers generalizing state with
  | nil => exact htree
  | cons layer rest ih =>
      obtain ⟨hfirst, hrest⟩ := List.forall_mem_cons.1 hdescends
      have hinner := ih hrest htree fun sibling hmem =>
        hlater sibling (List.mem_append_left _ hmem)
      rw [run_wrap hfirst]
      exact hleave _ _ _ (runAll_of_forall hinner fun sibling hmem =>
        hlater sibling (List.mem_append_right _ hmem))

end SymbolIndex.Walk
