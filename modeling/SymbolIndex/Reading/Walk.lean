import SymbolIndex.Tree.Basic

/-!
# Walking over a tree

A walk takes a state through a tree in document order. It says what a token does to the state, what
entering and leaving a phrase does, and which phrases it goes below at all.
-/

namespace SymbolIndex

structure Walk (σ : Type) where
  token : Token → σ → σ
  enter : PhraseKind → Tree → σ → σ
  descends : PhraseKind → Bool
  leave : PhraseKind → Tree → σ → σ

namespace Walk

variable {σ : Type}

mutual

/-- The state after a tree. A phrase that is not gone below is entered only. -/
def run (walk : Walk σ) : Tree → σ → σ
  | .token leaf, state => walk.token leaf state
  | .phrase kind children, state =>
    let entered := walk.enter kind (.phrase kind children) state
    if walk.descends kind then
      walk.leave kind (.phrase kind children) (runAll walk children entered)
    else entered

/-- The state after a list of trees, one after the other. -/
def runAll (walk : Walk σ) : List Tree → σ → σ
  | [], state => state
  | tree :: rest, state => runAll walk rest (run walk tree state)

end

end Walk

end SymbolIndex
