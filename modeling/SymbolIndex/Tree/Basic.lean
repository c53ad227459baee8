import SymbolIndex.Tree.Kind

/-!
# Syntax trees

A tree has phrases, which have a kind and children, and tokens, which have a kind and a span of
bytes of the source text. Blanks and comments may stand anywhere in it and never bound a phrase.
-/

namespace SymbolIndex

/-- A token and the bytes it covers; spans are exchanged as 32-bit words. -/
structure Token where
  kind : TokenKind
  offset : UInt32
  length : UInt32
  deriving DecidableEq, Repr, Inhabited

namespace Token

/-- The first byte of a token. -/
def start (token : Token) : Nat :=
  token.offset.toNat

/-- The byte after the last one of a token, computed in 32-bit words. -/
def stop (token : Token) : Nat :=
  (token.offset + token.length).toNat

end Token

inductive Tree where
  | phrase (kind : PhraseKind) (children : List Tree)
  | token (token : Token)
  deriving Repr, Inhabited

namespace Tree

def phraseKind? : Tree → Option PhraseKind
  | phrase kind _ => some kind
  | token _ => none

def token? : Tree → Option Token
  | phrase _ _ => none
  | token leaf => some leaf

def tokenKind? (tree : Tree) : Option TokenKind :=
  tree.token?.map (·.kind)

def isPhrase (tree : Tree) (kind : PhraseKind) : Bool :=
  tree.phraseKind? == some kind

def isToken (tree : Tree) (kind : TokenKind) : Bool :=
  tree.tokenKind? == some kind

def children : Tree → List Tree
  | phrase _ children => children
  | token _ => []

def childPhrase? (tree : Tree) (kind : PhraseKind) : Option Tree :=
  tree.children.find? (·.isPhrase kind)

def childToken? (tree : Tree) (kind : TokenKind) : Option Token :=
  (tree.children.filterMap token?).find? (·.kind == kind)

mutual

/-- The tokens of a tree in document order. -/
def tokens : Tree → List Token
  | phrase _ children => tokensAll children
  | token leaf => [leaf]

def tokensAll : List Tree → List Token
  | [] => []
  | tree :: rest => tokens tree ++ tokensAll rest

end

/-- The tokens that are no blanks or comments, in document order. -/
def solidTokens (tree : Tree) : List Token :=
  tree.tokens.filter fun leaf => !leaf.kind.isTrivia

def firstToken? (tree : Tree) : Option Token :=
  tree.solidTokens.head?

def lastToken? (tree : Tree) : Option Token :=
  tree.solidTokens.getLast?

/-- The tree reached by a path of child places. -/
def at? (tree : Tree) : List Nat → Option Tree
  | [] => some tree
  | place :: rest => tree.children[place]? >>= fun child => child.at? rest

/-- One end of a visit: entering a node, or leaving a phrase. -/
inductive Visit where
  | enter (node : Tree) (depth : Nat)
  | leave (node : Tree) (depth : Nat)

mutual

/-- The visits of a depth-first walk. A phrase for which `descend` fails is entered only. -/
def visits (descend : Tree → Bool) (depth : Nat) : Tree → List Visit
  | token leaf => [.enter (token leaf) depth]
  | phrase kind children =>
    if descend (phrase kind children) then
      .enter (phrase kind children) depth ::
        (visitsAll descend (depth + 1) children ++ [.leave (phrase kind children) depth])
    else [.enter (phrase kind children) depth]

def visitsAll (descend : Tree → Bool) (depth : Nat) : List Tree → List Visit
  | [] => []
  | tree :: rest => visits descend depth tree ++ visitsAll descend depth rest

end

mutual

/-- The number of nodes of a tree. -/
def size : Tree → Nat
  | token _ => 1
  | phrase _ children => 1 + sizeAll children

def sizeAll : List Tree → Nat
  | [] => 0
  | tree :: rest => size tree + sizeAll rest

end

end Tree

end SymbolIndex
