import ReactiveTree.Tree.Props

/-! # Trees

A tree describes what a host should show: texts, elements, and fragments, which stand for their
children and have no host node of their own. Elements and fragments may carry a key that tells them
apart from their siblings.
-/

namespace ReactiveTree

/-- Tells a child apart from its siblings. -/
structure Key where
  text : String
  deriving DecidableEq, Repr

namespace Key

def ofInt (number : Int) : Key :=
  ⟨toString number⟩

/-- Keys in the order of their texts, each once. -/
def sorted (keys : List Key) : List Key :=
  (keys.mergeSort fun left right => left.text ≤ right.text).eraseReps

end Key

inductive Tree where
  | text (content : String)
  | element (tag : String) (props : Props) (children : List Tree) (key : Option Key)
  | fragment (children : List Tree) (key : Option Key)
  deriving Repr, Inhabited

namespace Tree

def key? : Tree → Option Key
  | .text _ => none
  | .element _ _ _ key => key
  | .fragment _ key => key

def children : Tree → List Tree
  | .text _ => []
  | .element _ _ children _ => children
  | .fragment children _ => children

mutual

/-- How many children a tree adds to its host parent. -/
def width : Tree → Nat
  | .text _ => 1
  | .element .. => 1
  | .fragment children _ => widths children

/-- How many children several trees add together. -/
def widths : List Tree → Nat
  | [] => 0
  | tree :: rest => tree.width + widths rest

end

/-- Whether one tree can be updated to become the other in place. -/
def sameKind : Tree → Tree → Bool
  | .text _, .text _ => true
  | .element left .., .element right .. => left = right
  | .fragment .., .fragment .. => true
  | _, _ => false

mutual

/-- Equality of trees, in which the order of props does not count. -/
def beq : Tree → Tree → Bool
  | .text left, .text right => left = right
  | .element tag props children key, .element tag' props' children' key' =>
    tag = tag' && props == props' && beqAll children children' && key = key'
  | .fragment children key, .fragment children' key' => beqAll children children' && key = key'
  | _, _ => false

/-- Equality of tree lists, child by child. -/
def beqAll : List Tree → List Tree → Bool
  | [], [] => true
  | left :: lefts, right :: rights => left.beq right && beqAll lefts rights
  | _, _ => false

end

instance : BEq Tree :=
  ⟨beq⟩

theorem widths_append (left right : List Tree) :
    widths (left ++ right) = widths left + widths right := by
  induction left with
  | nil => simp [widths]
  | cons tree rest hypothesis => simp [widths, hypothesis, Nat.add_assoc]

end Tree

end ReactiveTree
