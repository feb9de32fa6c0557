import Minuscule.Grammar

/-!
Parse trees. A node carries the sign it stands for, the production it was expanded with if it was
expanded, the text it matched if it matched any, and a line. Right-recursive lists make a tree as deep
as a program is long, so a tree is walked with a list of pending subtrees; `Tree.preorder` is that walk
and everything said of all nodes goes through it.
-/

namespace Minuscule

/-- What a node holds besides its children. -/
structure Label (T N : Type) where
  sign : Sign T N
  production : Option Nat
  lexeme : Option String
  line : Nat
  deriving DecidableEq, Repr

inductive Tree (T N : Type) where
  | node (label : Label T N) (children : List (Tree T N))
  deriving Repr

namespace Tree
variable {T N : Type}

def label : Tree T N → Label T N
  | node label _ => label

def children : Tree T N → List (Tree T N)
  | node _ children => children

def sign (tree : Tree T N) : Sign T N :=
  tree.label.sign

/-- The matched text, empty on a node that matched none. -/
def lexeme (tree : Tree T N) : String :=
  tree.label.lexeme.getD ""

mutual

/-- The number of nodes. -/
def count : Tree T N → Nat
  | node _ children => countAll children + 1

def countAll : List (Tree T N) → Nat
  | [] => 0
  | tree :: rest => count tree + countAll rest

end

theorem countAll_append (front back : List (Tree T N)) :
    countAll (front ++ back) = countAll front + countAll back := by
  induction front with
  | nil => simp [countAll]
  | cons tree rest ih => simp only [List.cons_append, countAll, ih]; omega

theorem countAll_children (tree : Tree T N) : countAll tree.children + 1 = tree.count := by
  cases tree
  rfl

/-- Visits the first pending subtree and puts its children in front of the others. -/
def visitFrom (pending seen : List (Nat × Tree T N)) : List (Nat × Tree T N) :=
  match pending with
  | [] => seen.reverse
  | (depth, tree) :: rest =>
    visitFrom (tree.children.map (depth + 1, ·) ++ rest) ((depth, tree) :: seen)
termination_by countAll (pending.map Prod.snd)
decreasing_by
  have here := countAll_children tree
  have below : (tree.children.map (depth + 1, ·)).map Prod.snd = tree.children := by
    simp [Function.comp_def]
  simp only [List.map_append, below, countAll_append, List.map_cons, countAll]
  omega

/-- All subtrees with their depths, each before the subtrees of its children. -/
def preorder (tree : Tree T N) : List (Nat × Tree T N) :=
  visitFrom [(0, tree)] []

def size (tree : Tree T N) : Nat :=
  tree.preorder.length

/-- The terminals of the tree from left to right. -/
def leaves (tree : Tree T N) : List T :=
  tree.preorder.filterMap fun (_, subtree) =>
    match subtree.sign with
    | .terminal kind => some kind
    | _ => none

/-- A non-terminal spells out the right-hand side of its production; a terminal has nothing below. -/
def fits [DecidableEq T] [DecidableEq N] (grammar : Grammar T N) (tree : Tree T N) : Bool :=
  match tree.sign, tree.label.production with
  | .nonTerminal left, some index =>
    match grammar.productions[index]? with
    | some production => production.left = left && production.right = tree.children.map sign
    | none => false
  | .terminal _, none => tree.children.isEmpty
  | _, _ => false

def conforms [DecidableEq T] [DecidableEq N] (tree : Tree T N) (grammar : Grammar T N) : Bool :=
  tree.preorder.all fun (_, subtree) => subtree.fits grammar

/-- One line a node, two blanks a level, matched text and its line behind the sign. -/
def text [ToString T] [ToString N] (tree : Tree T N) : String :=
  String.join <| tree.preorder.map fun (depth, subtree) =>
    let sign := "".pushn ' ' (2 * depth) ++ subtree.sign.text
    match subtree.label.lexeme with
    | some lexeme => s!"{sign} '{lexeme}' (line {subtree.label.line})\n"
    | none => sign ++ "\n"

end Tree

end Minuscule
