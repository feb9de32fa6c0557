import Minuscule.Attribute.Flow
import Minuscule.Measure

/-!
The evaluation of a tree. A node whose children are being evaluated is a frame, and the frames of a
node and its ancestors form a stack. The three lists of a program (definitions, local declarations,
statements) are right-recursive; the tail of such a list takes over the frame of the list, which keeps
the code of the items that it has seen. The stack is thus as deep as a program is nested and not as
long as the program.

The walk ends on every tree: each step takes a subtree off a frame, or takes off a frame that has none
left.
-/

namespace Minuscule

/-- A node some of whose children are done. -/
structure Frame where
  sign : Sign Terminal NonTerminal
  rule : Rule
  inherited : Inherited
  done : List Attributes
  waiting : List ParseTree
  /-- The code of the list items before this node, the last item first. -/
  earlier : List (List Instruction)

inductive Visit where
  | closed (attributes : Attributes)
  | opened (frame : Frame)

namespace Frame

/-- Terminals are done at once, and so are nodes that no production of the language expands. -/
def visit (tree : ParseTree) (inherited : Inherited) : Visit :=
  match tree.sign with
  | .terminal _ => .closed (.leaf tree.lexeme tree.label.line)
  | .nonTerminal _ =>
    match tree.label.production.bind Rule.ofIndex? with
    | some rule => .opened ⟨tree.sign, rule, inherited, [], tree.children, []⟩
    | none => .closed {}
  | _ => .closed {}

def isList (frame : Frame) : Bool :=
  frame.rule = .defineList || frame.rule = .localDefineList || frame.rule = .codeList

/-- Is a child the tail of the list that a frame expands? -/
def continues (frame tail : Frame) : Bool :=
  frame.isList && tail.sign = frame.sign

/-- The frame of a list goes on with the tail of the list. -/
def continueWith (frame tail : Frame) : Frame :=
  { tail with earlier := frame.done.flatMap Attributes.code :: frame.earlier }

def finish (frame : Frame) (attributes : Attributes) : Attributes :=
  if frame.earlier.isEmpty then attributes
  else { attributes with code := frame.earlier.reverse.flatten ++ attributes.code }

def receive (frame : Frame) (attributes : Attributes) : Frame :=
  { frame with done := frame.done ++ [attributes] }

end Frame

structure Walk where
  frames : List Frame
  progress : Progress

namespace Walk

inductive Step where
  | next (walk : Walk)
  | finished (attributes : Attributes) (progress : Progress)

/-- The stack after a child of its top frame has been visited. -/
def proceed (frame : Frame) (rest : List Frame) : Visit → List Frame
  | .closed attributes => frame.receive attributes :: rest
  | .opened child =>
    if frame.continues child then frame.continueWith child :: rest else child :: frame :: rest

def step (walk : Walk) : Step :=
  match walk.frames with
  | [] => .finished {} walk.progress
  | frame :: rest =>
    match frame.waiting with
    | child :: waiting =>
      let given := (Action.inherit frame.rule frame.inherited frame.done).run walk.progress
      .next ⟨proceed { frame with waiting := waiting } rest (Frame.visit child given.1), given.2⟩
    | [] =>
      let found := (Action.synthesize frame.rule frame.inherited frame.done).run walk.progress
      match rest with
      | [] => .finished (frame.finish found.1) found.2
      | parent :: rest => .next ⟨parent.receive (frame.finish found.1) :: rest, found.2⟩

/-- What is left to do: each frame has to be taken off, and each subtree that waits has to be visited
and, if it is opened, taken off again. -/
def work (frames : List Frame) : Nat :=
  sumOf (fun frame => 2 * Tree.countAll frame.waiting + 1) frames

theorem visit_opened {tree : ParseTree} {inherited : Inherited} {frame : Frame}
    (opened : Frame.visit tree inherited = .opened frame) : frame.waiting = tree.children := by
  unfold Frame.visit at opened
  split at opened
  · cases opened
  · split at opened
    · cases opened
      rfl
    · cases opened
  · cases opened

theorem work_proceed (frame : Frame) (rest : List Frame) (child : ParseTree)
    (inherited : Inherited) :
    work (proceed frame rest (Frame.visit child inherited)) <
      2 * child.count + work (frame :: rest) := by
  have here := Tree.countAll_children child
  unfold proceed
  split
  · simp only [work, Frame.receive, sumOf_cons]
    omega
  · next opened visited =>
    have below := visit_opened visited
    split
    · simp only [work, Frame.continueWith, sumOf_cons, below]
      omega
    · simp only [work, sumOf_cons, below]
      omega

theorem step_next {walk next : Walk} (moved : walk.step = .next next) :
    work next.frames < work walk.frames := by
  unfold step at moved
  split at moved
  · cases moved
  · next frame rest frames =>
    split at moved
    · next child waiting front =>
      cases moved
      have less := work_proceed { frame with waiting := waiting } rest child
        ((Action.inherit frame.rule frame.inherited frame.done).run walk.progress).1
      simp only [frames, work, sumOf_cons, front, Tree.countAll] at less ⊢
      omega
    · split at moved
      · cases moved
      · next parent others =>
        cases moved
        simp only [frames, work, Frame.receive, sumOf_cons]
        omega

def run (walk : Walk) : Attributes × Progress :=
  match _moved : walk.step with
  | .next walk => run walk
  | .finished attributes progress => (attributes, progress)
termination_by work walk.frames
decreasing_by exact step_next _moved

end Walk

/-- What the evaluation of a tree leaves: code, errors in the order in which they were found, symbols,
and how many names were handed out. -/
structure Evaluation where
  code : List Instruction
  errors : List SemanticError
  symbols : Symbols
  names : Names
  deriving DecidableEq, Repr

namespace Evaluation

def isOk (evaluation : Evaluation) : Bool :=
  evaluation.errors.isEmpty

def ofTree (tree : ParseTree) : Evaluation :=
  let (attributes, progress) := match Frame.visit tree {} with
    | .closed attributes => (attributes, Progress.start)
    | .opened frame => Walk.run ⟨[frame], .start⟩
  ⟨attributes.code, progress.errors.toList, progress.symbols, progress.names⟩

end Evaluation

end Minuscule
