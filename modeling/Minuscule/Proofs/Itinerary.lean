import Minuscule.Proofs.Addresses
import Minuscule.Proofs.Recursion

/-!
Which nodes the evaluation of a tree visits. A frame stands at the node whose children it goes through, and has as many
of them done as stand in front of the next one; so the address of a visited node is that of the frame and one more
number. The tail of a list takes over the frame of the list, wherever it stands among the children, and what stood
behind it is given up. Still a step never goes back: the nodes that are left lie behind the one that it visits. On a
conforming tree nothing is given up, since the tail of a list is its last child and a terminal has no children.
-/

namespace Minuscule

open Minuscule.Tree (located locatedFrom)

namespace Walk

theorem done_of_visit {tree : ParseTree} {inherited : Inherited} {frame : Frame}
    (opened : Frame.visit tree inherited = .opened frame) : frame.done = [] := by
  unfold Frame.visit at opened
  split at opened
  · cases opened
  · split at opened
    · cases opened
      rfl
    · cases opened
  · cases opened

/-- The addresses of the frames after a child of the top frame has been visited. -/
def relocate (frame : Frame) (address : List Nat) (below : List (List Nat)) : Visit → List (List Nat)
  | .closed _ => address :: below
  | .opened child =>
    if frame.continues child then (address ++ [frame.done.length]) :: below
    else (address ++ [frame.done.length]) :: address :: below

/-- The child that a step visits, if it visits one, with its address; and the addresses of the frames after the step. -/
def survey (walk : Walk) (addresses : List (List Nat)) : List (List Nat × ParseTree) × List (List Nat) :=
  match walk.frames, addresses with
  | frame :: _, address :: below =>
    match frame.waiting with
    | child :: _ =>
      let given := (Action.inherit frame.rule frame.inherited frame.done).run walk.progress
      ([(address ++ [frame.done.length], child)], relocate frame address below (Frame.visit child given.1))
    | [] => ([], below)
  | _, _ => ([], [])

/-- The subtrees that a walk visits from here on, with their addresses, in the order of the visits. -/
def route (walk : Walk) (addresses : List (List Nat)) : List (List Nat × ParseTree) :=
  match _moved : walk.step with
  | .next next => (walk.survey addresses).1 ++ next.route (walk.survey addresses).2
  | .finished _ _ => []
termination_by work walk.frames
decreasing_by exact step_next _moved

/-- A walk that comes to its end after so many steps. -/
inductive Ends : Walk → Nat → Attributes → Progress → Prop
  | finished {walk : Walk} {attributes : Attributes} {progress : Progress}
      (stopped : walk.step = .finished attributes progress) : Ends walk 1 attributes progress
  | next {walk next : Walk} {steps : Nat} {attributes : Attributes} {progress : Progress}
      (moved : walk.step = .next next) (later : Ends next steps attributes progress) :
      Ends walk (steps + 1) attributes progress

/-- What a step does: it visits a child of the top frame, or takes off a frame that has none left. -/
theorem step_eq_next {walk next : Walk} (moved : walk.step = .next next) :
    (∃ frame rest child others, walk.frames = frame :: rest ∧ frame.waiting = child :: others ∧
      next.frames = proceed { frame with waiting := others } rest (Frame.visit child
        ((Action.inherit frame.rule frame.inherited frame.done).run walk.progress).1)) ∨
    ∃ frame parent rest found, walk.frames = frame :: parent :: rest ∧ frame.waiting = [] ∧
      next.frames = parent.receive found :: rest := by
  unfold step at moved
  split at moved
  · cases moved
  · next frame rest frames =>
    split at moved
    · next child others waiting =>
      cases moved
      exact .inl ⟨frame, rest, child, others, frames, waiting, rfl⟩
    · next waiting =>
      split at moved
      · cases moved
      · next parent rest =>
        cases moved
        exact .inr ⟨frame, parent, rest, _, frames, waiting, rfl⟩

theorem frames_of_finished {walk : Walk} {attributes : Attributes} {progress : Progress}
    (stopped : walk.step = .finished attributes progress) :
    walk.frames = [] ∨ ∃ frame, walk.frames = [frame] ∧ frame.waiting = [] := by
  unfold step at stopped
  split at stopped
  · next frames => exact .inl frames
  · next frame rest frames =>
    split at stopped
    · cases stopped
    · next waiting =>
      split at stopped
      · exact .inr ⟨frame, frames, waiting⟩
      · cases stopped

theorem proceed_ne_nil (frame : Frame) (rest : List Frame) (visit : Visit) : proceed frame rest visit ≠ [] := by
  cases visit with
  | closed attributes => exact List.cons_ne_nil _ _
  | opened child =>
    rw [proceed]
    split <;> exact List.cons_ne_nil _ _

/-- The work of a walk bounds the number of its steps. -/
theorem exists_ends (walk : Walk) (given : walk.frames ≠ []) :
    ∃ steps ≤ work walk.frames, Ends walk steps walk.run.1 walk.run.2 := by
  fun_induction run walk with
  | case1 walk next moved ih =>
    have less := step_next moved
    have left : next.frames ≠ [] := by
      rcases step_eq_next moved with ⟨_, _, _, _, _, _, frames⟩ | ⟨_, _, _, _, _, _, frames⟩ <;> rw [frames]
      · exact proceed_ne_nil _ _ _
      · exact List.cons_ne_nil _ _
    obtain ⟨steps, bound, ends⟩ := ih left
    exact ⟨steps + 1, by omega, .next moved ends⟩
  | case2 walk attributes progress stopped =>
    refine ⟨1, ?_, .finished stopped⟩
    obtain ⟨frame, rest, frames⟩ := List.exists_cons_of_ne_nil given
    rw [frames, work, sumOf_cons]
    omega

/-- The nodes that are left to the frames below the top one, each of which waits for a child. -/
def pendingBelow : List Frame → List (List Nat) → List (List Nat × ParseTree)
  | frame :: rest, address :: below =>
    locatedFrom address (frame.done.length + 1) frame.waiting ++ pendingBelow rest below
  | _, _ => []

/-- The nodes that are left to a walk. -/
def pending : List Frame → List (List Nat) → List (List Nat × ParseTree)
  | frame :: rest, address :: below =>
    locatedFrom address frame.done.length frame.waiting ++ pendingBelow rest below
  | _, _ => []

theorem pendingBelow_nil (addresses : List (List Nat)) : pendingBelow [] addresses = [] := by
  cases addresses <;> rfl

theorem pending_of_visit {tree : ParseTree} {inherited : Inherited} {frame : Frame}
    (visited : Frame.visit tree inherited = .opened frame) (address : List Nat) :
    pending [frame] [address] = locatedFrom address 0 tree.children := by
  rw [pending, done_of_visit visited, visit_opened visited, pendingBelow_nil, List.append_nil, List.length_nil]

/-- A frame that has received a child goes on with the next one. -/
theorem pending_receive (parent : Frame) (found : Attributes) (rest : List Frame) (addresses : List (List Nat)) :
    pending (parent.receive found :: rest) addresses = pendingBelow (parent :: rest) addresses := by
  cases addresses with
  | nil => rfl
  | cons address below =>
    rw [pending, pendingBelow, Frame.receive, List.length_append, List.length_singleton]

theorem survey_visit {walk : Walk} {frame : Frame} {rest : List Frame} {child : ParseTree} {others : List ParseTree}
    (frames : walk.frames = frame :: rest) (waiting : frame.waiting = child :: others) (address : List Nat)
    (below : List (List Nat)) :
    walk.survey (address :: below) = ([(address ++ [frame.done.length], child)], relocate frame address below
      (Frame.visit child ((Action.inherit frame.rule frame.inherited frame.done).run walk.progress).1)) := by
  simp only [survey, frames, waiting]

theorem survey_done {walk : Walk} {frame : Frame} {rest : List Frame} (frames : walk.frames = frame :: rest)
    (waiting : frame.waiting = []) (address : List Nat) (below : List (List Nat)) :
    walk.survey (address :: below) = ([], below) := by
  simp only [survey, frames, waiting]

theorem survey_nil (walk : Walk) : walk.survey [] = ([], []) := by
  unfold survey
  cases walk.frames <;> rfl

/-- A visit leaves nodes below the child or behind it. -/
theorem pending_proceed (frame : Frame) (rest : List Frame) (address : List Nat) (below : List (List Nat))
    (child : ParseTree) (given : Inherited) :
    (pending (proceed frame rest (Frame.visit child given))
        (relocate frame address below (Frame.visit child given))).Sublist
      (locatedFrom (address ++ [frame.done.length]) 0 child.children ++
        pendingBelow (frame :: rest) (address :: below)) := by
  cases visited : Frame.visit child given with
  | closed attributes =>
    rw [proceed, relocate, pending_receive]
    exact List.sublist_append_right _ _
  | opened inner =>
    rw [proceed, relocate]
    split
    · rw [pending, Frame.continueWith, done_of_visit visited, visit_opened visited, pendingBelow]
      exact (List.Sublist.refl _).append (List.sublist_append_right _ _)
    · rw [pending, done_of_visit visited, visit_opened visited]
      exact List.Sublist.refl _

/-- A step never goes back: what it visits comes first among the nodes that were left, and what is left after it comes
later. -/
theorem pending_step {walk next : Walk} (moved : walk.step = .next next) (addresses : List (List Nat)) :
    ((walk.survey addresses).1 ++ pending next.frames (walk.survey addresses).2).Sublist
      (pending walk.frames addresses) := by
  cases addresses with
  | nil =>
    rw [survey_nil]
    cases next.frames <;> exact List.nil_sublist _
  | cons address below =>
    rcases step_eq_next moved with
      ⟨frame, rest, child, others, frames, waiting, after⟩ | ⟨frame, parent, rest, found, frames, waiting, after⟩
    · have left := pending_proceed { frame with waiting := others } rest address below child
        ((Action.inherit frame.rule frame.inherited frame.done).run walk.progress).1
      rw [survey_visit frames waiting, after, frames, pending, waiting, locatedFrom, Tree.located_eq, List.append_assoc]
      exact left.cons_cons _
    · rw [survey_done frames waiting, after, frames, pending, waiting, pending_receive]
      exact List.Sublist.refl _

theorem route_sublist (walk : Walk) (addresses : List (List Nat)) :
    (walk.route addresses).Sublist (pending walk.frames addresses) := by
  fun_induction route walk addresses with
  | case1 walk addresses next moved ih =>
    exact ((List.Sublist.refl _).append ih).trans (pending_step moved addresses)
  | case2 => exact List.nil_sublist _

/-! Conforming trees. -/

theorem children_of_closed {tree : ParseTree} (conforming : tree.conforms Language.grammar = true)
    {inherited : Inherited} {attributes : Attributes} (closed : Frame.visit tree inherited = .closed attributes) :
    tree.children = [] := by
  obtain ⟨label, children⟩ := tree
  rcases Language.conforms_cases conforming with ⟨_, _, bare⟩ | ⟨rule, signed, known, _⟩
  · exact bare
  · simp only [Frame.visit, Tree.sign, Tree.label, signed, known, reduceCtorEq] at closed

/-- Frames that wait for the last children of their rules, each with its address. A frame below the top one has a
child more done as soon as it comes to the top. -/
def Orderly (addresses : List (List Nat)) : List Frame → Prop
  | [] => False
  | frame :: rest => frame.Sound ∧ (∀ parent ∈ rest, ∀ found, (parent.receive found).Sound) ∧
      addresses.length = rest.length + 1

theorem visit_orderly {frame : Frame} {rest : List Frame} (sound : frame.Sound)
    (lower : ∀ parent ∈ rest, ∀ found, (parent.receive found).Sound) {child : ParseTree} {others : List ParseTree}
    (waiting : frame.waiting = child :: others) (given : Inherited) (address : List Nat) {below : List (List Nat)}
    (length : below.length = rest.length) :
    pending (proceed { frame with waiting := others } rest (Frame.visit child given))
        (relocate frame address below (Frame.visit child given)) =
      locatedFrom (address ++ [frame.done.length]) 0 child.children ++
        pendingBelow ({ frame with waiting := others } :: rest) (address :: below) ∧
    Orderly (relocate frame address below (Frame.visit child given))
      (proceed { frame with waiting := others } rest (Frame.visit child given)) := by
  have conforming := sound.conforms child (waiting ▸ List.mem_cons_self ..)
  rcases Frame.visit_cases conforming given with ⟨closed, visited, _⟩ | ⟨inner, visited, fit, _, signed, _⟩
  · have bare := children_of_closed conforming visited
    rw [visited, proceed, relocate, pending_receive, bare, locatedFrom, List.nil_append]
    exact ⟨rfl, sound.receive waiting closed, lower, congrArg (· + 1) length⟩
  · have fresh := done_of_visit visited
    have children := visit_opened visited
    rw [visited, proceed, relocate]
    by_cases continued : frame.continues inner = true
    · obtain ⟨rfl, _⟩ := sound.tail_last waiting signed continued
      have same : Frame.continues { frame with waiting := [] } inner = true := continued
      rw [if_pos continued, if_pos same]
      refine ⟨?_, ⟨fit.signed, fit.right, fit.conforms⟩, lower, congrArg (· + 1) length⟩
      rw [pending, Frame.continueWith, fresh, children, pendingBelow, locatedFrom, List.nil_append, List.length_nil]
    · have same : ¬ Frame.continues { frame with waiting := others } inner = true := continued
      rw [if_neg continued, if_neg same, pending, fresh, children]
      refine ⟨rfl, fit, ?_, congrArg (· + 2) length⟩
      intro parent member found
      rcases List.mem_cons.mp member with rfl | outer
      · exact sound.receive waiting found
      · exact lower parent outer found

/-- Over a conforming tree a step gives up no node. -/
theorem pending_step_of_orderly {walk next : Walk} (moved : walk.step = .next next) {addresses : List (List Nat)}
    (orderly : Orderly addresses walk.frames) :
    (walk.survey addresses).1 ++ pending next.frames (walk.survey addresses).2 = pending walk.frames addresses ∧
      Orderly (walk.survey addresses).2 next.frames := by
  rcases step_eq_next moved with
    ⟨frame, rest, child, others, frames, waiting, after⟩ | ⟨frame, parent, rest, found, frames, waiting, after⟩
  · rw [frames] at orderly
    obtain ⟨sound, lower, length⟩ := orderly
    obtain ⟨address, below, rfl⟩ := List.exists_cons_of_length_eq_add_one length
    obtain ⟨left, kept⟩ := visit_orderly sound lower waiting
      ((Action.inherit frame.rule frame.inherited frame.done).run walk.progress).1 address (Nat.succ.inj length)
    rw [survey_visit frames waiting, after, frames, pending, waiting, locatedFrom, Tree.located_eq, List.append_assoc]
    exact ⟨congrArg _ left, kept⟩
  · rw [frames] at orderly
    obtain ⟨_, lower, length⟩ := orderly
    obtain ⟨address, below, rfl⟩ := List.exists_cons_of_length_eq_add_one length
    rw [survey_done frames waiting, after, frames, pending, waiting, pending_receive]
    refine ⟨rfl, lower parent (List.mem_cons_self ..) found, ?_, Nat.succ.inj length⟩
    exact fun other member => lower other (List.mem_cons_of_mem _ member)

theorem route_of_orderly {walk : Walk} {addresses : List (List Nat)} (orderly : Orderly addresses walk.frames) :
    walk.route addresses = pending walk.frames addresses := by
  fun_induction route walk addresses with
  | case1 walk addresses next moved ih =>
    obtain ⟨left, kept⟩ := pending_step_of_orderly moved orderly
    rw [ih kept, left]
  | case2 walk addresses attributes progress stopped =>
    rcases frames_of_finished stopped with frames | ⟨frame, frames, waiting⟩
    · rw [frames] at orderly
      exact orderly.elim
    · rw [frames]
      cases addresses with
      | nil => rfl
      | cons address below => rw [pending, waiting, locatedFrom, pendingBelow_nil, List.nil_append]

end Walk

/-- The subtrees that the evaluation of a tree visits, with their addresses, in the order of the visits. -/
def Evaluation.visits (tree : ParseTree) : List (List Nat × ParseTree) :=
  ([], tree) :: match Frame.visit tree {} with
    | .closed _ => []
    | .opened frame => Walk.route ⟨[frame], .start⟩ [[]]

theorem Evaluation.visits_sublist (tree : ParseTree) : (visits tree).Sublist (located [] tree) := by
  rw [visits, Tree.located_eq]
  apply List.Sublist.cons_cons
  split
  · exact List.nil_sublist _
  · next frame visited =>
    rw [← Walk.pending_of_visit visited]
    exact Walk.route_sublist ⟨[frame], .start⟩ [[]]

theorem Evaluation.visits_of_conforms {tree : ParseTree} (conforming : tree.conforms Language.grammar = true) :
    visits tree = located [] tree := by
  rw [visits, Tree.located_eq]
  congr 1
  rcases Frame.visit_cases conforming {} with ⟨closed, visited, _⟩ | ⟨frame, visited, sound, _⟩
  · rw [visited, Walk.children_of_closed conforming visited, locatedFrom]
  · have orderly : Walk.Orderly [[]] [frame] := ⟨sound, fun _ absent => (List.not_mem_nil absent).elim, rfl⟩
    rw [visited, ← Walk.pending_of_visit visited]
    exact @Walk.route_of_orderly ⟨[frame], .start⟩ _ orderly

/-- The evaluation of a tree comes to its end, whatever the tree: with less than two steps for each node. It visits
nodes of the tree only, each at most once, and in the order of the walk over all nodes. On a conforming tree it leaves
no node out. -/
theorem evaluation_visits_in_preorder (tree : ParseTree) :
    (∀ frame, Frame.visit tree {} = .opened frame → ∃ steps < 2 * tree.size, ∃ attributes progress,
      Walk.Ends ⟨[frame], .start⟩ steps attributes progress ∧
      Evaluation.ofTree tree = ⟨attributes.code, progress.errors.toList, progress.symbols, progress.names⟩) ∧
    (∀ visit ∈ Evaluation.visits tree, tree.at? visit.1 = some visit.2) ∧
    ((Evaluation.visits tree).map Prod.fst).Pairwise (List.Lex (· < ·)) ∧
    ((Evaluation.visits tree).map fun visit => (visit.1.length, visit.2)).Sublist tree.preorder ∧
    (tree.conforms Language.grammar = true →
      ∀ address subtree, tree.at? address = some subtree → (address, subtree) ∈ Evaluation.visits tree) := by
  have part := Evaluation.visits_sublist tree
  refine ⟨?_, ?_, ?_, ?_, ?_⟩
  · intro frame visited
    obtain ⟨steps, bound, ends⟩ := Walk.exists_ends ⟨[frame], .start⟩ (List.cons_ne_nil _ _)
    refine ⟨steps, ?_, _, _, ends, ?_⟩
    · have below := Tree.countAll_children tree
      have alone : Walk.work [frame] = 2 * Tree.countAll tree.children + 1 := by
        rw [Walk.work, sumOf_cons, Walk.visit_opened visited]
        rfl
      rw [alone] at bound
      rw [Tree.size_eq_count]
      omega
    · rw [Evaluation.ofTree, visited]
  · intro visit member
    obtain ⟨below, same, found⟩ := Tree.mem_located.mp (part.subset member)
    rwa [same]
  · exact (Tree.pairwise_addresses tree).sublist (part.map _)
  · rw [Tree.preorder_eq_located]
    exact part.map _
  · intro conforming address subtree found
    rw [Evaluation.visits_of_conforms conforming]
    exact Tree.mem_located.mpr ⟨address, rfl, found⟩

/-- A list of statements in front of a semicolon, both under a list of statements. -/
def Language.listInFront : ParseTree :=
  let list (rule : Rule) (children : List ParseTree) : ParseTree :=
    .node ⟨.nonTerminal .codeList, some rule.index, none, 1⟩ children
  list .codeList [list .codeListEmpty [], .node ⟨.terminal .semicolon, none, some ";", 1⟩ []]

theorem evaluation_visits_two_returns :
    Language.twoReturns.conforms Language.grammar = true ∧
      ([1, 0, 0, 0], Tree.node ⟨.terminal .returnWord, none, some "return", 1⟩ []) ∈
        Evaluation.visits Language.twoReturns ∧
      (Evaluation.visits Language.listInFront).map Prod.fst = [[], [0]] ∧
      (Language.listInFront.at? [1]).isSome = true := by
  have conforming : Language.twoReturns.conforms Language.grammar = true := by
    rw [Tree.conforms_iff]
    decide +kernel
  obtain ⟨_, _, _, _, all⟩ := evaluation_visits_in_preorder Language.twoReturns
  exact ⟨conforming, all conforming _ _ rfl, by decide +kernel, rfl⟩

end Minuscule
