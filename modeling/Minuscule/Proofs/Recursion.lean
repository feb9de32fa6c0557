import Minuscule.Attribute.Walk
import Minuscule.Language.Grammar
import Minuscule.Proofs.Traversal
import Mathlib.Data.Nat.Init

/-!
The walk over a tree and the evaluation by recursion. By recursion a node is evaluated with one pass over its
children, each of which is given its attributes and evaluated before the next one is looked at. The walk does
the same with a stack, and lets the tail of a list take over the frame of the list. The two agree on conforming
trees: a list has no attribute besides its code, so that the code of the items in front may be kept aside until
the list ends.
-/

namespace Minuscule

theorem Action.run_bind {α β : Type} (action : Action α) (next : α → Action β) (progress : Progress) :
    (action >>= next).run progress = (next (action.run progress).1).run (action.run progress).2 :=
  rfl

namespace Language

theorem productions_getElem? (index : Nat) :
    grammar.productions[index]? = (Rule.ofIndex? index).map Rule.production := by
  change (Rule.all.toList.map Rule.production)[index]? = _
  rw [List.getElem?_map, Array.getElem?_toList]
  rfl

/-- A conforming tree is a terminal or the right-hand side of a rule below its left-hand side. -/
theorem conforms_cases {label : Label Terminal NonTerminal} {children : List ParseTree}
    (conforming : (Tree.node label children).conforms grammar = true) :
    (∃ kind, label.sign = .terminal kind ∧ children = []) ∨
      ∃ rule, label.sign = .nonTerminal (Rule.production rule).left ∧ label.production.bind Rule.ofIndex? = some rule ∧
        rule.production.right = children.map Tree.sign ∧ ∀ child ∈ children, child.conforms grammar = true := by
  rcases Tree.conforms_cases conforming with
    ⟨kind, signed, _, bare⟩ | ⟨index, production, signed, expanded, found, right, below⟩
  · exact .inl ⟨kind, signed, bare⟩
  · rw [productions_getElem?] at found
    obtain ⟨rule, known, rfl⟩ := Option.map_eq_some_iff.mp found
    refine .inr ⟨rule, signed, ?_, right, below⟩
    rw [expanded]
    exact known

end Language

namespace Evaluation

mutual

/-- The attributes of a node: first those of the children from left to right, then its own. -/
def attributes : ParseTree → Inherited → Action Attributes
  | .node label children, inherited =>
    match label.sign with
    | .terminal _ => return .leaf (label.lexeme.getD "") label.line
    | .nonTerminal _ =>
      match label.production.bind Rule.ofIndex? with
      | some rule => do
        let done ← attributesFrom children rule inherited []
        Action.synthesize rule inherited done
      | none => return {}
    | _ => return {}

/-- The attributes of all children when those of the first ones are known. -/
def attributesFrom : List ParseTree → Rule → Inherited → List Attributes → Action (List Attributes)
  | [], _, _, done => return done
  | child :: rest, rule, inherited, done => do
    let given ← Action.inherit rule inherited done
    let found ← attributes child given
    attributesFrom rest rule inherited (done ++ [found])

end

/-- The evaluation of a tree by recursion. -/
def byRecursion (tree : ParseTree) : Evaluation :=
  let (attributes, progress) := (attributes tree {}).run .start
  ⟨attributes.code, progress.errors.toList, progress.symbols, progress.names⟩

theorem attributes_of_rule {label : Label Terminal NonTerminal} {children : List ParseTree} {kind : NonTerminal}
    {rule : Rule} (signed : label.sign = .nonTerminal kind) (known : label.production.bind Rule.ofIndex? = some rule)
    (inherited : Inherited) :
    attributes (.node label children) inherited =
      attributesFrom children rule inherited [] >>= Action.synthesize rule inherited := by
  rw [attributes, signed]
  simp only [known]

end Evaluation

open Evaluation (attributes attributesFrom)

namespace Frame

/-- What is left to do for a frame. -/
def complete (frame : Frame) : Action Attributes := do
  let done ← attributesFrom frame.waiting frame.rule frame.inherited frame.done
  let attributes ← Action.synthesize frame.rule frame.inherited done
  return frame.finish attributes

/-- The children that wait are the last ones of the frame's rule. -/
structure Sound (frame : Frame) : Prop where
  signed : frame.sign = .nonTerminal frame.rule.production.left
  right : frame.waiting.map Tree.sign = frame.rule.production.right.drop frame.done.length
  conforms : ∀ tree ∈ frame.waiting, tree.conforms Language.grammar = true

/-- A visit to a conforming tree is its evaluation or the first part of it. -/
theorem visit_cases {tree : ParseTree} (conforming : tree.conforms Language.grammar = true) (inherited : Inherited) :
    (∃ closed, visit tree inherited = .closed closed ∧ attributes tree inherited = pure closed) ∨
      ∃ frame, visit tree inherited = .opened frame ∧ frame.Sound ∧ frame.earlier = [] ∧ frame.sign = tree.sign ∧
        attributes tree inherited = frame.complete := by
  obtain ⟨label, children⟩ := tree
  rcases Language.conforms_cases conforming with ⟨kind, signed, rfl⟩ | ⟨rule, signed, known, right, below⟩
  · refine .inl ⟨.leaf (label.lexeme.getD "") label.line, ?_, ?_⟩
    · simp only [visit, Tree.sign, Tree.label, Tree.lexeme, signed]
    · rw [attributes, signed]
  · refine .inr ⟨⟨label.sign, rule, inherited, [], children, []⟩, ?_, ⟨signed, ?_, below⟩, rfl, rfl, ?_⟩
    · simp only [visit, Tree.sign, Tree.label, Tree.children, signed, known]
    · exact right.symm
    · exact Evaluation.attributes_of_rule signed known inherited

/-- A list has no attributes besides its code. -/
theorem list_synthesize {rule : Rule}
    (list : rule.production.left = .defineList ∨ rule.production.left = .localDefineList ∨
      rule.production.left = .codeList) (inherited : Inherited) (children : List Attributes) :
    ∃ code, Action.synthesize rule inherited children = pure (.ofCode code) := by
  cases rule <;> simp only [Rule.production, reduceCtorEq, or_self] at list <;>
    exact ⟨_, rfl⟩

theorem finish_ofCode (frame : Frame) (code : List Instruction) :
    frame.finish (.ofCode code) = .ofCode (frame.earlier.reverse.flatten ++ code) := by
  unfold finish
  split
  · next none =>
    rw [List.isEmpty_iff.mp none]
    rfl
  · rfl

theorem complete_run_ofCode {frame : Frame} {progress after : Progress} {done : List Attributes}
    {code : List Instruction}
    (below : (attributesFrom frame.waiting frame.rule frame.inherited frame.done).run progress = (done, after))
    (plain : Action.synthesize frame.rule frame.inherited done = pure (.ofCode code)) :
    frame.complete.run progress = (.ofCode (frame.earlier.reverse.flatten ++ code), after) := by
  rw [complete, Action.run_bind, below, plain, ← finish_ofCode]
  rfl

/-- The tail of a list is the last child of the list. -/
theorem Sound.tail_last {frame tail : Frame} (sound : frame.Sound) {child : ParseTree} {rest : List ParseTree}
    (waiting : frame.waiting = child :: rest) (signed : tail.sign = child.sign)
    (continued : frame.continues tail = true) :
    rest = [] ∧ (frame.rule.production.left = .defineList ∨ frame.rule.production.left = .localDefineList ∨
      frame.rule.production.left = .codeList) ∧ ∀ inherited children,
        Action.synthesize frame.rule inherited children = pure (.concat children) := by
  simp only [continues, isList, Bool.and_eq_true, Bool.or_eq_true, decide_eq_true_eq] at continued
  obtain ⟨list, same⟩ := continued
  have right := sound.right
  rw [waiting, List.map_cons, ← signed, same, sound.signed] at right
  rcases list with (list | list) | list <;> rw [list] at right ⊢
  all_goals
    match length : frame.done.length with
    | 0 => simp [length, Rule.production] at right
    | 1 =>
      simp only [length, Rule.production, List.drop_succ_cons, List.drop_zero, List.cons.injEq,
        List.map_eq_nil_iff, true_and] at right
      exact ⟨right, by simp [Rule.production], fun _ _ => rfl⟩
    | more + 2 => simp [length, Rule.production] at right

/-- A list goes on with its tail in the same frame. -/
theorem Sound.complete_continueWith {frame tail : Frame} (sound : frame.Sound) (opened : tail.Sound)
    (fresh : tail.earlier = []) {child : ParseTree} {rest : List ParseTree} (waiting : frame.waiting = child :: rest)
    (signed : tail.sign = child.sign) (continued : frame.continues tail = true) :
    (frame.continueWith tail).complete = (do
      let found ← tail.complete
      (Frame.receive { frame with waiting := rest } found).complete) := by
  obtain ⟨rfl, list, concat⟩ := sound.tail_last waiting signed continued
  have same : frame.rule.production.left = tail.rule.production.left := by
    simp only [continues, Bool.and_eq_true, decide_eq_true_eq] at continued
    have signs := opened.signed.symm.trans (continued.2.trans sound.signed)
    exact (Sign.nonTerminal.inj signs).symm
  rw [same] at list
  funext progress
  change (frame.continueWith tail).complete.run progress = (tail.complete >>= _).run progress
  obtain ⟨⟨done, after⟩, below⟩ :
      ∃ all, (attributesFrom tail.waiting tail.rule tail.inherited tail.done).run progress = all := ⟨_, rfl⟩
  obtain ⟨code, plain⟩ := list_synthesize list tail.inherited done
  have whole : (frame.continueWith tail).complete.run progress = _ := complete_run_ofCode below plain
  have part := complete_run_ofCode below plain
  have last : (Frame.receive { frame with waiting := [] } (.ofCode code)).complete.run after = _ :=
    complete_run_ofCode rfl (concat _ _)
  rw [fresh] at part
  rw [whole, Action.run_bind, part]
  refine Eq.trans ?_ last.symm
  simp [continueWith, receive, Attributes.ofCode]

theorem Sound.receive {frame : Frame} (sound : frame.Sound) {child : ParseTree} {rest : List ParseTree}
    (waiting : frame.waiting = child :: rest) (found : Attributes) :
    (Frame.receive { frame with waiting := rest } found).Sound where
  signed := sound.signed
  right := by
    have right := congrArg List.tail sound.right
    rw [waiting, List.map_cons, List.tail_cons, List.tail_drop] at right
    change rest.map Tree.sign = frame.rule.production.right.drop (frame.done ++ [found]).length
    rw [right, List.length_append, List.length_singleton]
  conforms tree member := sound.conforms tree (waiting ▸ List.mem_cons_of_mem _ member)

theorem complete_next {frame : Frame} {child : ParseTree} {rest : List ParseTree}
    (waiting : frame.waiting = child :: rest) :
    frame.complete = (do
      let given ← Action.inherit frame.rule frame.inherited frame.done
      let found ← attributes child given
      (Frame.receive { frame with waiting := rest } found).complete) := by
  rw [complete, waiting, attributesFrom]
  rfl

end Frame

namespace Walk

/-- What is left to do for the frames below one that has come to its end. -/
def resume : List Frame → Attributes → Action Attributes
  | [], found => return found
  | frame :: rest, found => do
    let above ← (frame.receive found).complete
    resume rest above

theorem run_eq (walk : Walk) :
    walk.run = match walk.step with
      | .next walk => walk.run
      | .finished attributes progress => (attributes, progress) := by
  rw [run]
  split
  · next same => rw [same]
  · next same => rw [same]

/-- A walk completes its top frame and goes on with the frames below. -/
theorem run_eq_complete {frame : Frame} {rest : List Frame} (sound : frame.Sound)
    (below : ∀ parent ∈ rest, ∀ found, (parent.receive found).Sound) (progress : Progress) :
    run ⟨frame :: rest, progress⟩ = (frame.complete >>= resume rest).run progress := by
  induction size : work (frame :: rest) using Nat.strong_induction_on generalizing frame rest progress with
  | _ size ih =>
    subst size
    cases waiting : frame.waiting with
    | nil =>
      have complete : frame.complete =
          (Action.synthesize frame.rule frame.inherited frame.done >>= fun found => pure (frame.finish found)) := by
        rw [Frame.complete, waiting, attributesFrom]
        rfl
      rw [complete]
      cases rest with
      | nil =>
        rw [run_eq]
        simp only [step, waiting]
        rfl
      | cons parent rest =>
        have moved := run_eq ⟨frame :: parent :: rest, progress⟩
        simp only [step, waiting] at moved
        rw [moved]
        apply ih _ _ (below parent (List.mem_cons_self ..) _)
          (fun other member => below other (List.mem_cons_of_mem _ member)) _ rfl
        simp only [work, Frame.receive, sumOf_cons]
        omega
    | cons child others =>
      obtain ⟨⟨given, after⟩, inherits⟩ :
          ∃ pair, (Action.inherit frame.rule frame.inherited frame.done).run progress = pair := ⟨_, rfl⟩
      have moved : step ⟨frame :: rest, progress⟩ =
          .next ⟨proceed { frame with waiting := others } rest (Frame.visit child given), after⟩ := by
        simp only [step, waiting, inherits]
      have less := step_next moved
      rw [run_eq, moved, Frame.complete_next waiting, Action.run_bind, Action.run_bind, inherits]
      have conforming := sound.conforms child (waiting ▸ List.mem_cons_self ..)
      rcases Frame.visit_cases conforming given with
        ⟨closed, visited, evaluated⟩ | ⟨opened, visited, fit, fresh, signed, evaluated⟩
      · rw [visited] at less ⊢
        rw [evaluated]
        exact ih _ less (sound.receive waiting closed) below after rfl
      · rw [visited, proceed] at less ⊢
        rw [evaluated]
        split at less
        · next continued =>
          rw [if_pos continued]
          have whole := sound.complete_continueWith fit fresh waiting signed continued
          have kept : (frame.continueWith opened).Sound := ⟨fit.signed, fit.right, fit.conforms⟩
          have ran := ih _ less kept below after rfl
          rw [whole] at ran
          exact ran
        · next nested =>
          rw [if_neg nested]
          apply ih _ less fit _ after rfl
          intro parent member found
          rcases List.mem_cons.mp member with rfl | outer
          · exact sound.receive waiting found
          · exact below parent outer found

end Walk

/-- A tree is evaluated by a walk that starts with the tree's own frame. -/
theorem Walk.run_visit {tree : ParseTree} (conforming : tree.conforms Language.grammar = true)
    (inherited : Inherited) (progress : Progress) :
    (match Frame.visit tree inherited with
      | .closed attributes => (attributes, progress)
      | .opened frame => run ⟨[frame], progress⟩) = (attributes tree inherited).run progress := by
  rcases Frame.visit_cases conforming inherited with
    ⟨closed, visited, evaluated⟩ | ⟨frame, visited, sound, _, _, evaluated⟩
  · rw [visited, evaluated]
    rfl
  · have none : ∀ parent ∈ ([] : List Frame), ∀ found, (parent.receive found).Sound := by simp
    rw [visited, evaluated]
    exact run_eq_complete sound none progress

/-- The walk and the recursion leave the same code, the same errors in the same order, the same symbols and the
same counts of names, whatever the sign at the root. -/
theorem Evaluation.ofTree_eq_byRecursion (tree : ParseTree) (conforming : tree.conforms Language.grammar = true) :
    Evaluation.ofTree tree = Evaluation.byRecursion tree := by
  rw [byRecursion, ← Walk.run_visit conforming {} .start]
  rfl

/-- Two returns in a row, under the list of statements that they make up. -/
def Language.twoReturns : ParseTree :=
  let node (rule : Rule) (children : List ParseTree) : ParseTree :=
    .node ⟨.nonTerminal rule.production.left, some rule.index, none, 1⟩ children
  let leaf (kind : Terminal) (lexeme : String) : ParseTree := .node ⟨.terminal kind, none, some lexeme, 1⟩ []
  let item := node .codeReturn
    [node .returnStatement [leaf .returnWord "return", node .returnVoid [leaf .semicolon ";"]]]
  node .codeList [item, node .codeList [item, node .codeListEmpty []]]

theorem Evaluation.ofTree_eq_byRecursion_twoReturns :
    Language.twoReturns.conforms Language.grammar = true ∧
      Evaluation.ofTree Language.twoReturns = Evaluation.byRecursion Language.twoReturns ∧
      (Evaluation.byRecursion Language.twoReturns).code = [.ret none, .ret none] := by
  have conforming : Language.twoReturns.conforms Language.grammar = true := by
    rw [Tree.conforms_iff]
    decide +kernel
  exact ⟨conforming, ofTree_eq_byRecursion _ conforming, by decide +kernel⟩

end Minuscule
