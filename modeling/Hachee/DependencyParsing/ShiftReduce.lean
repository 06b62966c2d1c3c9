import Hachee.Lisp.Sequence

/-!
# The transition system of the dependency parser

A model of `dependency-parsing/shift-reduce.lisp` up to `parse`.  Vertices are
integers, and the parser adds the vertex `-1` as the root.

A transition changes a copy of the configuration, so it is a function to the next
configuration here; `none` is the error that it signals.  An action function is
given the configuration and the possible actions.  It may keep a state of its own
between its calls, and it may fail.

The two streams of the source are lazy, and `stream-as-list` forces all of their
tails in order.  They are modelled as the lists it returns.  They need not end, so
they are given fuel, and running out of it is `none` as well.
-/

namespace Hachee.DependencyParsing.ShiftReduce

/-! ## Configurations -/

abbrev Vertex := Int

/-- `arborescence-arc` -/
structure Arc where
  parent : Vertex
  child : Vertex
deriving DecidableEq, Repr

structure Configuration where
  stack : List Vertex
  buffer : List Vertex
  arcs : List Arc
  root : Vertex
deriving DecidableEq, Repr

inductive Action where
  | leftArc
  | rightArc
  | swap
  | shift
deriving DecidableEq, Repr

def root : Vertex := -1

/-- `make-initial-configuration` -/
def makeInitialConfiguration (vertices : List Vertex) : Configuration :=
  { stack := [root], buffer := vertices, arcs := [], root := root }

/-- `configuration-terminated-p` -/
def terminatedP (configuration : Configuration) : Bool :=
  match configuration.stack with
  | [i] => i == configuration.root && configuration.buffer.isEmpty
  | _ => false

/-! ## Transitions -/

/-- `configuration-left-arc!` -/
def leftArc (configuration : Configuration) : Option Configuration :=
  match configuration.stack with
  | j :: i :: rest =>
      if i ≠ configuration.root then
        some { configuration with
          arcs := { parent := j, child := i } :: configuration.arcs
          stack := j :: rest }
      else none
  | _ => none

/-- `configuration-right-arc!` -/
def rightArc (configuration : Configuration) : Option Configuration :=
  match configuration.stack with
  | j :: i :: rest =>
      some { configuration with
        arcs := { parent := i, child := j } :: configuration.arcs
        stack := i :: rest }
  | _ => none

/-- `configuration-shift!` -/
def shift (configuration : Configuration) : Option Configuration :=
  match configuration.buffer with
  | i :: buffer =>
      some { configuration with buffer := buffer, stack := i :: configuration.stack }
  | [] => none

/-- `configuration-swap!` -/
def swap (configuration : Configuration) : Option Configuration :=
  match configuration.stack with
  | j :: i :: rest =>
      if i ≠ configuration.root ∧ j ≠ configuration.root ∧ i < j then
        some { configuration with
          stack := j :: rest
          buffer := i :: configuration.buffer }
      else none
  | _ => none

/-- `configuration-transitioned` -/
def transitioned (configuration : Configuration) : Action → Option Configuration
  | .leftArc => leftArc configuration
  | .rightArc => rightArc configuration
  | .swap => swap configuration
  | .shift => shift configuration

/-- The configuration after a sequence of transitions. -/
def runActions (configuration : Configuration) (actions : List Action) : Option Configuration :=
  actions.foldlM transitioned configuration

/-- `configuration-possible-actions` -/
def possibleActions (configuration : Configuration) : List Action :=
  let actions := [Action.rightArc]
  let actions := if configuration.buffer ≠ [] then .shift :: actions else actions
  match configuration.stack with
  | j :: i :: _ =>
      let actions := if i ≠ configuration.root then .leftArc :: actions else actions
      if i ≠ configuration.root ∧ j ≠ configuration.root ∧ i < j then .swap :: actions
      else actions
  | _ => actions

/-! ## Parsing -/

section Parse

variable {σ : Type}

/-- A function that chooses an action, with the state it keeps. -/
abbrev ActionFn (σ : Type) := σ → Configuration → List Action → Option (Action × σ)

/-- `select-action` -/
def selectAction (configuration : Configuration) (actionFn : ActionFn σ) (s : σ) :
    Option (Action × σ) :=
  actionFn s configuration (possibleActions configuration)

/-- `make-configuration-stream`, with all its tails forced. -/
def configurationStream (actionFn : ActionFn σ) :
    Nat → σ → Configuration → Option (List Configuration)
  | 0, _, _ => none
  | fuel + 1, s, configuration =>
      if terminatedP configuration then some []
      else do
        let (action, s) ← selectAction configuration actionFn s
        let next ← transitioned configuration action
        let configurations ← configurationStream actionFn fuel s next
        some (configuration :: configurations)

/-- `make-action-stream`, with all its tails forced. -/
def actionStream (actionFn : ActionFn σ) : Nat → σ → Configuration → Option (List Action)
  | 0, _, _ => none
  | fuel + 1, s, configuration =>
      if terminatedP configuration then some []
      else do
        let (action, s) ← selectAction configuration actionFn s
        let next ← transitioned configuration action
        let actions ← actionStream actionFn fuel s next
        some (action :: actions)

/-- The last configuration of the stream is read, and the arcs that leave the root
are removed from its arcs. -/
def parse (actionFn : ActionFn σ) (fuel : Nat) (s : σ) (vertices : List Vertex) :
    Option (List Arc) :=
  if ∀ node ∈ vertices, 0 ≤ node then do
    let initialConfiguration := makeInitialConfiguration vertices
    let configurations ← configurationStream actionFn fuel s initialConfiguration
    let last ← configurations.getLast?
    some (last.arcs.filter fun arc => arc.parent ≠ initialConfiguration.root)
  else none

/-- The action function that takes the next action of a list, as `(pop actions)` does. -/
def popAction : ActionFn (List Action)
  | action :: actions, _, _ => some (action, actions)
  | [], _, _ => none

end Parse

/-! ## Inversion -/

/-- The root is at the bottom of the stack. -/
def Rooted (c : Configuration) : Prop :=
  c.root = root ∧ ∃ body, c.stack = body ++ [root]

/-- The stack without the root at its bottom. -/
def body (c : Configuration) : List Vertex := c.stack.dropLast

@[simp] theorem body_concat (l buffer : List Vertex) (arcs : List Arc) :
    body ⟨l ++ [root], buffer, arcs, root⟩ = l :=
  List.dropLast_concat

/-- What a transition does in a configuration whose stack ends in the root. -/
inductive Move : Configuration → Action → Configuration → Prop
  | leftArc {i j : Vertex} {rest buffer : List Vertex} {arcs : List Arc} :
      Move ⟨j :: i :: rest ++ [root], buffer, arcs, root⟩ .leftArc
        ⟨j :: rest ++ [root], buffer, ⟨j, i⟩ :: arcs, root⟩
  | rightArc {j : Vertex} {rest buffer : List Vertex} {arcs : List Arc} :
      Move ⟨j :: rest ++ [root], buffer, arcs, root⟩ .rightArc
        ⟨rest ++ [root], buffer, ⟨rest.headD root, j⟩ :: arcs, root⟩
  | shift {i : Vertex} {body buffer : List Vertex} {arcs : List Arc} :
      Move ⟨body ++ [root], i :: buffer, arcs, root⟩ .shift
        ⟨i :: body ++ [root], buffer, arcs, root⟩
  | swap {i j : Vertex} {rest buffer : List Vertex} {arcs : List Arc} (hlt : i < j) :
      Move ⟨j :: i :: rest ++ [root], buffer, arcs, root⟩ .swap
        ⟨j :: rest ++ [root], i :: buffer, arcs, root⟩

section Inversion

variable {c next : Configuration} {action : Action}

/-- A transition that succeeds is one of the moves. -/
theorem Rooted.move (hc : Rooted c) (h : transitioned c action = some next) :
    Move c action next := by
  obtain ⟨stack, buffer, arcs, _⟩ := c
  obtain ⟨rfl, body, rfl⟩ := hc
  cases action with
  | leftArc =>
      cases body with
      | nil => cases h
      | cons j rest =>
          cases rest with
          | nil => exact absurd h (by simp [transitioned, leftArc])
          | cons i rest =>
              rcases Lisp.ite_inv (show (if i ≠ root then _ else _) = some next from h) with
                ⟨-, h⟩ | ⟨-, h⟩
              · cases h
                exact Move.leftArc
              · cases h
  | rightArc =>
      cases body with
      | nil => cases h
      | cons j rest =>
          cases rest with
          | nil =>
              cases h
              exact @Move.rightArc j [] buffer arcs
          | cons i rest =>
              cases h
              exact @Move.rightArc j (i :: rest) buffer arcs
  | swap =>
      cases body with
      | nil => cases h
      | cons j rest =>
          cases rest with
          | nil => exact absurd h (by simp [transitioned, swap])
          | cons i rest =>
              rcases Lisp.ite_inv
                (show (if i ≠ root ∧ j ≠ root ∧ i < j then _ else _) = some next from h) with
                ⟨hcond, h⟩ | ⟨-, h⟩
              · cases h
                exact Move.swap hcond.2.2
              · cases h
  | shift =>
      cases buffer with
      | nil => cases h
      | cons i buffer =>
          cases h
          exact Move.shift

/-- Without a second root on the stack, the moves succeed. -/
theorem Move.transitioned (h : Move c action next) (hroot : root ∉ body c) :
    transitioned c action = some next := by
  cases h with
  | @leftArc i j rest _ _ =>
      rw [body_concat] at hroot
      have hi : i ≠ root := by
        rintro rfl
        exact hroot (by simp)
      exact if_pos hi
  | @rightArc j rest _ _ =>
      cases rest with
      | nil => rfl
      | cons i rest => rfl
  | shift => rfl
  | @swap i j rest _ _ hlt =>
      rw [body_concat] at hroot
      have hi : i ≠ root := by
        rintro rfl
        exact hroot (by simp)
      have hj : j ≠ root := by
        rintro rfl
        exact hroot (by simp)
      exact if_pos ⟨hi, hj, hlt⟩

/-- An action whose transition succeeds is a possible one. -/
theorem mem_possibleActions (h : ShiftReduce.transitioned c action = some next) :
    action ∈ possibleActions c := by
  cases action with
  | leftArc => grind [possibleActions, ShiftReduce.transitioned, ShiftReduce.leftArc]
  | rightArc => grind [possibleActions]
  | swap => grind [possibleActions, ShiftReduce.transitioned, ShiftReduce.swap]
  | shift => grind [possibleActions, ShiftReduce.transitioned, ShiftReduce.shift]

/-- The root stays at the bottom of the stack. -/
theorem Move.rooted (h : Move c action next) : Rooted next := by
  cases h with
  | leftArc => exact ⟨rfl, _, rfl⟩
  | rightArc => exact ⟨rfl, _, rfl⟩
  | shift => exact ⟨rfl, _, rfl⟩
  | swap => exact ⟨rfl, _, rfl⟩

end Inversion

/-! ## Offered actions -/

/-- Every action is one of the possible actions where it is taken. -/
def Offered : Configuration → List Action → Prop
  | _, [] => True
  | c, action :: actions =>
      action ∈ possibleActions c ∧ ∀ next, transitioned c action = some next → Offered next actions

section OfferedActions

variable {c next : Configuration} {action : Action}

theorem Rooted.initial (vertices : List Vertex) : Rooted (makeInitialConfiguration vertices) :=
  ⟨rfl, [], rfl⟩

theorem Rooted.run : ∀ (actions : List Action) {c next : Configuration}, Rooted c →
    runActions c actions = some next → Rooted next
  | [], _, _, hc, hrun => by
      cases hrun
      exact hc
  | action :: actions, c, next, hc, hrun => by
      rw [runActions, List.foldlM_cons] at hrun
      obtain ⟨c', htransition, hrest⟩ := Lisp.bind_inv hrun
      exact Rooted.run actions (hc.move htransition).rooted hrest

/-- With the root alone on the stack there is no right arc. -/
theorem rightArc_eq_none (hstack : c.stack = [root]) : rightArc c = none := by
  rw [rightArc, hstack]

/-- The possible actions succeed, but for a right arc with the root alone on the stack. -/
theorem Rooted.exists_transitioned (hc : Rooted c) (h : action ∈ possibleActions c)
    (hstack : c.stack = [root] → action ≠ .rightArc) :
    ∃ next, transitioned c action = some next := by
  obtain ⟨stack, buffer, arcs, _⟩ := c
  obtain ⟨rfl, body, rfl⟩ := hc
  cases body with
  | nil =>
      cases buffer with
      | nil => exact absurd (List.mem_singleton.mp h) (hstack rfl)
      | cons i buffer =>
          cases action with
          | rightArc => exact absurd rfl (hstack rfl)
          | shift => exact ⟨_, rfl⟩
          | leftArc => simp [possibleActions] at h
          | swap => simp [possibleActions] at h
  | cons j rest =>
      obtain ⟨i, below, hbelow⟩ : ∃ i below, rest ++ [root] = i :: below :=
        List.exists_cons_of_ne_nil (by simp)
      simp only [List.cons_append, hbelow] at h ⊢
      cases action with
      | rightArc => exact ⟨_, rfl⟩
      | leftArc =>
          have hi : i ≠ root := by grind [possibleActions]
          exact ⟨_, if_pos hi⟩
      | swap =>
          have hij : i ≠ root ∧ j ≠ root ∧ i < j := by grind [possibleActions]
          exact ⟨_, if_pos hij⟩
      | shift =>
          cases buffer with
          | nil => grind [possibleActions]
          | cons v buffer => exact ⟨_, rfl⟩

/-- Offered actions get to their end if none of them is a right arc with the root alone on
the stack. -/
theorem Rooted.runActions_ne_none : ∀ {actions : List Action} {c : Configuration}, Rooted c →
    Offered c actions →
    (∀ before after reached, actions = before ++ .rightArc :: after →
      runActions c before = some reached → reached.stack ≠ [root]) →
    runActions c actions ≠ none
  | [], _, _, _, _ => by simp [runActions]
  | action :: actions, c, hc, ⟨hmem, hoffered⟩, hstacks => by
      obtain ⟨next, hnext⟩ := hc.exists_transitioned hmem fun hstack heq =>
        hstacks [] actions c (heq ▸ rfl) rfl hstack
      rw [runActions, List.foldlM_cons, hnext]
      refine runActions_ne_none (hc.move hnext).rooted (hoffered next hnext) ?_
      intro before after reached hactions hreached
      refine hstacks (action :: before) after reached (hactions ▸ rfl) ?_
      rw [runActions, List.foldlM_cons, hnext]
      exact hreached

/-- In a reached configuration, the possible actions are those that succeed if and only if
there is something above the root.  A run that takes offered actions breaks off if and only
if it takes a right arc where there is nothing. -/
theorem possibleActions_safe_iff {vertices : List Vertex} {taken : List Action}
    (hrun : runActions (makeInitialConfiguration vertices) taken = some c) :
    ((∀ action, action ∈ possibleActions c ↔ transitioned c action ≠ none) ↔
      c.stack ≠ [root]) ∧
    ∀ actions, Offered c actions →
      (runActions c actions ≠ none ↔ ∀ before after reached,
        actions = before ++ .rightArc :: after → runActions c before = some reached →
          reached.stack ≠ [root]) := by
  have hc : Rooted c := Rooted.run taken (Rooted.initial vertices) hrun
  refine ⟨⟨?_, ?_⟩, fun actions hoffered => ⟨?_, hc.runActions_ne_none hoffered⟩⟩
  · intro hagree hstack
    have hoffered : Action.rightArc ∈ possibleActions c := by grind [possibleActions]
    exact (hagree .rightArc).mp hoffered (rightArc_eq_none hstack)
  · intro hstack action
    constructor
    · intro hmem hnone
      obtain ⟨next, hnext⟩ := hc.exists_transitioned hmem fun heq => absurd heq hstack
      exact Option.some_ne_none next (hnext.symm.trans hnone)
    · intro hne
      obtain ⟨next, hnext⟩ := Option.ne_none_iff_exists'.mp hne
      exact mem_possibleActions hnext
  · intro hne before after reached hactions hreached hstack
    refine hne ?_
    have hnone : transitioned reached .rightArc = none := rightArc_eq_none hstack
    rw [runActions] at hreached ⊢
    rw [hactions, List.foldlM_append, hreached]
    show List.foldlM transitioned reached (.rightArc :: after) = none
    rw [List.foldlM_cons, hnone]
    rfl

/-- Two vertices on the stack: each offered action succeeds. -/
theorem possibleActions_safe_iff_pair :
    let c : Configuration := ⟨[1, 0, root], [], [], root⟩
    ((∀ action, action ∈ possibleActions c ↔ transitioned c action ≠ none) ↔
      c.stack ≠ [root]) ∧
    ∀ actions, Offered c actions →
      (runActions c actions ≠ none ↔ ∀ before after reached,
        actions = before ++ .rightArc :: after → runActions c before = some reached →
          reached.stack ≠ [root]) :=
  possibleActions_safe_iff (show runActions (makeInitialConfiguration [0, 1])
    [.shift, .shift] = some ⟨[1, 0, root], [], [], root⟩ by decide)

/-- The right arc is offered in the initial configuration, where it is an error. -/
theorem not_possibleActions_safe :
    ¬∀ (vertices : List Vertex) (taken : List Action) (c : Configuration),
      runActions (makeInitialConfiguration vertices) taken = some c →
      ∀ action, action ∈ possibleActions c ↔ transitioned c action ≠ none := by
  intro h
  have hagree := h [0] [] (makeInitialConfiguration [0]) rfl .rightArc
  exact absurd hagree (by decide)

end OfferedActions

end Hachee.DependencyParsing.ShiftReduce
