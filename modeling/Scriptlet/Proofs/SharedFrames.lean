/-
Shared frames and stacks of scopes. Frames are shared and changed in place, and every block adds one that is never taken
away; a stack of scopes is handed from step to step and shrinks again. Here the two are compared frame by frame: the
frames that lie around the current one when statements begin to run are written down by number, and after the run each
of them holds what the scope in its place holds, whichever way the run has ended.

A frame keeps its place because nothing ever changes what encloses it (`Frames.path_of_grows`), and what a chain shows
of the frames is what they bind, number by number (`Frames.chain_eq_map`). The rest is the refinement of `Frames` by
stacks.

- `Stmt.executeAll_agrees`: statements over shared frames and over a stack of scopes.
-/
import Scriptlet.Proofs.FrameChain

namespace Scriptlet

namespace Frames

/-- the numbers of frame `i` and the frames around it, innermost first -/
def path (s : Frames) (i : Nat) : List Nat :=
  match s.all[i]? with
  | none => []
  | some frame =>
    i ::
      match frame.enclosing with
      | none => []
      | some j => if j < i then path s j else []
termination_by i

theorem path_eq (s : Frames) (i : Nat) : s.path i =
    match s.all[i]? with
    | none => []
    | some frame => i ::
        match frame.enclosing with
        | none => []
        | some j => if j < i then s.path j else [] := by
  rw [path]

def namesAt (s : Frames) (j : Nat) : Names := (s.all[j]?.map fun frame => frame.bindings.names).getD ∅

/-- the scopes of a chain are what its frames bind -/
theorem chain_eq_map (s : Frames) (i : Nat) : s.chain i = (s.path i).map s.namesAt := by
  induction i using Nat.strong_induction_on with
  | _ i ih =>
    rw [chain_eq, path_eq]
    cases hframe : s.all[i]? with
    | none => rfl
    | some frame =>
      have hnames : s.namesAt i = frame.bindings.names := by
        rw [namesAt, hframe]
        rfl
      simp only [List.map_cons, hnames, List.cons.injEq, true_and]
      cases frame.enclosing with
      | none => rfl
      | some j =>
        simp only
        split_ifs with hj
        · exact ih j hj
        · rfl

/-- frames stay where they are in a chain, whatever is added or bound -/
theorem path_of_grows {s t : Frames} (h : s.Grows t) {i : Nat} (hi : i < s.all.size) : t.path i = s.path i := by
  induction i using Nat.strong_induction_on with
  | _ i ih =>
    have henclosing := h.enclosing i hi
    rw [Array.getElem?_eq_getElem hi, Option.map_some] at henclosing
    obtain ⟨frame, hframe, hsame⟩ := Option.map_eq_some_iff.1 henclosing
    rw [path_eq, path_eq, hframe, Array.getElem?_eq_getElem hi]
    simp only [hsame, List.cons.injEq, true_and]
    cases (s.all[i]).enclosing with
    | none => rfl
    | some j =>
      simp only
      split_ifs with hj
      · exact ih j hj (hj.trans hi)
      · rfl

end Frames

namespace Stmt

/-- **Shared frames do what a stack of scopes does.** Let any statements run from any frame, with any frames around it
and any sink. They end as they do over the stack of what those frames bind, with the same error if they fail, and leave
the sink in the same state; the frame they started in is current again, and each frame that lay around it binds what the
scope in its place binds. -/
theorem executeAll_agrees (body : List Stmt) (s : Session) (hcurrent : s.scope.current < s.scope.frames.all.size) :
    let path := s.scope.frames.path s.scope.current
    let shared := executeAll body s
    let stacked := executeAllIn body ⟨path.map s.scope.frames.namesAt, s.sink⟩
    shared.answer = stacked.answer ∧ shared.state.sink = stacked.state.sink ∧
      shared.state.scope.current = s.scope.current ∧ shared.state.scope.frames.path s.scope.current = path ∧
      path.map shared.state.scope.frames.namesAt = stacked.state.scopes := by
  intro path shared stacked
  have hrefines : (Session.view 0).Refines (executeAll body) (executeAllIn body) := executeAll_refines body
  have hlater : s.Later shared.state := hrefines.later s
  -- no written byte is left out of this view, so it shows the sink as it is
  have hsee : ∀ t : Session, (Session.view 0).see t = ⟨t.scope.frames.chain t.scope.current, t.sink⟩ := by
    intro t
    obtain ⟨scope, ⟨kept, limit⟩⟩ := t
    cases limit <;> rfl
  have hseen : shared.mapState (Session.view 0).see = stacked := by
    rw [hrefines.seen s ⟨hcurrent, Nat.zero_le _⟩, hsee s, Frames.chain_eq_map]
  have hpath : shared.state.scope.frames.path s.scope.current = path :=
    Frames.path_of_grows hlater.scope.frames hcurrent
  have hstate : (Session.view 0).see shared.state = stacked.state := by
    rw [← hseen, EStateM.Result.state_mapState]
  rw [hsee, hlater.scope.current, Frames.chain_eq_map, hpath] at hstate
  refine ⟨?_, ?_, hlater.scope.current, hpath, ?_⟩
  · rw [← hseen, EStateM.Result.answer_mapState]
  · rw [← hstate]
  · rw [← hstate]

/-- a frame inside the global one, which binds a name; two more bytes can be written -/
def nestedSession : Session :=
  ⟨⟨⟨#[⟨⟨[("a", .nil)]⟩, none⟩, .opened (some 0)]⟩, 1⟩, .ofLimit (some 2)⟩

/-- a block that binds one name, assigns another two frames further out, and fails as it prints it -/
def failingBlock : List Stmt :=
  [.block [.declare ⟨.identifier, "b", 1⟩ none, .assign ⟨.identifier, "a", 1⟩ (.literal (.bool true)),
    .print (.var ⟨.identifier, "a", 1⟩)]]

theorem executeAll_agrees_failingBlock : nestedSession.scope.current < nestedSession.scope.frames.all.size ∧
    let path := nestedSession.scope.frames.path nestedSession.scope.current
    let shared := executeAll failingBlock nestedSession
    let stacked := executeAllIn failingBlock ⟨path.map nestedSession.scope.frames.namesAt, nestedSession.sink⟩
    shared.answer = stacked.answer ∧ shared.state.sink = stacked.state.sink ∧
      path.map shared.state.scope.frames.namesAt = stacked.state.scopes := by
  have hcurrent : nestedSession.scope.current < nestedSession.scope.frames.all.size := by decide
  obtain ⟨hanswer, hsink, -, -, hscopes⟩ := executeAll_agrees failingBlock nestedSession hcurrent
  exact ⟨hcurrent, hanswer, hsink, hscopes⟩

end Stmt

end Scriptlet
