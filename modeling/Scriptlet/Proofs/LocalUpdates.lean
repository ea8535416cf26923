/-
Updates of shared frames. Several frames may lie inside the same one, and a copy of a frame lies inside the one that the
frame lies in, so what is bound through one frame may be seen from others. It is seen exactly where a walk outward leads
to the frame that was changed: an assignment from all frames whose owner of the name is the same, a definition from all
frames between which and the frame itself the name is not bound. Nothing else changes, for no name and no frame.

What encloses a frame is older than the frame (`Frames.Built.ordered`), so that every walk ends; from then on a name is
looked up frame by frame (`Frames.get_here`, `Frames.get_outward`, `Frames.get_global`).

- `Frames.updates_local`: what an assignment and a definition change, and what they leave as it was.
-/
import Scriptlet.Proofs.FrameChain

namespace Scriptlet

namespace Frames

/-! ## Collections of frames -/

/-- frames made one after the other, each operation on a frame that is there -/
inductive Built : Frames → Prop where
  | nothing : Built ⟨#[]⟩
  | unrelated {s : Frames} (h : Built s) : Built s.unrelated
  | child {s : Frames} (h : Built s) {i : Nat} (hi : i < s.all.size) : Built (s.child i)
  | copy {s : Frames} (h : Built s) {i : Nat} (hi : i < s.all.size) : Built (s.copy i)
  | define {s : Frames} (h : Built s) {i : Nat} (hi : i < s.all.size) (name : String) (value : Value) :
    Built (s.define i name value)
  | assign {s t : Frames} (h : Built s) {i : Nat} (hi : i < s.all.size) {name : String} {value : Value}
    (ht : s.assign i name value = .ok t) : Built t

/-- each frame lies inside an older one, if inside any -/
def Ordered (s : Frames) : Prop :=
  ∀ (i : Nat) (frame : Frame), s.all[i]? = some frame → ∀ j, frame.enclosing = some j → j < i

theorem Ordered.add {s : Frames} (h : s.Ordered) {frame : Frame}
    (hframe : ∀ j, frame.enclosing = some j → j < s.all.size) :
    (s.add frame).Ordered := by
  intro i other hother j hj
  simp only [Frames.add, Array.getElem?_push] at hother
  split_ifs at hother with hi
  · cases hother
    exact hi ▸ hframe j hj
  · exact h i other hother j hj

theorem Ordered.define {s : Frames} (h : s.Ordered) (i : Nat) (name : String) (value : Value) :
    (s.define i name value).Ordered := by
  intro k frame hframe j hj
  rw [define_getElem?] at hframe
  split_ifs at hframe with hk
  · obtain ⟨old, hold, rfl⟩ := Option.map_eq_some_iff.1 hframe
    exact h k old hold j hj
  · exact h k frame hframe j hj

theorem Built.ordered {s : Frames} (h : s.Built) : s.Ordered := by
  induction h with
  | nothing => intro i frame hframe; simp at hframe
  | unrelated h ih => exact ih.add nofun
  | @child s h i hi ih =>
    refine ih.add ?_
    rintro j ⟨⟩
    exact hi
  | @copy s h i hi ih =>
    refine ih.add ?_
    rw [Array.getElem?_eq_getElem hi]
    intro j hj
    exact (ih i _ (Array.getElem?_eq_getElem hi) j hj).trans hi
  | define h hi name value ih => exact ih.define _ name value
  | assign h hi ht ih =>
    unfold Frames.assign at ht
    split at ht
    · cases ht
      exact ih.define _ _ _
    · cases ht

/-! ## Walks -/

/-- a walk outward from a frame comes to frame `k`, and no frame before it binds the name -/
inductive Reaches (s : Frames) (name : String) (k : Nat) : Nat → Prop where
  | here : Reaches s name k k
  | outward {i j : Nat} {frame : Frame} (hframe : s.all[i]? = some frame) (hbinds : frame.bindings.find? name = none)
    (henclosing : frame.enclosing = some j) (h : Reaches s name k j) : Reaches s name k i

/-- the lookup of the name from frame `i` ends in frame `k` -/
structure Owns (s : Frames) (name : String) (i k : Nat) : Prop where
  reached : s.Reaches name k i
  bound : ∃ frame value, s.all[k]? = some frame ∧ frame.bindings.find? name = some value

variable {s : Frames} {i j : Nat} {frame : Frame} {name : String}

theorem owner?_here {value : Value} (hframe : s.all[i]? = some frame)
    (hvalue : frame.bindings.find? name = some value) :
    s.owner? name i = some i := by
  rw [owner?, hframe]
  simp [Bindings.binds, hvalue]

theorem owner?_outward (h : s.Ordered) (hframe : s.all[i]? = some frame) (hbinds : frame.bindings.find? name = none)
    (henclosing : frame.enclosing = some j) : s.owner? name i = s.owner? name j := by
  rw [owner?, hframe]
  simp [Bindings.binds, hbinds, henclosing, h i frame hframe j henclosing]

theorem owner?_global (hframe : s.all[i]? = some frame) (hbinds : frame.bindings.find? name = none)
    (henclosing : frame.enclosing = none) : s.owner? name i = none := by
  rw [owner?, hframe]
  simp [Bindings.binds, hbinds, henclosing]

/-- the owner of a name is where its lookup ends -/
theorem owner?_eq_some_iff (h : s.Ordered) {k : Nat} : s.owner? name i = some k ↔ s.Owns name i k := by
  constructor
  · intro howner
    induction i using Nat.strong_induction_on with
    | _ i ih =>
      cases hframe : s.all[i]? with
      | none => rw [owner?, hframe] at howner; cases howner
      | some frame =>
        cases hfind : frame.bindings.find? name with
        | some value =>
          rw [owner?_here hframe hfind] at howner
          cases howner
          exact ⟨.here, frame, value, hframe, hfind⟩
        | none =>
          cases henclosing : frame.enclosing with
          | none => rw [owner?_global hframe hfind henclosing] at howner; cases howner
          | some j =>
            rw [owner?_outward h hframe hfind henclosing] at howner
            obtain ⟨hreached, hbound⟩ := ih j (h i frame hframe j henclosing) howner
            exact ⟨.outward hframe hfind henclosing hreached, hbound⟩
  · rintro ⟨hreached, frame, value, hframe, hfind⟩
    induction hreached with
    | here => exact owner?_here hframe hfind
    | outward hframe' hnone henclosing _ ih => rw [owner?_outward h hframe' hnone henclosing, ih]

/-! ## Lookups -/

theorem get_absent (hframe : s.all[i]? = none) : s.get i name = .error (.undefinedVariable name) := by
  rw [get, owner?, hframe]
  rfl

theorem get_here {value : Value} (hframe : s.all[i]? = some frame) (hfind : frame.bindings.find? name = some value) :
    s.get i name = .ok value := by
  rw [get, owner?_here hframe hfind]
  simp [hframe, hfind]

theorem get_outward (h : s.Ordered) (hframe : s.all[i]? = some frame) (hfind : frame.bindings.find? name = none)
    (henclosing : frame.enclosing = some j) : s.get i name = s.get j name := by
  rw [get, owner?_outward h hframe hfind henclosing, ← get]

theorem get_global (hframe : s.all[i]? = some frame) (hfind : frame.bindings.find? name = none)
    (henclosing : frame.enclosing = none) : s.get i name = .error (.undefinedVariable name) := by
  rw [get, owner?_global hframe hfind henclosing]
  rfl

/-- a name is found if some frame owns it -/
theorem get_eq_ok_iff (h : s.Ordered) : (∃ value, s.get i name = .ok value) ↔ ∃ k, s.owner? name i = some k := by
  constructor
  · rintro ⟨value, hget⟩
    cases howner : s.owner? name i with
    | none => simp [get, howner] at hget
    | some k => exact ⟨k, rfl⟩
  · rintro ⟨k, howner⟩
    obtain ⟨-, frame, value, hframe, hfind⟩ := (owner?_eq_some_iff h).1 howner
    exact ⟨value, by simp [get, howner, hframe, hfind]⟩

/-! ## Definitions -/

variable {f g : Nat} {x y : String}

theorem get_define_self (hf : f < s.all.size) (x : String) (v : Value) : (s.define f x v).get f x = .ok v := by
  have hframe : (s.define f x v).all[f]? = some (Frame.define x v s.all[f]) := by
    rw [define_getElem?, if_pos rfl, Array.getElem?_eq_getElem hf, Option.map_some]
  refine get_here hframe ?_
  rw [Frame.define, Bindings.find?_insert, if_pos rfl]

/-- a frame that is not defined in stays as it is, and one that is keeps what encloses it and its other names -/
theorem define_frame (hframe : s.all[g]? = some frame) (v : Value) (hother : f = g → y ≠ x) : ∃ frame',
    (s.define f x v).all[g]? = some frame' ∧ frame'.enclosing = frame.enclosing ∧
      frame'.bindings.find? y = frame.bindings.find? y := by
  by_cases hfg : f = g
  · refine ⟨Frame.define x v frame, ?_, rfl, ?_⟩
    · rw [define_getElem?, if_pos hfg, hframe, Option.map_some]
    · rw [Frame.define, Bindings.find?_insert, if_neg (hother hfg)]
  · refine ⟨frame, ?_, rfl, rfl⟩
    rw [define_getElem?, if_neg hfg, hframe]

/-- a definition is seen from where a walk leads to it -/
theorem get_define_of_reaches (h : s.Ordered) (hf : f < s.all.size) (v : Value) (hreaches : s.Reaches x f g) :
    (s.define f x v).get g x = .ok v := by
  induction hreaches with
  | here => exact get_define_self hf x v
  | @outward i j frame hframe hfind henclosing _ ih =>
    by_cases hfi : f = i
    · exact hfi ▸ get_define_self hf x v
    · obtain ⟨frame', hframe', henclosing', hfind'⟩ := define_frame (y := x) hframe v (absurd · hfi)
      rw [get_outward (h.define f x v) hframe' (hfind'.trans hfind) (henclosing'.trans henclosing), ih]

/-- and it is not seen from elsewhere, nor for other names -/
theorem get_define_of_not_reaches (h : s.Ordered) (v : Value) (hno : ¬ (y = x ∧ s.Reaches x f g)) :
    (s.define f x v).get g y = s.get g y := by
  -- the induction follows the walk outward from `g`, which never comes to `f` for the name `x`
  induction g using Nat.strong_induction_on with
  | _ g ih =>
    cases hframe : s.all[g]? with
    | none =>
      have hframe' : (s.define f x v).all[g]? = none := by
        rw [define_getElem?, hframe]
        simp
      rw [get_absent hframe, get_absent hframe']
    | some frame =>
      have hother : f = g → y ≠ x := by
        rintro rfl rfl
        exact hno ⟨rfl, .here⟩
      obtain ⟨frame', hframe', henclosing', hfind'⟩ := define_frame hframe v hother
      cases hfind : frame.bindings.find? y with
      | some value => rw [get_here hframe hfind, get_here hframe' (hfind'.trans hfind)]
      | none =>
        cases henclosing : frame.enclosing with
        | none =>
          rw [get_global hframe hfind henclosing,
            get_global hframe' (hfind'.trans hfind) (henclosing'.trans henclosing)]
        | some j =>
          have hno' : ¬ (y = x ∧ s.Reaches x f j) := by
            rintro ⟨rfl, hreaches⟩
            exact hno ⟨rfl, .outward hframe hfind henclosing hreaches⟩
          rw [get_outward h hframe hfind henclosing,
            get_outward (h.define f x v) hframe' (hfind'.trans hfind) (henclosing'.trans henclosing)]
          exact ih j (h g frame hframe j henclosing) hno'

/-- what is seen of a definition -/
theorem get_define (h : s.Ordered) (hf : f < s.all.size) (x y : String) (v : Value) (g : Nat) :
    (y = x ∧ s.Reaches x f g → (s.define f x v).get g y = .ok v) ∧
    (¬ (y = x ∧ s.Reaches x f g) → (s.define f x v).get g y = s.get g y) := by
  refine ⟨?_, get_define_of_not_reaches h v⟩
  rintro ⟨rfl, hreaches⟩
  exact get_define_of_reaches h hf v hreaches

/-! ## Assignments -/

/-- a name can be assigned if some frame owns it -/
theorem assign_eq_ok_iff {v : Value} : (∃ t, s.assign f x v = .ok t) ↔ ∃ k, s.owner? x f = some k := by
  cases howner : s.owner? x f <;> simp [assign, howner]

theorem unowned_of_assign_error {e : EvalError} {v : Value} (he : s.assign f x v = .error e) :
    s.owner? x f = none ∧ e = .undefinedVariable x := by
  unfold assign at he
  split at he
  · cases he
  · rename_i howner
    cases he
    exact ⟨howner, rfl⟩

/-- an assignment is a definition in the frame where the lookup ends -/
theorem eq_define_of_assign {t : Frames} {v : Value} (h : s.Ordered) (ht : s.assign f x v = .ok t) :
    ∃ k, s.Owns x f k ∧ t = s.define k x v := by
  unfold assign at ht
  split at ht
  · rename_i k howner
    cases ht
    exact ⟨k, (owner?_eq_some_iff h).1 howner, rfl⟩
  · cases ht

theorem Owns.unique (h : s.Ordered) {k k' : Nat} (hk : s.Owns x f k) (hk' : s.Owns x f k') : k = k' := by
  have howner := (owner?_eq_some_iff h).2 hk
  rw [(owner?_eq_some_iff h).2 hk'] at howner
  exact (Option.some.inj howner).symm

/-- lookups end in the same frame if a walk from the one comes to where the other ends -/
theorem Owns.shared_iff (h : s.Ordered) {k : Nat} (hk : s.Owns x f k) :
    (∃ k', s.Owns x f k' ∧ s.Owns x g k') ↔ s.Reaches x k g := by
  constructor
  · rintro ⟨k', hf, hg⟩
    rw [hk.unique h hf]
    exact hg.reached
  · intro hreaches
    exact ⟨k, hk, hreaches, hk.bound⟩

/-- what is seen of an assignment -/
theorem get_assign (h : s.Ordered) {t : Frames} {v : Value} (ht : s.assign f x v = .ok t) (g : Nat) (y : String) :
    (y = x ∧ (∃ k, s.Owns x f k ∧ s.Owns x g k) → t.get g y = .ok v) ∧
    (¬ (y = x ∧ ∃ k, s.Owns x f k ∧ s.Owns x g k) → t.get g y = s.get g y) := by
  obtain ⟨k, hk, rfl⟩ := eq_define_of_assign h ht
  obtain ⟨frame, value, hframe, -⟩ := hk.bound
  rw [hk.shared_iff h]
  exact get_define h (Array.getElem?_eq_some_iff.1 hframe).1 x y v g

/-- **Updates are local.** In any frames that were built, assigning from frame `f` succeeds where reading does, and
where it fails all is as before. Otherwise, seen from any frame `g`, the name has the new value if its lookup from `g`
ended where the one from `f` did, and no other name and no other frame sees a change. A definition in `f` is seen from
`g` if a walk outward from `g` comes to `f` before it meets the name, and is not seen otherwise. -/
theorem updates_local (hs : s.Built) (hf : f < s.all.size) (x : String) (v : Value) :
    ((∃ t, s.assign f x v = .ok t) ↔ ∃ value, s.get f x = .ok value) ∧
    (∀ e, s.assign f x v = .error e → Evaluation.assign x v ⟨s, f⟩ = .error e ⟨s, f⟩) ∧
    (∀ t, s.assign f x v = .ok t → ∀ g y,
      (y = x ∧ (∃ k, s.Owns x f k ∧ s.Owns x g k) → t.get g y = .ok v) ∧
      (¬ (y = x ∧ ∃ k, s.Owns x f k ∧ s.Owns x g k) → t.get g y = s.get g y)) ∧
    ∀ g y,
      (y = x ∧ s.Reaches x f g → (s.define f x v).get g y = .ok v) ∧
      (¬ (y = x ∧ s.Reaches x f g) → (s.define f x v).get g y = s.get g y) := by
  have h := hs.ordered
  refine ⟨?_, ?_, fun t ht g y => get_assign h ht g y, fun g y => get_define h hf x y v g⟩
  · rw [assign_eq_ok_iff, get_eq_ok_iff h]
  · intro e he
    obtain ⟨howner, rfl⟩ := unowned_of_assign_error he
    exact Evaluation.assign_of_unowned (s := ⟨s, f⟩) howner v

/-- a global frame that binds a name, a frame inside it, and a copy of that one -/
def copiedFrames : Frames := (((⟨#[]⟩ : Frames).unrelated.define 0 "a" .nil).child 0).copy 1

theorem updates_local_copied : copiedFrames.Built ∧ 1 < copiedFrames.all.size ∧
    ∃ t, copiedFrames.assign 1 "a" (.bool true) = .ok t ∧ t.get 2 "a" = .ok (.bool true) := by
  have hbuilt : copiedFrames.Built :=
    .copy (.child (.define (.unrelated .nothing) (by decide) "a" .nil) (by decide)) (by decide)
  have hsize : 1 < copiedFrames.all.size := by decide
  have hinner : copiedFrames.all[1]? = some (.opened (some 0)) := rfl
  have hcopy : copiedFrames.all[2]? = some (.opened (some 0)) := rfl
  have hget : copiedFrames.get 1 "a" = .ok .nil := (get_outward hbuilt.ordered hinner rfl rfl).trans (get_here rfl rfl)
  obtain ⟨hassign, -, hseen, -⟩ := updates_local hbuilt hsize "a" (.bool true)
  obtain ⟨t, ht⟩ := hassign.2 ⟨.nil, hget⟩
  -- both lookups end in the global frame
  have hglobal : ∃ frame value, copiedFrames.all[0]? = some frame ∧ frame.bindings.find? "a" = some value :=
    ⟨_, _, rfl, rfl⟩
  have hshared : ∃ k, copiedFrames.Owns "a" 1 k ∧ copiedFrames.Owns "a" 2 k :=
    ⟨0, ⟨.outward hinner rfl rfl .here, hglobal⟩, .outward hcopy rfl rfl .here, hglobal⟩
  exact ⟨hbuilt, hsize, t, ht, (hseen t ht 2 "a").1 ⟨rfl, hshared⟩⟩

end Frames

end Scriptlet
