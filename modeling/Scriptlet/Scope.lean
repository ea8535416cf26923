/-
Scopes. Bindings are names and their values, each name at most once, in the order in which they were first bound. A
frame holds bindings and, unless it is global, the number of the frame it was opened in; frames are numbered in the
order of their creation and share what encloses them. A name is looked up by walking outward from a frame, and the first
frame on the way that binds it is its owner.
-/
import Scriptlet.Value

namespace Scriptlet

/-! ## Bindings -/

structure Bindings where
  entries : List (String × Value)
  deriving DecidableEq

namespace Bindings

def empty : Bindings := ⟨[]⟩

def find? (b : Bindings) (name : String) : Option Value := b.entries.lookup name

def binds (b : Bindings) (name : String) : Bool := (b.find? name).isSome

/-- entries in which the name has the given value, in its old place if it had one -/
def put (name : String) (value : Value) : List (String × Value) → List (String × Value)
  | [] => [(name, value)]
  | (n, v) :: rest => if name = n then (name, value) :: rest else (n, v) :: put name value rest

/-- binds a name, replacing the value it had -/
def insert (b : Bindings) (name : String) (value : Value) : Bindings := ⟨put name value b.entries⟩

theorem lookup_put (name other : String) (value : Value) (entries : List (String × Value)) :
    (put name value entries).lookup other = if other = name then some value else entries.lookup other := by
  induction entries with
  | nil =>
    by_cases h : other = name
    · simp [put, h]
    · simp [put, List.lookup_cons, h, beq_false_of_ne h]
  | cons entry rest ih =>
    obtain ⟨n, v⟩ := entry
    unfold put
    split
    · rename_i same
      subst same
      by_cases h : other = name
      · simp [h]
      · simp [List.lookup_cons, h, beq_false_of_ne h]
    · rename_i differs
      by_cases h : other = n
      · subst h
        simp [Ne.symm differs]
      · simp [List.lookup_cons, beq_false_of_ne h, ih]

/-- An insertion changes the value of its name and of no other. -/
theorem find?_insert (b : Bindings) (name other : String) (value : Value) :
    (b.insert name value).find? other = if other = name then some value else b.find? other :=
  lookup_put name other value b.entries

end Bindings

/-! ## Frames -/

structure Frame where
  bindings : Bindings
  enclosing : Option Nat
  deriving DecidableEq

def Frame.opened (enclosing : Option Nat) : Frame := ⟨.empty, enclosing⟩

def Frame.define (name : String) (value : Value) (frame : Frame) : Frame :=
  { frame with bindings := frame.bindings.insert name value }

/-- all frames, by number -/
structure Frames where
  all : Array Frame
  deriving DecidableEq

namespace Frames

/-- one global frame, number zero -/
def initial : Frames := ⟨#[.opened none]⟩

/-- adds a frame; it gets the next number -/
def add (s : Frames) (frame : Frame) : Frames := ⟨s.all.push frame⟩

def child (s : Frames) (i : Nat) : Frames := s.add (.opened (some i))

/-- copies frame `i`: its own bindings are copied, what encloses it is shared -/
def copy (s : Frames) (i : Nat) : Frames := s.add (s.all[i]?.getD (.opened none))

def unrelated (s : Frames) : Frames := s.add (.opened none)

def isGlobal (s : Frames) (i : Nat) : Bool := (s.all[i]?.bind Frame.enclosing).isNone

/-- the frame that owns a name as seen from frame `i` -/
def owner? (s : Frames) (name : String) (i : Nat) : Option Nat :=
  match s.all[i]? with
  | none => none
  | some frame =>
    if frame.bindings.binds name then some i
    else
      match frame.enclosing with
      | none => none
      | some j => if j < i then owner? s name j else none
termination_by i

def get (s : Frames) (i : Nat) (name : String) : Except EvalError Value :=
  match (s.owner? name i).bind fun j => s.all[j]?.bind fun frame => frame.bindings.find? name with
  | some value => .ok value
  | none => .error (.undefinedVariable name)

/-- binds a name in frame `i` itself -/
def define (s : Frames) (i : Nat) (name : String) (value : Value) : Frames :=
  ⟨s.all.modify i (Frame.define name value)⟩

/-- changes the value of a name where it is bound, as seen from frame `i` -/
def assign (s : Frames) (i : Nat) (name : String) (value : Value) : Except EvalError Frames :=
  match s.owner? name i with
  | some j => .ok (s.define j name value)
  | none => .error (.undefinedVariable name)

end Frames

structure Scope where
  frames : Frames
  current : Nat
  deriving DecidableEq

namespace Scope

def initial : Scope := ⟨.initial, 0⟩

/-- moves into a new frame inside the current one -/
def enter (s : Scope) : Scope := ⟨s.frames.child s.current, s.frames.all.size⟩

def moveTo (s : Scope) (i : Nat) : Scope := { s with current := i }

def define (s : Scope) (name : String) (value : Value) : Scope :=
  { s with frames := s.frames.define s.current name value }

end Scope

end Scriptlet
