/-
Reading up to the first fault. An invalid target is told and passed over: the text is read on as if nothing had been
wrong with it. Every other fault stops the statement in which it is found, and only the sequence around that statement
goes on. What comes before the first such fault is an ordinary reading, without any recovery, and `Outcome.strict` is
that reading: it ends in the first fault that stops a statement, even if a sequence has recovered from it.

Strict readings compose as readings do (`Outcome.strict_andThen`), and a sequence read strictly is its statements read
strictly one after the other (`sequence_strict_cons`).

- `Sequence.find?_faults`: the first fault that stops a statement is where a sequence, read strictly, ends.
-/
import Scriptlet.Proofs.SourceOrder

namespace Scriptlet

variable {α β : Type}

/-- does the fault stop the statement in which it is found -/
def Fault.stops (fault : Fault) : Bool := fault.cause ≠ .invalidTarget

/-- none of the faults stops a statement -/
def PassedOver (faults : List Fault) : Prop := ∀ fault ∈ faults, fault.stops = false

/-- either all faults are passed over, or there is a first one that is not -/
theorem passedOver_or_split (faults : List Fault) :
    PassedOver faults ∨ ∃ earlier fault later,
      faults = earlier ++ fault :: later ∧ PassedOver earlier ∧ fault.stops = true := by
  induction faults with
  | nil => exact .inl nofun
  | cons first faults ih =>
    by_cases hfirst : first.stops = true
    · exact .inr ⟨[], first, faults, rfl, nofun, hfirst⟩
    · have hfirst : first.stops = false := by simpa using hfirst
      rcases ih with hall | ⟨earlier, fault, later, rfl, hearlier, hfault⟩
      · exact .inl (List.forall_mem_cons.2 ⟨hfirst, hall⟩)
      · exact .inr ⟨first :: earlier, fault, later, rfl, List.forall_mem_cons.2 ⟨hfirst, hearlier⟩, hfault⟩

/-! ## Outcomes -/

namespace Outcome

/-- the outcome of reading that ends at the first fault that stops a statement -/
def strict (o : Outcome α) : Outcome α :=
  match o.reported.dropWhile fun fault => !fault.stops with
  | [] => o
  | fault :: _ => .failed fault (o.reported.takeWhile fun fault => !fault.stops)

theorem strict_of_passedOver {o : Outcome α} (h : PassedOver o.reported) : o.strict = o := by
  have hnone : (o.reported.dropWhile fun fault => !fault.stops) = [] := by
    rw [List.dropWhile_eq_nil_iff]
    intro fault hfault
    simp [h fault hfault]
  rw [strict, hnone]

theorem strict_of_split {o : Outcome α} {earlier later : List Fault} {fault : Fault}
    (h : o.reported = earlier ++ fault :: later) (hearlier : PassedOver earlier) (hfault : fault.stops = true) :
    o.strict = .failed fault earlier := by
  have hpassed : ∀ f ∈ earlier, (!f.stops) = true := fun f hf => by simp [hearlier f hf]
  rw [strict, h, List.dropWhile_append_of_pos hpassed, List.takeWhile_append_of_pos hpassed]
  simp [hfault]

theorem reported_preceded (earlier : List Fault) (o : Outcome α) :
    (o.preceded earlier).reported = earlier ++ o.reported := by
  cases o <;> rfl

theorem stop_preceded (earlier : List Fault) (o : Outcome α) : (o.preceded earlier).stop = o.stop := by
  cases o <;> rfl

theorem strict_preceded {earlier : List Fault} (h : PassedOver earlier) (o : Outcome α) :
    (o.preceded earlier).strict = o.strict.preceded earlier := by
  rcases passedOver_or_split o.reported with hall | ⟨first, fault, later, hsplit, hfirst, hfault⟩
  · have hwhole : PassedOver (o.preceded earlier).reported := by
      rw [reported_preceded]
      exact List.forall_mem_append.2 ⟨h, hall⟩
    rw [strict_of_passedOver hwhole, strict_of_passedOver hall]
  · have hwhole : (o.preceded earlier).reported = (earlier ++ first) ++ fault :: later := by
      rw [reported_preceded, hsplit, List.append_assoc]
    rw [strict_of_split hwhole (List.forall_mem_append.2 ⟨h, hfirst⟩) hfault, strict_of_split hsplit hfirst hfault]
    rfl

/-- strict readings in turn are the strict reading of both in turn -/
theorem strict_andThen (o : Outcome α) (next : α → List Token → Outcome β) :
    (o.andThen next).strict = o.strict.andThen fun value rest => (next value rest).strict := by
  rcases passedOver_or_split o.reported with hall | ⟨first, fault, later, hsplit, hfirst, hfault⟩
  · rw [strict_of_passedOver hall]
    cases o with
    | done value rest reported => exact strict_preceded hall (next value rest)
    | failed fault reported => exact strict_of_passedOver hall
  · obtain ⟨more, hmore⟩ : ∃ more, (o.andThen next).reported = first ++ fault :: more := by
      cases o with
      | done value rest reported =>
        refine ⟨later ++ (next value rest).reported, ?_⟩
        rw [andThen, reported_preceded, show reported = first ++ fault :: later from hsplit, List.append_assoc]
        rfl
      | failed _ reported => exact ⟨later, hsplit⟩
    rw [strict_of_split hmore hfirst hfault, strict_of_split hsplit hfirst hfault]
    rfl

/-- the faults of a strict reading that ends well are passed over -/
theorem passedOver_of_strict_eq_done {o : Outcome α} {value : α} {rest : List Token} {reported : List Fault}
    (h : o.strict = .done value rest reported) : o = .done value rest reported ∧ PassedOver reported := by
  rcases passedOver_or_split o.reported with hall | ⟨first, fault, later, hsplit, hfirst, hfault⟩
  · rw [strict_of_passedOver hall] at h
    subst h
    exact ⟨rfl, hall⟩
  · rw [strict_of_split hsplit hfirst hfault] at h
    cases h

end Outcome

/-! ## Sequences -/

namespace Sequence

/-- a sequence read strictly -/
def strict (q : Sequence) : Outcome (List Stmt) := (Outcome.done q.statements q.rest q.faults).strict

/-- The first fault that stops a statement is where a sequence, read strictly, ends. -/
theorem find?_faults (q : Sequence) {fault : Fault} :
    q.faults.find? Fault.stops = some fault ↔ ∃ reported, q.strict = .failed fault reported := by
  rcases passedOver_or_split q.faults with hall | ⟨first, other, later, hsplit, hfirst, hother⟩
  · have hnone : q.faults.find? Fault.stops = none := List.find?_eq_none.2 fun f hf => by simp [hall f hf]
    have hdone : q.strict = .done q.statements q.rest q.faults := Outcome.strict_of_passedOver hall
    rw [hnone, hdone]
    constructor
    · nofun
    · rintro ⟨reported, h⟩
      cases h
  · have hfind : q.faults.find? Fault.stops = some other := by
      rw [hsplit, List.find?_append, List.find?_eq_none.2 fun f hf => by simp [hfirst f hf]]
      simp [hother]
    have hfailed : q.strict = .failed other first := Outcome.strict_of_split hsplit hfirst hother
    rw [hfind, hfailed]
    constructor
    · intro h
      cases h
      exact ⟨first, rfl⟩
    · rintro ⟨reported, h⟩
      cases h
      rfl

end Sequence

/-- the rule never fails for a fault that is passed over -/
def Rule.FailsForGood (a : Rule α) : Prop :=
  ∀ tokens fault reported, a.run tokens = .failed fault reported → fault.stops = true

/-- a rule that is read strictly has taken a token too, if it ends well -/
theorem Rule.length_lt_of_strict (a : Rule α) {tokens rest : List Token} {value : α} {reported : List Fault}
    (h : (a.run tokens).strict = .done value rest reported) : rest.length < tokens.length := by
  have hshorter := a.shortens tokens
  rw [(Outcome.passedOver_of_strict_eq_done h).1] at hshorter
  exact hshorter

section Sequences

variable {statement : Rule Stmt} {closes : TokenKind → Bool} {t : Token} {behind rest : List Token}

theorem sequence_strict_closed (h : ∀ t ∈ rest.head?, closes t.kind = true) :
    (sequence statement closes rest).strict = .done [] rest [] := by
  rw [sequence_closed h]
  rfl

/-- a statement, and then the statements behind it -/
theorem sequence_strict_cons (hstops : statement.FailsForGood) (ht : closes t.kind = false) :
    (sequence statement closes (t :: behind)).strict =
      (statement.run (t :: behind)).strict.andThen fun s rest =>
        (sequence statement closes rest).strict.andThen fun later rest => .done (s :: later) rest [] := by
  cases hs : statement.run (t :: behind) with
  | done s rest reported =>
    have hwhole : (sequence statement closes (t :: behind)).strict =
        ((Outcome.done s rest reported).andThen fun s rest =>
          (Outcome.done (sequence statement closes rest).statements (sequence statement closes rest).rest
            (sequence statement closes rest).faults).andThen fun later rest => .done (s :: later) rest []).strict := by
      rw [Sequence.strict, sequence_next ht, hs]
      simp [Outcome.andThen, Outcome.preceded]
    rw [hwhole, Outcome.strict_andThen]
    congr 1
    funext s rest
    exact Outcome.strict_andThen _ _
  | failed fault reported =>
    -- whether an earlier fault or this one is the first, nothing behind it counts
    have hreported : (Outcome.done (sequence statement closes (t :: behind)).statements
        (sequence statement closes (t :: behind)).rest (sequence statement closes (t :: behind)).faults).reported =
        reported ++ fault :: (sequence statement closes (synchronize fault.unread)).faults := by
      rw [sequence_next ht, hs]
      rfl
    have hfault := hstops _ _ _ hs
    rcases passedOver_or_split reported with hall | ⟨first, other, later, rfl, hfirst, hother⟩
    · rw [Outcome.strict_of_passedOver (o := .failed fault reported) hall]
      exact Outcome.strict_of_split hreported hall hfault
    · rw [Outcome.strict_of_split (o := .failed fault (first ++ other :: later)) rfl hfirst hother]
      exact Outcome.strict_of_split (hreported.trans (List.append_assoc _ _ _)) hfirst hother

end Sequences

/-! ## Whole texts -/

namespace Parsing

/-- the faults in a token list, each at the tokens that were unread there -/
def faults (tokens : List Token) : List Fault := (sequence outermost.declaration (fun _ => false) (body tokens)).faults

theorem diagnostics_eq (tokens : List Token) :
    (ofTokens tokens).diagnostics = (faults tokens).map (Fault.diagnostic (endLine tokens)) :=
  rfl

end Parsing

end Scriptlet
