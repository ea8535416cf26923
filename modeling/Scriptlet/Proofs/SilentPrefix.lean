/-
Texts that begin with a program. A text that is read without a complaint is read in the same way in front of any other
text, however broken, unless that one begins with `else`: its statements come first, and what is read and told of the
other text is what would be if it stood alone. An `else` is the only token that a statement, complete without it, can
still take.

No rule has to be followed for this. A text read without a complaint spells its program (`Parsing.read_of_silent`), and
a statement that is spelled out is read back whatever stands behind it, `else` apart (`DeclaresAt`).

- `DeclaresAt.sequence_append`: statements spelled out in front of any text.
- `Parsing.ofTokens_append_of_silent`: whole texts.
-/
import Scriptlet.Proofs.Containment
import Scriptlet.Proofs.Reading

namespace Scriptlet

open Level

/-- statements that are spelled out are read back first, and then the text behind them is read -/
theorem DeclaresAt.sequence_append {n : Nat} (hn : DeclaresAt n) {program : Program}
    (hcanonical : Stmt.canonicalAll program = true) (hdeep : Stmt.nestingAll program ≤ n) {tokens : List Token}
    (h : Spells (Stmt.spellingAll program) tokens) {rest : List Token} (hrest : NoElse rest) :
    Scriptlet.sequence (withRoom n).declared (fun _ => false) (tokens ++ rest) =
      (Scriptlet.sequence (withRoom n).declared (fun _ => false) rest).preceded program [] := by
  induction program generalizing tokens with
  | nil =>
    cases h
    rfl
  | cons s later ih =>
    simp only [Stmt.canonicalAll, Bool.and_eq_true] at hcanonical
    rw [Stmt.nestingAll, Nat.max_le] at hdeep
    obtain ⟨first, second, rfl, hfirst, hsecond⟩ := Spells.split h
    -- the next statement does not begin with `else` either
    have hbehind : NoElse (second ++ rest) := noElse_append hcanonical.2 hsecond hrest
    have hs := (hn s first (second ++ rest) hcanonical.1 hfirst fun _ => hbehind).well hdeep.1
    obtain ⟨t, behind, rfl, -⟩ := Stmt.first_token hcanonical.1 hfirst
    rw [List.append_assoc, List.cons_append, sequence_next rfl, ← List.cons_append, hs]
    simp [ih hcanonical.2 hdeep.2 hsecond, Sequence.preceded]

namespace Parsing

/-- the first token of a text is the first one of its body, if that has any -/
theorem noElse_body {tokens : List Token} (h : NoElse tokens) : NoElse (body tokens) := by
  cases tokens with
  | nil => exact h
  | cons t rest =>
    by_cases ht : t.kind = .eof
    · simp [body, ht, NoElse]
    · rw [body, List.takeWhile_cons_of_pos (by simpa using ht)]
      exact h

/-- **A program stays what it is in front of any text.** If tokens without an end mark are read without a complaint,
then in front of any text that does not begin with `else` they are read as before; the statements of the text come
behind theirs, and all complaints are those about the text. -/
theorem ofTokens_append_of_silent (tokens : List Token) (hunmarked : ∀ t ∈ tokens, t.kind ≠ .eof)
    (hsilent : (ofTokens tokens).diagnostics = []) (rest : List Token) (hrest : NoElse rest) :
    (ofTokens (tokens ++ rest)).program = (ofTokens tokens).program ++ (ofTokens rest).program ∧
    (ofTokens (tokens ++ rest)).diagnostics = (ofTokens rest).diagnostics := by
  have hread := read_of_silent hsilent
  have hbody : body tokens = tokens := by simpa [body_append hunmarked, body] using body_append hunmarked []
  rw [hbody] at hread
  have hsequence : sequence outermost.declaration (fun _ => false) (body (tokens ++ rest)) =
      (sequence outermost.declaration (fun _ => false) (body rest)).preceded (ofTokens tokens).program [] := by
    rw [body_append hunmarked]
    exact (declaresAt_of_commandsAt (commandsAt maxNesting)).sequence_append hread.canonical
      (Nat.le_of_lt_succ hread.nesting) hread.spelled (noElse_body hrest)
  constructor
  · exact congrArg Sequence.statements hsequence
  · calc (ofTokens (tokens ++ rest)).diagnostics
      _ = (faults rest).map (Fault.diagnostic (endLine (tokens ++ rest))) := by
        rw [diagnostics_eq, faults, hsequence, Sequence.preceded, List.nil_append, faults]
      _ = (ofTokens rest).diagnostics := told_append hunmarked rest

/-- `if (a) if (b) a; else b;`, in front of a text that goes on with an operator and closes a brace that was never
opened -/
theorem ofTokens_append_of_silent_danglingElse :
    let rest := [sampleToken .plus "+", sampleToken .rightBrace "\x7d", sampleToken .kwElse "else", .atEnd 2, .atEnd 3]
    (ofTokens danglingElseText).diagnostics = [] ∧ NoElse rest ∧ (ofTokens rest).diagnostics ≠ [] ∧
    (ofTokens (danglingElseText ++ rest)).program = (ofTokens danglingElseText).program ++ (ofTokens rest).program ∧
    (ofTokens (danglingElseText ++ rest)).diagnostics = (ofTokens rest).diagnostics := by
  intro rest
  have hsilent : (ofTokens danglingElseText).diagnostics = [] := by decide +kernel
  have hrest : NoElse rest := by simp [NoElse, rest, sampleToken]
  exact ⟨hsilent, hrest, by decide +kernel, ofTokens_append_of_silent _ (by decide) hsilent rest hrest⟩

end Parsing

end Scriptlet
