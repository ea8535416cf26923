/-
Reading and writing are inverse to each other. Writing a tree back (`Stmt.spelling`) and reading a token list
(`Parsing.ofTokens`) are two separate descriptions of the language; here they are compared on all token lists and on all
canonical programs.

- `Parsing.spells_of_silent`: what is read without a complaint, written back, is the text: nothing is lost or invented.
- `Parsing.ofTokens_canonical`: what is written is read back, exactly up to the nesting limit; past the limit too much
  nesting is the first complaint.

The limit is met on the nose by a name in parentheses: a statement adds one level to its expression, so 127 parentheses
are read and 128 are not (`ofTokens_parenthesized`).
-/
import Scriptlet.Proofs.Completeness
import Scriptlet.Proofs.Soundness

namespace Scriptlet

namespace Parsing

/-! ## Texts up to their end mark -/

theorem body_append_end {tokens : List Token} (h : ∀ t ∈ tokens, t.kind ≠ .eof) {mark : Token}
    (hmark : mark.kind = .eof) (later : List Token) : body (tokens ++ mark :: later) = tokens := by
  rw [body, List.takeWhile_append_of_pos (by simpa using h), List.takeWhile_cons_of_neg (by simp [hmark]),
    List.append_nil]

theorem endLine_append_end {tokens : List Token} (h : ∀ t ∈ tokens, t.kind ≠ .eof) {mark : Token}
    (hmark : mark.kind = .eof) (later : List Token) : endLine (tokens ++ mark :: later) = mark.line := by
  have hnone : tokens.find? (·.kind = .eof) = none := List.find?_eq_none.2 (by simpa using h)
  simp [endLine, List.find?_append, hnone, hmark]

/-- the sequence that a text is read as -/
theorem read_canonical {program : Program} (h : Stmt.canonicalAll program = true) {tokens : List Token}
    (hs : Spells (Stmt.spellingAll program) tokens) {mark : Token} (hmark : mark.kind = .eof) (later : List Token) :
    (sequence outermost.declaration (fun _ => false) (body (tokens ++ mark :: later))).Becomes
      (Stmt.nestingAll program ≤ maxNesting) program [] := by
  rw [body_append_end (no_end_of_spells (Stmt.spellingAll_proper h) hs) hmark]
  exact sequence_spelled h hs

/-- within the limit, a program is read back from its text -/
theorem ofTokens_spelled {program : Program} (h : Stmt.canonicalAll program = true) {tokens : List Token}
    (hs : Spells (Stmt.spellingAll program) tokens) {mark : Token} (hmark : mark.kind = .eof) (later : List Token)
    (hdeep : Stmt.nestingAll program ≤ maxNesting) : ofTokens (tokens ++ mark :: later) = ⟨program, []⟩ := by
  rw [ofTokens, (read_canonical h hs hmark later).well hdeep]
  rfl

/-! ## Reading, then writing -/

/-- **Nothing is lost or invented.** If a token list is read without a complaint, the statements read, written back to
tokens, are exactly the tokens before the first end mark. -/
theorem spells_of_silent (tokens : List Token) (h : (ofTokens tokens).diagnostics = []) :
    Spells (Stmt.spellingAll (ofTokens tokens).program) (body tokens) :=
  (read_of_silent h).spelled

def sampleToken (kind : TokenKind) (lexeme : String) : Token := ⟨kind, lexeme, 1⟩

def sampleName (lexeme : String) : Token := sampleToken .identifier lexeme

/-- `if (a) if (b) a; else b;`, in which the `else` belongs to the second `if` -/
def danglingElse : Program :=
  [.branch (.var (sampleName "a"))
    (.branch (.var (sampleName "b")) (.expression (.var (sampleName "a"))) (.expression (.var (sampleName "b")))) .skip]

def danglingElseText : List Token :=
  [sampleToken .kwIf "if", sampleToken .leftParen "(", sampleName "a", sampleToken .rightParen ")",
   sampleToken .kwIf "if", sampleToken .leftParen "(", sampleName "b", sampleToken .rightParen ")",
   sampleName "a", sampleToken .semicolon ";", sampleToken .kwElse "else", sampleName "b", sampleToken .semicolon ";"]

theorem spells_danglingElse : Spells (Stmt.spellingAll danglingElse) danglingElseText := by
  repeat' first | exact .nil | refine .cons rfl ?_

theorem spells_of_silent_danglingElse :
    (ofTokens (danglingElseText ++ [.atEnd 1])).diagnostics = [] ∧
      Spells (Stmt.spellingAll (ofTokens (danglingElseText ++ [.atEnd 1])).program)
        (body (danglingElseText ++ [.atEnd 1])) := by
  have hread : ofTokens (danglingElseText ++ [.atEnd 1]) = ⟨danglingElse, []⟩ :=
    ofTokens_spelled (by decide) spells_danglingElse rfl [] (by decide)
  have hsilent : (ofTokens (danglingElseText ++ [.atEnd 1])).diagnostics = [] := congrArg Parsing.diagnostics hread
  exact ⟨hsilent, spells_of_silent _ hsilent⟩

/-! ## Writing, then reading -/

/-- **Written programs are read back, exactly up to the limit.** Any token list that spells a canonical program,
followed by an end mark, is read as that program without a complaint if no statement nests deeper than the limit; and if
one does, there are complaints and the first of them is too much nesting. -/
theorem ofTokens_canonical (program : Program) (h : ∀ s ∈ program, s.canonical = true) (tokens : List Token)
    (hs : Spells (Stmt.spellingAll program) tokens) (mark : Token) (hmark : mark.kind = .eof) :
    ((∀ s ∈ program, s.nesting ≤ maxNesting) → ofTokens (tokens ++ [mark]) = ⟨program, []⟩) ∧
    ((¬ ∀ s ∈ program, s.nesting ≤ maxNesting) → ∃ line location later,
      (ofTokens (tokens ++ [mark])).diagnostics = .grammatical line location "Too much nesting." :: later) := by
  have hall := Stmt.canonicalAll_iff.2 h
  refine ⟨fun hdeep => ofTokens_spelled hall hs hmark [] (Stmt.nestingAll_le_iff.2 hdeep), fun hdeep => ?_⟩
  obtain ⟨unread, later, hfaults⟩ :=
    (read_canonical hall hs hmark []).deep fun hle => hdeep (Stmt.nestingAll_le_iff.1 hle)
  rw [ofTokens, hfaults]
  exact ⟨_, _, _, rfl⟩

def parenthesized : Nat → Expr
  | 0 => .var (sampleName "a")
  | n + 1 => .grouping (parenthesized n)

theorem nesting_parenthesized (n : Nat) : (parenthesized n).nesting = n := by
  induction n with
  | zero => rfl
  | succ n ih => rw [parenthesized, Expr.nesting, ih]

theorem canonical_parenthesized (n : Nat) : (Stmt.expression (parenthesized n)).canonical = true := by
  induction n with
  | zero => rfl
  | succ n ih => exact ih

def text (program : Program) : List Token := (Stmt.spellingAll program).map Mark.token

theorem ofTokens_parenthesized :
    ofTokens (text [.expression (parenthesized 127)] ++ [.atEnd 1]) = ⟨[.expression (parenthesized 127)], []⟩ ∧
    ∃ line location later, (ofTokens (text [.expression (parenthesized 128)] ++ [.atEnd 1])).diagnostics =
      .grammatical line location "Too much nesting." :: later := by
  have hcanonical : ∀ n, ∀ s ∈ [Stmt.expression (parenthesized n)], s.canonical = true :=
    fun n => List.forall_mem_singleton.2 (canonical_parenthesized n)
  have hspells :
    ∀ n, Spells (Stmt.spellingAll [.expression (parenthesized n)]) (text [.expression (parenthesized n)]) :=
    fun n => spells_map_token (Stmt.spellingAll_proper (Stmt.canonicalAll_iff.2 (hcanonical n)))
  constructor
  · refine (ofTokens_canonical _ (hcanonical 127) _ (hspells 127) _ rfl).1 ?_
    simp [Stmt.nesting, nesting_parenthesized, maxNesting]
  · refine (ofTokens_canonical _ (hcanonical 128) _ (hspells 128) _ rfl).2 ?_
    simp [Stmt.nesting, nesting_parenthesized, maxNesting]

end Parsing

end Scriptlet
