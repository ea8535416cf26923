/-
Strings from the source to the output. A source that prints strings, added one to the other, is followed through all
stages: it is cut into its strings and signs, whatever bytes stand between the quotes; the sum is read from the left,
however long it is; and what is written is what the strings stand for, one behind the other. A string stands for the
text that its bytes are decoded to, so well-formed bytes come out as they went in.

- `division_sumTail`: the segments of the source.
- `Expr.evaluate_plusAll`: the value of a sum of strings.
- `Session.run_printText`: the whole way.
-/
import Scriptlet.Proofs.Pieces
import Scriptlet.Proofs.Respacing

namespace Scriptlet

open Segment

/-! ## The source and its segments -/

def inQuotes (content : Bytes) : Bytes := byte '"' :: (content ++ [byte '"'])

/-- a source that prints the sum of strings -/
def printText (contents : List Bytes) : Bytes :=
  Utf8.encode "print " ++ (Utf8.encode " + ").intercalate (contents.map inQuotes) ++ Utf8.encode ";"

/-- what stands behind the first string -/
def sumTail : List Bytes → Bytes
  | [] => [byte ';']
  | w :: later => byte ' ' :: byte '+' :: byte ' ' :: (inQuotes w ++ sumTail later)

/-- the segments behind the first string -/
def sumCuts : List Bytes → List (Bytes × Piece)
  | [] => [([byte ';'], .token .semicolon)]
  | w :: later => ([byte ' '], .blank) :: ([byte '+'], .token .plus) :: ([byte ' '], .blank) ::
      (inQuotes w, .token (.string (Utf8.decode w))) :: sumCuts later

theorem printText_cons (w : Bytes) (later : List Bytes) :
    printText (w :: later) = Utf8.encode "print" ++ byte ' ' :: (inQuotes w ++ sumTail later) := by
  have htail : (Utf8.encode " + ").intercalate ((w :: later).map inQuotes) ++ Utf8.encode ";" =
      inQuotes w ++ sumTail later := by
    induction later generalizing w with
    | nil => simp [sumTail]; rfl
    | cons v later ih =>
      rw [List.map_cons, List.map_cons, List.intercalate_cons_cons, List.append_assoc, List.append_assoc,
        ← List.map_cons, ih v]
      rfl
  rw [printText, List.append_assoc, htail]
  rfl

theorem division_inQuotes {w more : Bytes} {later : List (Bytes × Piece)} (hw : ∀ b ∈ w, b ≠ byte '"')
    (h : Division more later) :
    Division (inQuotes w ++ more) ((inQuotes w, .token (.string (Utf8.decode w))) :: later) := by
  rw [inQuotes, List.cons_append, List.append_assoc, division_cons_iff, cut_quote, List.singleton_append,
    quoted_closed hw]
  exact ⟨later, rfl, h⟩

theorem division_sumTail {contents : List Bytes} (h : ∀ w ∈ contents, ∀ b ∈ w, b ≠ byte '"') :
    Division (sumTail contents) (sumCuts contents) := by
  induction contents with
  | nil => exact division_cons_iff.2 ⟨[], rfl, .nil⟩
  | cons w later ih =>
    obtain ⟨hw, hlater⟩ := List.forall_mem_cons.1 h
    have hrest := division_inQuotes hw (ih hlater)
    exact division_cons_iff.2 ⟨_, rfl, division_cons_iff.2 ⟨_, rfl, division_cons_iff.2 ⟨_, rfl, hrest⟩⟩⟩

def printCuts (w : Bytes) (later : List Bytes) : List (Bytes × Piece) :=
  (Utf8.encode "print", .token .kwPrint) :: ([byte ' '], .blank) :: (inQuotes w, .token (.string (Utf8.decode w))) ::
    sumCuts later

theorem division_printText {w : Bytes} {later : List Bytes} (h : ∀ v ∈ w :: later, ∀ b ∈ v, b ≠ byte '"') :
    Division (printText (w :: later)) (printCuts w later) := by
  obtain ⟨hw, hlater⟩ := List.forall_mem_cons.1 h
  have hprint : Lexeme (Utf8.encode "print") (.token .kwPrint) := .keyword (by decide)
  rw [printText_cons]
  refine Division.token (division_cons_iff.2 ⟨_, rfl, division_inQuotes hw (division_sumTail hlater)⟩) hprint ?_
  simp [Parted]

theorem faultless_sumCuts (contents : List Bytes) : Faultless (sumCuts contents) := by
  induction contents with
  | nil => exact faultless_cons.2 ⟨nofun, nofun⟩
  | cons w later ih => simp only [sumCuts, faultless_cons]; exact ⟨nofun, nofun, nofun, nofun, ih⟩

/-! ## The sum -/

namespace Expr

/-- strings added to an expression from the right, each with its sign -/
def plusAll (left : Expr) : List (Token × String) → Expr
  | [] => left
  | (operator, text) :: later => plusAll (.binary left operator (.literal (.string text))) later

variable {left : Expr} {parts : List (Token × String)}

theorem spelling_plusAll (left : Expr) (parts : List (Token × String)) : (plusAll left parts).spelling =
    left.spelling ++ parts.flatMap fun part => [.kept part.1, .any (.string part.2)] := by
  induction parts generalizing left with
  | nil => simp [plusAll]
  | cons part later ih => simp [plusAll, ih, spelling, Value.mark]

theorem fits_plusAll (hleft : left.fits 2 = true) (h : ∀ part ∈ parts, part.1.kind = .plus) :
    (plusAll left parts).fits 2 = true := by
  induction parts generalizing left with
  | nil => exact hleft
  | cons part later ih =>
    obtain ⟨hpart, hlater⟩ := List.forall_mem_cons.1 h
    refine ih (fits_binary.2 ⟨1, ?_, by decide, hleft, rfl⟩) hlater
    rw [hpart]
    rfl

theorem nesting_plusAll (left : Expr) (parts : List (Token × String)) :
    (plusAll left parts).nesting = left.nesting := by
  induction parts generalizing left with
  | nil => rfl
  | cons part later ih => rw [plusAll, ih, nesting, nesting, Nat.max_zero]

/-- strings are put one behind the other, from the left, and nothing else happens -/
theorem evaluate_plusAll {text : String} {s : Scope} (hleft : left.evaluate s = .ok (.string text) s)
    (h : ∀ part ∈ parts, part.1.kind = .plus) : (plusAll left parts).evaluate s =
      .ok (.string ((parts.map Prod.snd).foldl (· ++ ·) text)) s := by
  induction parts generalizing left text with
  | nil => exact hleft
  | cons part later ih =>
    obtain ⟨hpart, hlater⟩ := List.forall_mem_cons.1 h
    have hsum : (Expr.binary left part.1 (.literal (.string part.2))).evaluate s =
        .ok (.string (text ++ part.2)) s := by
      simp [hleft, applyBinary, hpart, Value.plus, Evaluation.answer]
    exact ih hsum hlater

end Expr

/-- the tokens behind the first string are signs with their strings, and a semicolon -/
theorem spells_sumCuts (contents : List Bytes) (line : Nat) : ∃ parts : List (Token × String),
    parts.map Prod.snd = contents.map Utf8.decode ∧ (∀ part ∈ parts, part.1.kind = .plus) ∧
    Spells ((parts.flatMap fun part => [.kept part.1, .any (.string part.2)]) ++ [.any .semicolon])
      (tokensFrom line (sumCuts contents)) := by
  induction contents generalizing line with
  | nil => exact ⟨[], rfl, nofun, .cons rfl .nil⟩
  | cons w later ih =>
    obtain ⟨parts, htexts, hplus, hspells⟩ := ih (line + Bytes.lineFeeds (inQuotes w))
    refine ⟨(⟨.plus, Utf8.decode [byte '+'], line⟩, Utf8.decode w) :: parts, ?_, ?_, ?_⟩
    · rw [List.map_cons, List.map_cons, htexts]
    · exact List.forall_mem_cons.2 ⟨rfl, hplus⟩
    · exact .cons rfl (.cons rfl hspells)

/-- the source is accepted as a statement that prints a sum -/
theorem compile_printText {w : Bytes} {later : List Bytes} (h : ∀ v ∈ w :: later, ∀ b ∈ v, b ≠ byte '"') :
    ∃ parts : List (Token × String), parts.map Prod.snd = later.map Utf8.decode ∧
      (∀ part ∈ parts, part.1.kind = .plus) ∧
      compile (printText (w :: later)) = .ok [.print (.plusAll (.literal (.string (Utf8.decode w))) parts)] := by
  obtain ⟨parts, htexts, hplus, hspells⟩ := spells_sumCuts later (1 + Bytes.lineFeeds (inQuotes w))
  have hfaultless : Faultless (printCuts w later) := by
    simp only [printCuts, faultless_cons]
    exact ⟨nofun, nofun, nofun, faultless_sumCuts later⟩
  refine ⟨parts, htexts, hplus, (compile_eq_ok_iff (division_printText h)).2 ⟨hfaultless, ?_, ?_, ?_⟩⟩
  · have hfits : (Expr.plusAll (.literal (.string (Utf8.decode w))) parts).fits 2 = true := Expr.fits_plusAll rfl hplus
    exact Stmt.canonicalAll_iff.2 (List.forall_mem_singleton.2 (Expr.fits_mono hfits (by decide)))
  · simp [Stmt.nestingAll, Stmt.nesting, Expr.nesting_plusAll, Expr.nesting, maxNesting]
  · simp only [Stmt.spellingAll, Stmt.spelling, Expr.spelling_plusAll, Expr.spelling, Value.mark, List.append_nil,
      List.singleton_append]
    exact .cons rfl (.cons rfl hspells)

/-! ## The output -/

theorem Utf8.encode_foldl (text : String) (texts : List String) :
    encode (texts.foldl (· ++ ·) text) = encode text ++ texts.flatMap encode := by
  induction texts generalizing text with
  | nil => simp
  | cons first later ih => rw [List.foldl_cons, ih, encode_append, List.flatMap_cons, List.append_assoc]

/-- **Strings are printed as they are.** Bytes without a quote, put in quotes and printed with plus signs between them,
come out one behind the other, whatever they are and however many: the source runs to its end, no binding changes, and
what is written is the encoding of what each of them is decoded to, with a line feed at the end. Bytes that encode a
text come out unchanged. -/
theorem Session.run_printText (contents : List Bytes) (hsome : contents ≠ [])
    (h : ∀ w ∈ contents, byte '"' ∉ w) (s : Session) (hsink : s.sink.limit = none) :
    run (.ofBytes (printText contents)) s = .ok .completed
      { s with
        sink := ⟨s.sink.kept ++ (contents.flatMap (fun w => Utf8.encode (Utf8.decode w)) ++ [byte '\n']), none⟩ } ∧
    ∀ w ∈ contents, (∃ text, w = Utf8.encode text) → Utf8.encode (Utf8.decode w) = w := by
  have hencoded : ∀ w ∈ contents, (∃ text, w = Utf8.encode text) → Utf8.encode (Utf8.decode w) = w := by
    rintro w - ⟨text, rfl⟩
    rw [Utf8.decode_encode]
  refine ⟨?_, hencoded⟩
  cases contents with
  | nil => contradiction
  | cons w later =>
    have hquotes : ∀ v ∈ w :: later, ∀ b ∈ v, b ≠ byte '"' := fun v hv b hb hq => h v hv (hq ▸ hb)
    obtain ⟨parts, htexts, hplus, hcompile⟩ := compile_printText hquotes
    have hvalue : (Expr.plusAll (.literal (.string (Utf8.decode w))) parts).evaluate s.scope =
        .ok (.string ((parts.map Prod.snd).foldl (· ++ ·) (Utf8.decode w))) s.scope := Expr.evaluate_plusAll rfl hplus
    rw [htexts] at hvalue
    have hprint : (Stmt.print (.plusAll (.literal (.string (Utf8.decode w))) parts)).execute s = .ok ()
        { s with
          sink := ⟨s.sink.kept ++
            Utf8.encode ((later.map Utf8.decode).foldl (· ++ ·) (Utf8.decode w) ++ "\n"), none⟩ } := by
      simp [hvalue, Value.render, Execution.writeLine, writeLine_of_unlimited hsink]
    have hbytes : Utf8.encode ((later.map Utf8.decode).foldl (· ++ ·) (Utf8.decode w) ++ "\n") =
        (w :: later).flatMap (fun v => Utf8.encode (Utf8.decode v)) ++ [byte '\n'] := by
      rw [Utf8.encode_append, Utf8.encode_foldl, List.flatMap_map, List.flatMap_cons]
      rfl
    rw [run_of_compile hcompile, ← hbytes]
    exact perform_of_completed (by simp only [Stmt.executeAll_cons, EStateM.bind_apply, hprint, Stmt.executeAll_nil,
      EStateM.pure_apply])

/-- a string over two lines that holds what would be a comment elsewhere, the empty string, and a byte that no encoding
has -/
def oddStrings : List Bytes := [Utf8.encode "é\n// ;", [], [255]]

theorem Session.run_printText_oddStrings :
    oddStrings ≠ [] ∧ (∀ w ∈ oddStrings, byte '"' ∉ w) ∧
    run (.ofBytes (printText oddStrings)) (.ofLimit none) = .ok .completed
      { ofLimit none with sink := ⟨Utf8.encode "é\n// ;\uFFFD\n", none⟩ } := by
  have hquotes : ∀ w ∈ oddStrings, byte '"' ∉ w := by decide +kernel
  obtain ⟨hrun, -⟩ := Session.run_printText oddStrings (by decide) hquotes (.ofLimit none) rfl
  have hout : oddStrings.flatMap (fun w => Utf8.encode (Utf8.decode w)) ++ [byte '\n'] =
      Utf8.encode "é\n// ;\uFFFD\n" := by
    decide +kernel
  rw [hout] at hrun
  exact ⟨by decide, hquotes, hrun⟩

end Scriptlet
