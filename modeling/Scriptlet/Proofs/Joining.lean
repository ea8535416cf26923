/-
Joined sources. Two sources that are both accepted, with a line feed between them, are accepted as one, and the program
is that of the first and then that of the second, which has only moved down.

No segment but an open string goes on over a line feed (`Segment.cut_lineFeed`), so the first source is cut as before
and the second one follows (`Division.joined`); nothing that a token list is read as depends on what follows behind a
statement, as no accepted source begins with `else`. That last fact needs no argument of its own: the tokens of both
sources spell the two programs one after the other, and what is spelled is read back.

- `compile_joined`: the program of two joined sources.
-/
import Scriptlet.Proofs.Layout
import Scriptlet.Proofs.LongestMatch
import Scriptlet.Proofs.Reading

namespace Scriptlet

/-! ## Segments before a line feed -/

theorem takeWhile_lineFeed {p : UInt8 → Bool} (hp : p (byte '\n') = false) (rest more : Bytes) :
    (rest ++ byte '\n' :: more).takeWhile p = rest.takeWhile p := by
  induction rest with
  | nil => simp [hp]
  | cons b rest ih => simp [List.takeWhile_cons, ih]

theorem dropWhile_lineFeed {p : UInt8 → Bool} (hp : p (byte '\n') = false) (rest more : Bytes) :
    (rest ++ byte '\n' :: more).dropWhile p = rest.dropWhile p ++ byte '\n' :: more := by
  induction rest with
  | nil => simp [hp]
  | cons b rest ih =>
    rw [List.cons_append, List.dropWhile_cons, List.dropWhile_cons, ih]
    split_ifs <;> rfl

namespace Segment

/-- the same segment with more behind it -/
def before (s : Segment) (more : Bytes) : Segment := { s with rest := s.rest ++ more }

theorem operator_lineFeed (short long : TokenKind) (b : UInt8) (rest more : Bytes) :
    operator short long b (rest ++ byte '\n' :: more) = (operator short long b rest).before (byte '\n' :: more) := by
  cases rest with
  | nil => rfl
  | cons c rest =>
    simp only [List.cons_append, operator]
    split_ifs <;> rfl

theorem slash_lineFeed (b : UInt8) (rest more : Bytes) :
    slash b (rest ++ byte '\n' :: more) = (slash b rest).before (byte '\n' :: more) := by
  cases rest with
  | nil => rfl
  | cons c rest =>
    simp only [List.cons_append, slash]
    split_ifs
    · rw [takeWhile_lineFeed (by decide), dropWhile_lineFeed (by decide)]
      rfl
    · rfl

theorem quoted_lineFeed {b : UInt8} {rest : Bytes} (h : (quoted b rest).piece ≠ .fault .unterminatedString)
    (more : Bytes) : quoted b (rest ++ byte '\n' :: more) = (quoted b rest).before (byte '\n' :: more) := by
  simp only [quoted] at h ⊢
  cases hrest : rest.dropWhile (· != byte '"') with
  | nil => simp [hrest] at h
  | cons q after =>
    -- the closing quote stands in the first source, so neither run gets to the line feed
    have hlength : (rest.takeWhile (· != byte '"')).length ≠ rest.length := by
      have hwhole := congrArg List.length (List.takeWhile_append_dropWhile (p := (· != byte '"')) (l := rest))
      simp only [hrest, List.length_append, List.length_cons] at hwhole
      omega
    rw [List.takeWhile_append, if_neg hlength, List.dropWhile_append, hrest]
    rfl

theorem number_lineFeed (b : UInt8) (rest more : Bytes) :
    number b (rest ++ byte '\n' :: more) = (number b rest).before (byte '\n' :: more) := by
  have htake := takeWhile_lineFeed (p := Bytes.isDigit) (by decide) rest more
  have hdrop := dropWhile_lineFeed (p := Bytes.isDigit) (by decide) rest more
  simp only [number, htake, hdrop]
  cases hrest : rest.dropWhile Bytes.isDigit with
  | nil => rfl
  | cons c after =>
    simp only [List.cons_append]
    split_ifs
    · rw [takeWhile_lineFeed (by decide), dropWhile_lineFeed (by decide)]
      rfl
    · rfl

/-- Nothing but an open string goes on over a line feed. -/
theorem cut_lineFeed {b : UInt8} {rest : Bytes} (h : (cut b rest).piece ≠ .fault .unterminatedString) (more : Bytes) :
    cut b (rest ++ byte '\n' :: more) = (cut b rest).before (byte '\n' :: more) := by
  unfold cut at h ⊢
  split at h
  · rfl
  · exact operator_lineFeed _ _ _ _ _
  · split_ifs at h ⊢
    · rfl
    · exact slash_lineFeed _ _ _
    · exact quoted_lineFeed h more
    · exact number_lineFeed _ _ _
    · rw [spanning, takeWhile_lineFeed (by decide), dropWhile_lineFeed (by decide)]
      rfl
    · rfl

end Segment

/-! ## Divisions of joined sources -/

def Faultless (cuts : List (Bytes × Piece)) : Prop := ∀ text cause, (text, Piece.fault cause) ∉ cuts

theorem faultless_cons {text : Bytes} {piece : Piece} {later : List (Bytes × Piece)} :
    Faultless ((text, piece) :: later) ↔ (∀ cause, piece ≠ .fault cause) ∧ Faultless later := by
  simp only [Faultless, List.mem_cons, Prod.mk.injEq, not_or, not_and]
  constructor
  · intro h
    exact ⟨fun cause hpiece => (h text cause).1 rfl hpiece.symm, fun other cause => (h other cause).2⟩
  · rintro ⟨hpiece, hlater⟩ other cause
    exact ⟨fun _ hcause => hpiece cause hcause.symm, hlater other cause⟩

theorem faultless_append {first second : List (Bytes × Piece)} :
    Faultless (first ++ second) ↔ Faultless first ∧ Faultless second := by
  simp only [Faultless, List.mem_append, not_or]
  constructor
  · intro h
    exact ⟨fun text cause => (h text cause).1, fun text cause => (h text cause).2⟩
  · intro h text cause
    exact ⟨h.1 text cause, h.2 text cause⟩

/-- a line feed ends every segment but an open string, and is a blank one itself -/
theorem Division.joined {source more : Bytes} {cuts later : List (Bytes × Piece)} (h : Division source cuts)
    (hclosed : ∀ text, (text, .fault .unterminatedString) ∉ cuts) (hmore : Division more later) :
    Division (source ++ byte '\n' :: more) (cuts ++ ([byte '\n'], .blank) :: later) := by
  induction cuts generalizing source with
  | nil =>
    cases h
    exact division_cons_iff.2 ⟨later, rfl, hmore⟩
  | cons first cuts ih =>
    cases source with
    | nil => cases division_nil_iff.1 h
    | cons b rest =>
      obtain ⟨_, hfirst, hrest⟩ := division_cons_iff.1 h
      cases hfirst
      have hpiece : (Segment.cut b rest).piece ≠ .fault .unterminatedString := fun hpiece =>
        hclosed _ (List.mem_cons.2 (.inl (congrArg (Prod.mk _) hpiece.symm)))
      rw [List.cons_append, division_cons_iff, Segment.cut_lineFeed hpiece more]
      exact ⟨_, rfl, ih hrest fun text htext => hclosed text (List.mem_cons_of_mem _ htext)⟩

/-! ## Tokens of a division -/

/-- the tokens of a division that begins on a line, without the end mark -/
def tokensFrom (line : Nat) : List (Bytes × Piece) → List Token
  | [] => []
  | (text, piece) :: later =>
    let line' := line + Bytes.lineFeeds text
    match piece with
    | .token kind => ⟨kind, Utf8.decode text, line'⟩ :: tokensFrom line' later
    | _ => tokensFrom line' later

/-- how many lines a division ends -/
def linesOf (cuts : List (Bytes × Piece)) : Nat := (cuts.map fun segment => Bytes.lineFeeds segment.1).sum

theorem linesOf_cons (text : Bytes) (piece : Piece) (later : List (Bytes × Piece)) :
    linesOf ((text, piece) :: later) = Bytes.lineFeeds text + linesOf later := rfl

theorem tokensFrom_append (line : Nat) (first second : List (Bytes × Piece)) :
    tokensFrom line (first ++ second) = tokensFrom line first ++ tokensFrom (line + linesOf first) second := by
  induction first generalizing line with
  | nil => rfl
  | cons segment first ih =>
    obtain ⟨text, piece⟩ := segment
    rw [linesOf_cons, ← Nat.add_assoc]
    cases piece with
    | token kind => exact congrArg (List.cons _) (ih _)
    | blank => exact ih _
    | fault cause => exact ih _

/-- further down, the tokens are the same ones further down -/
theorem tokensFrom_down (line k : Nat) (cuts : List (Bytes × Piece)) :
    tokensFrom (line + k) cuts = (tokensFrom line cuts).map (Token.down k) := by
  induction cuts generalizing line with
  | nil => rfl
  | cons segment cuts ih =>
    obtain ⟨text, piece⟩ := segment
    have hline : line + k + Bytes.lineFeeds text = line + Bytes.lineFeeds text + k := by omega
    simp only [tokensFrom, hline, ih]
    cases piece <;> rfl

theorem tokens_itemsFrom (line : Nat) (cuts : List (Bytes × Piece)) :
    (Lexing.ofItems (itemsFrom line cuts)).tokens = tokensFrom line cuts ++ [.atEnd (line + linesOf cuts)] := by
  induction cuts generalizing line with
  | nil => rfl
  | cons segment cuts ih =>
    obtain ⟨text, piece⟩ := segment
    rw [linesOf_cons, ← Nat.add_assoc]
    rcases piece with - | kind | (- | -)
    · exact ih _
    · exact congrArg (List.cons _) (ih _)
    · exact ih _
    · exact ih _

theorem Lexing.ofBytes_eq {content : Bytes} {cuts : List (Bytes × Piece)} (h : Division content cuts) :
    ofBytes content = ofItems (itemsFrom 1 cuts) :=
  congrArg ofItems (TokenStream.drain_eq h 1)

theorem diagnostics_itemsFrom {line : Nat} {cuts : List (Bytes × Piece)} :
    (Lexing.ofItems (itemsFrom line cuts)).diagnostics = [] ↔ Faultless cuts := by
  induction cuts generalizing line with
  | nil => simp [itemsFrom, Lexing.ofItems, Faultless]
  | cons segment cuts ih =>
    obtain ⟨text, piece⟩ := segment
    rw [faultless_cons]
    rcases piece with - | kind | (- | -)
    · exact ih.trans (by simp)
    · exact ih.trans (by simp)
    · simp [itemsFrom, Lexing.ofItems]
    · simp [itemsFrom, Lexing.ofItems]

theorem Lexeme.ne_end {text : Bytes} {piece : Piece} (h : Lexeme text piece) : piece ≠ .token .eof := by
  rintro rfl
  cases h with
  | punctuator h => revert h; simp [punctuators]
  | operator h => revert h; simp [operators]
  | keyword h => revert h; simp [TokenKind.keywords]

theorem Due.ne_end {source text : Bytes} {piece : Piece} (h : Due source text piece) : piece ≠ .token .eof := by
  cases h with
  | longest hsource h hlongest => exact h.ne_end
  | openString hsource h => nofun
  | strayByte hsource hb h => nofun

theorem tokensFrom_ne_end {source : Bytes} {cuts : List (Bytes × Piece)} (h : Division source cuts) (line : Nat) :
    ∀ t ∈ tokensFrom line cuts, t.kind ≠ .eof := by
  induction h generalizing line with
  | nil => simp [tokensFrom]
  | @cons text rest piece later hne hdue h ih =>
    cases piece with
    | token kind =>
      intro t ht
      rcases List.mem_cons.1 ht with rfl | ht
      · exact fun hkind => hdue.ne_end (congrArg Piece.token hkind)
      · exact ih _ t ht
    | blank => exact ih _
    | fault cause => exact ih _

/-! ## Programs of joined sources -/

namespace Stmt.AllReadFrom

variable {first second : List Stmt} {room : Nat} {tokens later : List Token}

theorem append (h : AllReadFrom first room tokens) (h' : AllReadFrom second room later) :
    AllReadFrom (first ++ second) room (tokens ++ later) := by
  refine ⟨?_, ?_, ?_⟩
  · rw [canonicalAll_append, h.canonical, h'.canonical]
    rfl
  · rw [nestingAll_append]
    exact max_lt h.nesting h'.nesting
  · rw [spellingAll_append]
    exact h.spelled.append h'.spelled

theorem mapTokens {f : Token → Token} (hf : Moves f) (h : AllReadFrom first room tokens) :
    AllReadFrom (mapTokensAll f first) room (tokens.map f) where
  canonical := (canonicalAll_mapTokens hf first).trans h.canonical
  nesting := (nestingAll_mapTokens first).trans_lt h.nesting
  spelled := spells_mapTokens hf h.spelled

end Stmt.AllReadFrom

/-- **Accepted sources.** A source is accepted as a program if and only if it has no lexical fault and its tokens spell
the program, which is canonical and nests no deeper than the limit. -/
theorem compile_eq_ok_iff {content : Bytes} {cuts : List (Bytes × Piece)} (h : Division content cuts)
    {program : Program} :
    compile content = .ok program ↔
      Faultless cuts ∧ Stmt.AllReadFrom program (maxNesting + 1) (tokensFrom 1 cuts) := by
  have hbody : Parsing.body (tokensFrom 1 cuts ++ [.atEnd (1 + linesOf cuts)]) = tokensFrom 1 cuts :=
    Parsing.body_append_end (tokensFrom_ne_end h 1) rfl []
  simp only [compile, Lexing.ofBytes_eq h, tokens_itemsFrom]
  constructor
  · intro hok
    split_ifs at hok with hfault hsilent
    have hread := Parsing.read_of_silent (not_not.1 hsilent)
    rw [hbody] at hread
    cases hok
    exact ⟨diagnostics_itemsFrom.1 (not_not.1 hfault), hread⟩
  · rintro ⟨hfaultless, hread⟩
    rw [if_neg (not_not.2 (diagnostics_itemsFrom.2 hfaultless)),
      Parsing.ofTokens_spelled hread.canonical hread.spelled rfl [] (Nat.le_of_lt_succ hread.nesting)]
    rfl

/-- **Joined sources.** Two accepted sources with a line feed between them are accepted as the program of the first and
then that of the second, further down. -/
theorem compile_joined {first second : Bytes} {p q : Program} (hfirst : compile first = .ok p)
    (hsecond : compile second = .ok q) : ∃ k,
      compile (first ++ byte '\n' :: second) = .ok (p ++ Stmt.mapTokensAll (Token.down k) q) := by
  obtain ⟨cuts, hcuts⟩ := division_exists first
  obtain ⟨later, hlater⟩ := division_exists second
  obtain ⟨hfaultless, hread⟩ := (compile_eq_ok_iff hcuts).1 hfirst
  obtain ⟨hfaultless', hread'⟩ := (compile_eq_ok_iff hlater).1 hsecond
  refine ⟨linesOf cuts + 1, (compile_eq_ok_iff (hcuts.joined (hfaultless · _) hlater)).2 ⟨?_, ?_⟩⟩
  · exact faultless_append.2 ⟨hfaultless, faultless_cons.2 ⟨nofun, hfaultless'⟩⟩
  · have htokens : tokensFrom 1 (cuts ++ ([byte '\n'], .blank) :: later) =
        tokensFrom 1 cuts ++ (tokensFrom 1 later).map (Token.down (linesOf cuts + 1)) :=
      calc tokensFrom 1 (cuts ++ ([byte '\n'], .blank) :: later)
        _ = tokensFrom 1 cuts ++ tokensFrom (1 + linesOf cuts) (([byte '\n'], .blank) :: later) :=
          tokensFrom_append 1 cuts _
        _ = tokensFrom 1 cuts ++ tokensFrom (1 + (linesOf cuts + 1)) later := rfl
        _ = tokensFrom 1 cuts ++ (tokensFrom 1 later).map (Token.down (linesOf cuts + 1)) := by
          rw [tokensFrom_down]
    rw [htokens]
    exact hread.append (hread'.mapTokens (moves_down _))

end Scriptlet
