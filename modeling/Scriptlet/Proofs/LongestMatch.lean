/-
Tokens by longest match. A source divides, from the left, into segments: each is the longest lexeme that the rest of the
source begins with, and where there is no lexeme it is a fault, which takes the whole rest behind an opening quote and
one byte otherwise. There is exactly one such division, and the items that a stream hands out are those of its segments,
in order, and the end mark.

- `due_iff`: the segment that is due is the one that is cut off.
- `drain_eq`: what a stream hands out, segment by segment.
- `handsOut_of_division`: the division and the items of a whole source.
-/
import Scriptlet.Proofs.Lexeme
import Scriptlet.Token.Stream

namespace Scriptlet

open Segment

/-! ## Divisions -/

def NoLexeme (source : Bytes) : Prop := ∀ text piece, text <+: source → ¬ Lexeme text piece

/-- the first segment of a source, and what it stands for -/
inductive Due (source : Bytes) : Bytes → Piece → Prop where
  /-- the longest lexeme -/
  | longest {text : Bytes} {piece : Piece} (hsource : text <+: source) (h : Lexeme text piece)
    (hlongest : ∀ other piece', other <+: source → Lexeme other piece' → other.length ≤ text.length) :
    Due source text piece
  /-- no lexeme, and a quote comes first -/
  | openString {rest : Bytes} (hsource : source = byte '"' :: rest) (h : NoLexeme source) :
    Due source source (.fault .unterminatedString)
  /-- no lexeme, and another byte comes first -/
  | strayByte {b : UInt8} {rest : Bytes} (hsource : source = b :: rest) (hb : b ≠ byte '"') (h : NoLexeme source) :
    Due source [b] (.fault .unexpectedCharacter)

theorem Due.lexeme_of_token {source text : Bytes} {kind : TokenKind} (h : Due source text (.token kind)) :
    Lexeme text (.token kind) := by
  cases h with
  | longest hsource hlexeme hlongest => exact hlexeme

/-- an open string takes all that is left -/
theorem Due.eq_source_of_open {source text : Bytes} (h : Due source text (.fault .unterminatedString)) :
    text = source := by
  cases h with
  | longest hsource hlexeme hlongest => cases hlexeme
  | openString hsource hno => rfl

/-- a source in consecutive segments, none of them empty, each of them due where it begins -/
inductive Division : Bytes → List (Bytes × Piece) → Prop where
  | nil : Division [] []
  | cons {text rest : Bytes} {piece : Piece} {later : List (Bytes × Piece)} (hne : text ≠ [])
    (hdue : Due (text ++ rest) text piece) (h : Division rest later) :
    Division (text ++ rest) ((text, piece) :: later)

theorem cut_text_begins (b : UInt8) (rest : Bytes) : (cut b rest).text <+: b :: rest :=
  ⟨_, cut_text_append_rest b rest⟩

/-- a fault is cut off only where there is no lexeme -/
theorem noLexeme_of_fault {b : UInt8} {rest : Bytes} {cause : LexicalFault} (h : (cut b rest).piece = .fault cause) :
    NoLexeme (b :: rest) :=
  fun _ _ hsource hlexeme => (hlexeme.outrun hsource).sound cause h

theorem due_cut (b : UInt8) (rest : Bytes) : Due (b :: rest) (cut b rest).text (cut b rest).piece := by
  rcases lexeme_or_fault b rest with hlexeme | ⟨rfl, hcut⟩ | ⟨hb, hcut⟩
  · exact .longest (cut_text_begins b rest) hlexeme fun other _ hother h => (h.outrun hother).longer
  · have hno : NoLexeme (byte '"' :: rest) := noLexeme_of_fault (congrArg Segment.piece hcut)
    rw [hcut]
    exact .openString rfl hno
  · have hno : NoLexeme (b :: rest) := noLexeme_of_fault (congrArg Segment.piece hcut)
    rw [hcut]
    exact .strayByte rfl hb hno

/-- The segment that is due is the one that is cut off. -/
theorem due_iff {b : UInt8} {rest text : Bytes} {piece : Piece} :
    Due (b :: rest) text piece ↔ text = (cut b rest).text ∧ piece = (cut b rest).piece := by
  constructor
  · intro hdue
    rcases lexeme_or_fault b rest with hlexeme | ⟨rfl, hcut⟩ | ⟨hb, hcut⟩
    · cases hdue with
      | longest hsource h hlongest =>
        have houtrun := h.outrun hsource
        have hlength := Nat.le_antisymm houtrun.longer (hlongest _ _ (cut_text_begins b rest) hlexeme)
        have htext :=
          (List.prefix_of_prefix_length_le hsource (cut_text_begins b rest) houtrun.longer).eq_of_length hlength
        exact ⟨htext, (houtrun.same htext.symm).symm⟩
      | openString hsource h => exact absurd hlexeme (h _ _ (cut_text_begins b rest))
      | strayByte hsource hb h => exact absurd hlexeme (h _ _ (cut_text_begins b rest))
    · have hno : NoLexeme (byte '"' :: rest) := noLexeme_of_fault (congrArg Segment.piece hcut)
      rw [hcut]
      cases hdue with
      | longest hsource h hlongest => exact absurd h (hno _ _ hsource)
      | openString hsource h => exact ⟨rfl, rfl⟩
      | strayByte hsource hb h => exact absurd (List.cons.inj hsource).1.symm hb
    · have hno : NoLexeme (b :: rest) := noLexeme_of_fault (congrArg Segment.piece hcut)
      rw [hcut]
      cases hdue with
      | longest hsource h hlongest => exact absurd h (hno _ _ hsource)
      | openString hsource h => exact absurd (List.cons.inj hsource).1 hb
      | strayByte hsource _ h =>
        obtain ⟨rfl, -⟩ := List.cons.inj hsource
        exact ⟨rfl, rfl⟩
  · rintro ⟨rfl, rfl⟩
    exact due_cut b rest

/-- a division begins with the segment that is cut off -/
theorem division_cons_iff {b : UInt8} {rest : Bytes} {cuts : List (Bytes × Piece)} : Division (b :: rest) cuts ↔
    ∃ later, cuts = ((cut b rest).text, (cut b rest).piece) :: later ∧ Division (cut b rest).rest later := by
  have hcover := cut_text_append_rest b rest
  constructor
  · generalize hsource : b :: rest = source
    rintro (_ | ⟨hne, hdue, hlater⟩)
    · cases hsource
    · rename_i text tail piece later
      rw [← hsource] at hdue
      obtain ⟨rfl, rfl⟩ := due_iff.1 hdue
      rw [← List.append_cancel_left (hcover.trans hsource)] at hlater
      exact ⟨later, rfl, hlater⟩
  · rintro ⟨later, rfl, hlater⟩
    have hdivision := Division.cons (cut_covers b rest).2 (hcover ▸ due_cut b rest) hlater
    rwa [hcover] at hdivision

theorem division_nil_iff {cuts : List (Bytes × Piece)} : Division [] cuts ↔ cuts = [] := by
  constructor
  · generalize hsource : ([] : Bytes) = source
    rintro (_ | ⟨hne, -, -⟩)
    · rfl
    · exact absurd (List.append_eq_nil_iff.1 hsource.symm).1 hne
  · rintro rfl
    exact .nil

/-! ## Items -/

/-- the items of a division that begins on a line: a token or a diagnostic names the line on which its segment ends -/
def itemsFrom (line : Nat) : List (Bytes × Piece) → List Item
  | [] => [.token (.atEnd line)]
  | (text, piece) :: later =>
    let line' := line + Bytes.lineFeeds text
    match piece with
    | .blank => itemsFrom line' later
    | .token kind => .token ⟨kind, Utf8.decode text, line'⟩ :: itemsFrom line' later
    | .fault .unterminatedString => .diagnostic (.lexical line' "Unterminated string") :: itemsFrom line' later
    | .fault .unexpectedCharacter => .diagnostic (.lexical line' "Unexpected character") :: itemsFrom line' later

theorem itemsFrom_cut (line : Nat) (s : Segment) (later : List (Bytes × Piece)) :
    itemsFrom line ((s.text, s.piece) :: later) =
      (s.item? (line + Bytes.lineFeeds s.text)).toList ++ itemsFrom (line + Bytes.lineFeeds s.text) later := by
  rw [Segment.item?]
  rcases s.piece with - | kind | (- | -) <;> rfl

namespace TokenStream

/-- the stream hands out the items one by one, and then nothing -/
inductive HandsOut : TokenStream → List Item → Prop where
  | nothing {s : TokenStream} (h : s.next = none) : HandsOut s []
  | item {s t : TokenStream} {item : Item} {later : List Item} (h : s.next = some (item, t)) (ht : HandsOut t later) :
    HandsOut s (item :: later)

theorem handsOut_drain (s : TokenStream) : HandsOut s s.drain.1 := by
  fun_induction drain s with
  | case1 s h => exact .nothing h
  | case2 s item t h later ih => exact .item h ih

theorem drain_of_next {s t : TokenStream} {item : Item} (h : s.next = some (item, t)) :
    s.drain = (item :: t.drain.1, t.drain.2) := by
  rw [drain]
  split
  · rename_i hnone
    cases h.symm.trans hnone
  · rename_i item' t' hsome
    cases h.symm.trans hsome
    rfl

theorem drain_nil (line : Nat) : drain ⟨[], line, false⟩ = ([.token (.atEnd line)], ⟨[], line, true⟩) := by
  have hended : drain ⟨[], line, true⟩ = ([], ⟨[], line, true⟩) := by
    rw [drain]
    rfl
  have hnext : next ⟨[], line, false⟩ = some (.token (.atEnd line), ⟨[], line, true⟩) := by
    simp [next, nextFrom]
  rw [drain_of_next hnext, hended]

/-- the items of a source are those of its first segment and then those of the rest -/
theorem drain_cons (b : UInt8) (rest : Bytes) (line : Nat) :
    drain ⟨b :: rest, line, false⟩ =
      (((cut b rest).item? (line + Bytes.lineFeeds (cut b rest).text)).toList ++
          (drain ⟨(cut b rest).rest, line + Bytes.lineFeeds (cut b rest).text, false⟩).1,
        (drain ⟨(cut b rest).rest, line + Bytes.lineFeeds (cut b rest).text, false⟩).2) := by
  have hnext : next ⟨b :: rest, line, false⟩ = some (nextFrom (b :: rest) line) := rfl
  rw [nextFrom] at hnext
  split at hnext
  · rename_i item hitem
    rw [drain_of_next hnext, hitem]
    rfl
  · rename_i hitem
    -- a blank segment hands out nothing, and the stream goes on as the stream over the rest does
    rw [drain_of_next hnext, hitem]
    exact (drain_of_next rfl).symm

/-- **What a stream hands out**, by the division of its source. -/
theorem drain_eq {source : Bytes} {cuts : List (Bytes × Piece)} (h : Division source cuts) (line : Nat) :
    (drain ⟨source, line, false⟩).1 = itemsFrom line cuts := by
  induction cuts generalizing source line with
  | nil =>
    cases h
    rw [drain_nil]
    rfl
  | cons first later ih =>
    cases source with
    | nil => cases division_nil_iff.1 h
    | cons b rest =>
      obtain ⟨_, hcuts, hlater⟩ := division_cons_iff.1 h
      cases hcuts
      rw [drain_cons, itemsFrom_cut, ih hlater]

end TokenStream

/-! ## Whole sources -/

theorem division_exists (source : Bytes) : ∃ cuts, Division source cuts := by
  induction hn : source.length using Nat.strong_induction_on generalizing source with
  | h n ih =>
    cases source with
    | nil => exact ⟨[], .nil⟩
    | cons b rest =>
      subst hn
      obtain ⟨later, hlater⟩ := ih _ (Nat.lt_succ_of_le (cut_rest_length b rest)) (cut b rest).rest rfl
      exact ⟨_, division_cons_iff.2 ⟨later, rfl, hlater⟩⟩

theorem division_unique {source : Bytes} {cuts cuts' : List (Bytes × Piece)} (h : Division source cuts)
    (h' : Division source cuts') : cuts = cuts' := by
  induction cuts generalizing source cuts' with
  | nil =>
    cases h
    exact (division_nil_iff.1 h').symm
  | cons first later ih =>
    cases source with
    | nil => cases division_nil_iff.1 h
    | cons b rest =>
      obtain ⟨_, hcuts, hlater⟩ := division_cons_iff.1 h
      obtain ⟨later', rfl, hlater'⟩ := division_cons_iff.1 h'
      cases hcuts
      rw [ih hlater hlater']

/-- **Tokens by longest match.** Every source divides in exactly one way into segments that are each the longest lexeme
at their place, or a fault where there is none; and a stream loaded with the source hands out the items of these
segments, the end mark behind them, and nothing more. -/
theorem handsOut_of_division (source : Bytes) : (∃! cuts, Division source cuts) ∧
    ∀ cuts, Division source cuts → (TokenStream.load (.ofBytes source)).HandsOut (itemsFrom 1 cuts) := by
  constructor
  · obtain ⟨cuts, hcuts⟩ := division_exists source
    exact ⟨cuts, hcuts, fun _ hother => division_unique hother hcuts⟩
  · intro cuts hcuts
    rw [← TokenStream.drain_eq hcuts 1]
    exact TokenStream.handsOut_drain _

end Scriptlet
