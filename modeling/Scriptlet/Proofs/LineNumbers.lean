/-
Lines of items. The line that an item names is one more than the number of line feeds in the source up to the end of
what the item was made from. That is a segment, a string with both its quotes and a string that is never closed with all
that is left, or, for the end mark, nothing behind the whole source. So the lines of the items that a source is turned
into never go back.

Where an item comes from is said by `origins`, which lists the segments of a division that have an item, each with all
that stands before it, and the end of the source. The lines are those that the machine of `ByteCursor` counts, between
segments and inside of strings, from whatever it held before the source was taken up.

- `Lexicon.lines_exact`: the lines of all items of a source.
-/
import Scriptlet.Proofs.ByteCursorSteps

namespace Scriptlet

def Item.line : Item → Nat
  | .token t => t.line
  | .diagnostic d => d.line

/-- what an item is made from -/
inductive Origin where
  /-- a segment, and all that stands before it -/
  | segment (before text : Bytes) (piece : Piece)
  /-- the end of all there is -/
  | finish (whole : Bytes)

namespace Origin

/-- the source up to the end of the origin -/
def upto : Origin → Bytes
  | .segment before text _ => before ++ text
  | .finish whole => whole

/-- what is made from the origin, but for the line -/
def Makes : Origin → Item → Prop
  | .segment _ text (.token kind), .token t => t.kind = kind ∧ t.lexeme = Utf8.decode text
  | .segment _ _ (.fault cause), .diagnostic d => ∃ line, d = .lexical line cause.message
  | .finish _, .token t => t.kind = .eof ∧ t.lexeme = ""
  | _, _ => False

/-- where in the source the origin ends: a string behind the quote that closes it, what is left open at the end of the
source, and so does the end mark -/
def EndsIn (source : Bytes) : Origin → Prop
  | .segment before text (.token (.string _)) =>
    before ++ text <+: source ∧ ∃ body, (∀ b ∈ body, b ≠ byte '"') ∧ text = byte '"' :: (body ++ [byte '"'])
  | .segment before text (.fault .unterminatedString) => before ++ text = source
  | .segment before text _ => before ++ text <+: source
  | .finish whole => whole = source

end Origin

/-- what the items of a division are made from, if `before` stands before it -/
def origins (before : Bytes) : List (Bytes × Piece) → List Origin
  | [] => [.finish before]
  | (text, piece) :: later =>
    match piece with
    | .blank => origins (before ++ text) later
    | piece => .segment before text piece :: origins (before ++ text) later

/-- each item of a division is made from its origin, and names the line on which the origin ends -/
theorem itemsFrom_origins (cuts : List (Bytes × Piece)) (before : Bytes) :
    List.Forall₂ (fun origin item => origin.Makes item ∧ item.line = 1 + Bytes.lineFeeds origin.upto)
      (origins before cuts) (itemsFrom (1 + Bytes.lineFeeds before) cuts) := by
  induction cuts generalizing before with
  | nil => exact .cons ⟨⟨rfl, rfl⟩, rfl⟩ .nil
  | cons first later ih =>
    obtain ⟨text, piece⟩ := first
    have hline : 1 + Bytes.lineFeeds before + Bytes.lineFeeds text = 1 + Bytes.lineFeeds (before ++ text) := by
      rw [Bytes.lineFeeds_append, Nat.add_assoc]
    have hlater := ih (before ++ text)
    rw [← hline] at hlater
    rcases piece with - | kind | (- | -)
    · exact hlater
    · exact .cons ⟨⟨rfl, rfl⟩, hline⟩ hlater
    · exact .cons ⟨⟨_, rfl⟩, hline⟩ hlater
    · exact .cons ⟨⟨_, rfl⟩, hline⟩ hlater

/-- a segment that is due ends where its origin should -/
theorem Due.endsIn {text rest : Bytes} {piece : Piece} (h : Due (text ++ rest) text piece) (before : Bytes) :
    (Origin.segment before text piece).EndsIn (before ++ (text ++ rest)) := by
  have hwithin : before ++ text <+: before ++ (text ++ rest) :=
    (List.prefix_append_right_inj before).2 (List.prefix_append text rest)
  rcases piece with - | kind | (- | -)
  · exact hwithin
  · cases kind with
    | string content =>
      obtain ⟨body, hbody, htext, -⟩ := h.lexeme_of_token.string_text
      exact ⟨hwithin, body, hbody, htext⟩
    | _ => exact hwithin
  · exact congrArg (before ++ ·) h.eq_source_of_open
  · exact hwithin

theorem Division.endsIn {source : Bytes} {cuts : List (Bytes × Piece)} (h : Division source cuts) (before : Bytes) :
    ∀ origin ∈ origins before cuts, origin.EndsIn (before ++ source) := by
  induction h generalizing before with
  | nil =>
    intro origin hmem
    rw [List.mem_singleton.1 hmem, List.append_nil]
    rfl
  | @cons text rest piece later hne hdue h ih =>
    have hlater := ih (before ++ text)
    rw [List.append_assoc] at hlater
    have hfirst := hdue.endsIn before
    rcases piece with - | kind | cause
    · exact hlater
    · exact List.forall_mem_cons.2 ⟨hfirst, hlater⟩
    · exact List.forall_mem_cons.2 ⟨hfirst, hlater⟩

/-- origins follow one another in the source -/
theorem pairwise_origins (cuts : List (Bytes × Piece)) (before : Bytes) :
    (∀ origin ∈ origins before cuts, before <+: origin.upto) ∧
      (origins before cuts).Pairwise fun origin other => origin.upto <+: other.upto := by
  induction cuts generalizing before with
  | nil =>
    refine ⟨?_, List.pairwise_singleton _ _⟩
    intro origin hmem
    rw [List.mem_singleton.1 hmem]
    exact List.prefix_refl before
  | cons first later ih =>
    obtain ⟨text, piece⟩ := first
    obtain ⟨hbehind, hpairwise⟩ := ih (before ++ text)
    have hbefore : before <+: before ++ text := List.prefix_append before text
    have hlater : ∀ origin ∈ origins (before ++ text) later, before <+: origin.upto :=
      fun origin hmem => hbefore.trans (hbehind origin hmem)
    rcases piece with - | kind | cause
    · exact ⟨hlater, hpairwise⟩
    · exact ⟨List.forall_mem_cons.2 ⟨hbefore, hlater⟩, List.pairwise_cons.2 ⟨hbehind, hpairwise⟩⟩
    · exact ⟨List.forall_mem_cons.2 ⟨hbefore, hlater⟩, List.pairwise_cons.2 ⟨hbehind, hpairwise⟩⟩

theorem Bytes.lineFeeds_le_of_prefix {text source : Bytes} (h : text <+: source) :
    lineFeeds text ≤ lineFeeds source := by
  obtain ⟨more, rfl⟩ := h
  rw [lineFeeds_append]
  exact Nat.le_add_right _ _

/-- items that name the lines of their origins are in the order of these -/
theorem lines_of_origins {froms : List Origin} {items : List Item}
    (h : List.Forall₂ (fun origin item => origin.Makes item ∧ item.line = 1 + Bytes.lineFeeds origin.upto) froms items)
    (hfroms : froms.Pairwise fun origin other => origin.upto <+: other.upto) :
    items.Pairwise fun item other => item.line ≤ other.line := by
  have hlines : items.map Item.line = froms.map fun origin => 1 + Bytes.lineFeeds origin.upto := by
    clear hfroms
    induction h with
    | nil => rfl
    | cons hfirst _ ih => rw [List.map_cons, List.map_cons, hfirst.2, ih]
  have hsorted : (items.map Item.line).Pairwise (· ≤ ·) := by
    rw [hlines, List.pairwise_map]
    apply hfroms.imp
    intro origin other hprefix
    exact Nat.add_le_add_left (Bytes.lineFeeds_le_of_prefix hprefix) 1
  exact List.pairwise_map.1 hsorted

namespace Lexicon

open ByteCursor

/-- **Lines are exact.** Whatever the machine held, and whether or not the source could be read to its end, what has
arrived of the source is turned into items that each name one line more than there are line feeds up to the end of what
the item was made from; and lines never decrease from item to item. -/
theorem lines_exact (source : Source) (c : ByteCursor) : ∃ cuts items c',
    Division source.content cuts ∧
    Runs (load source >>= fun _ => standard.collect []) c items c' ∧
    (TokenStream.load source).drain.1 = items ∧
    List.Forall₂ (fun origin item => origin.Makes item ∧ item.line = 1 + Bytes.lineFeeds origin.upto)
      (origins [] cuts) items ∧
    (∀ origin ∈ origins [] cuts, origin.EndsIn source.content) ∧
    items.Pairwise fun item other => item.line ≤ other.line := by
  obtain ⟨cuts, hcuts⟩ := division_exists source.content
  obtain ⟨c', hrun⟩ := runs_load_collect source c
  have hitems : (TokenStream.load source).drain.1 = itemsFrom 1 cuts := TokenStream.drain_eq hcuts 1
  have horigins := itemsFrom_origins cuts []
  obtain ⟨-, hpairwise⟩ := pairwise_origins cuts []
  rw [hitems] at hrun
  exact ⟨cuts, itemsFrom 1 cuts, c', hcuts, hrun, hitems, horigins, hcuts.endsIn [],
    lines_of_origins horigins hpairwise⟩

end Lexicon

end Scriptlet
