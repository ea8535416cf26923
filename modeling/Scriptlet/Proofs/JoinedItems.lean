/-
Items of joined sources. What a stream hands out for a source, a line feed and another source is what it hands out for
the first one, without the end mark, and then what it hands out for the second one, so many lines further down as the
first one and the line feed take up. The first source may have faults, and may end in the middle of a comment or with
anything that more bytes would prolong; only a string that is still open at its end would reach over the line feed.

Both halves are facts about divisions. The line feed ends the last segment of the first source (`Division.joined`), and
the items of a division are those of its parts in order, each counted from the line on which the part begins
(`itemsFrom_append`, `itemsFrom_down`).

- `TokenStream.drain_lineFeed`: the items of joined sources.
-/
import Mathlib
import Scriptlet.Proofs.Joining

namespace Scriptlet

def Diagnostic.down (k : Nat) : Diagnostic → Diagnostic
  | .lexical line message => .lexical (line + k) message
  | .grammatical line location message => .grammatical (line + k) location message

def Item.down (k : Nat) : Item → Item
  | .token t => .token (t.down k)
  | .diagnostic d => .diagnostic (d.down k)

/-! ## Items of a division -/

/-- the items of a division that goes on: those of its first part, and then the others, counted from where they begin -/
theorem itemsFrom_append (line : Nat) (first : List (Bytes × Piece)) : ∃ front, ∀ later,
    itemsFrom line (first ++ later) = front ++ itemsFrom (line + linesOf first) later := by
  induction first generalizing line with
  | nil => exact ⟨[], fun _ => rfl⟩
  | cons segment first ih =>
    obtain ⟨text, piece⟩ := segment
    obtain ⟨front, hfront⟩ := ih (line + Bytes.lineFeeds text)
    have hlines : line + linesOf ((text, piece) :: first) = line + Bytes.lineFeeds text + linesOf first := by
      rw [linesOf_cons, Nat.add_assoc]
    rw [hlines]
    -- the segment adds one item or none, whatever comes behind it
    rcases piece with - | kind | (- | -)
    · exact ⟨front, hfront⟩
    · exact ⟨_ :: front, fun later => congrArg (List.cons _) (hfront later)⟩
    · exact ⟨_ :: front, fun later => congrArg (List.cons _) (hfront later)⟩
    · exact ⟨_ :: front, fun later => congrArg (List.cons _) (hfront later)⟩

/-- further down, the items are the same ones further down -/
theorem itemsFrom_down (line k : Nat) (cuts : List (Bytes × Piece)) :
    itemsFrom (line + k) cuts = (itemsFrom line cuts).map (Item.down k) := by
  induction cuts generalizing line with
  | nil => rfl
  | cons segment cuts ih =>
    obtain ⟨text, piece⟩ := segment
    have hline : line + k + Bytes.lineFeeds text = line + Bytes.lineFeeds text + k := by omega
    simp only [itemsFrom, hline, ih]
    rcases piece with - | kind | (- | -) <;> rfl

/-- a division ends as many lines as its source -/
theorem Division.linesOf_eq {source : Bytes} {cuts : List (Bytes × Piece)} (h : Division source cuts) :
    linesOf cuts = Bytes.lineFeeds source := by
  induction h with
  | nil => rfl
  | cons hne hdue h ih => rw [linesOf_cons, ih, Bytes.lineFeeds_append]

/-- an open string is told -/
theorem mem_itemsFrom_of_open {text : Bytes} {cuts : List (Bytes × Piece)}
    (h : (text, .fault .unterminatedString) ∈ cuts) (line : Nat) :
    ∃ line', .diagnostic (.lexical line' "Unterminated string") ∈ itemsFrom line cuts := by
  obtain ⟨first, later, rfl⟩ := List.append_of_mem h
  obtain ⟨front, hfront⟩ := itemsFrom_append line first
  rw [hfront]
  exact ⟨_, List.mem_append_right front List.mem_cons_self⟩

/-! ## Joined sources -/

namespace TokenStream

/-- **A line feed parts the items of two sources.** Unless a string is open at the end of the first source, the items of
both sources with a line feed between them are those of the first one without its end mark, and then those of the second
one, further down by the lines of the first one and one more. -/
theorem drain_lineFeed (first second : Bytes)
    (hclosed : ∀ line, .diagnostic (.lexical line "Unterminated string") ∉ (load (.ofBytes first)).drain.1) :
    ∃ front,
      (load (.ofBytes first)).drain.1 = front ++ [.token (.atEnd (1 + Bytes.lineFeeds first))] ∧
      (load (.ofBytes (first ++ byte '\n' :: second))).drain.1 =
        front ++ (load (.ofBytes second)).drain.1.map (Item.down (1 + Bytes.lineFeeds first)) := by
  obtain ⟨cuts, hcuts⟩ := division_exists first
  obtain ⟨later, hlater⟩ := division_exists second
  have hfirst : (load (.ofBytes first)).drain.1 = itemsFrom 1 cuts := drain_eq hcuts 1
  have hsecond : (load (.ofBytes second)).drain.1 = itemsFrom 1 later := drain_eq hlater 1
  have hopen : ∀ text, (text, .fault .unterminatedString) ∉ cuts := by
    intro text htext
    obtain ⟨line, hline⟩ := mem_itemsFrom_of_open htext 1
    rw [← hfirst] at hline
    exact hclosed line hline
  obtain ⟨front, hfront⟩ := itemsFrom_append 1 cuts
  rw [hcuts.linesOf_eq] at hfront
  refine ⟨front, ?_, ?_⟩
  · rw [hfirst, ← List.append_nil cuts, hfront]
    rfl
  · calc (load (.ofBytes (first ++ byte '\n' :: second))).drain.1
      _ = itemsFrom 1 (cuts ++ ([byte '\n'], .blank) :: later) := drain_eq (hcuts.joined hopen hlater) 1
      _ = front ++ itemsFrom (1 + Bytes.lineFeeds first) (([byte '\n'], .blank) :: later) := hfront _
      _ = front ++ itemsFrom (1 + (1 + Bytes.lineFeeds first)) later := by
        rw [Nat.add_comm 1 (1 + Bytes.lineFeeds first)]
        rfl
      _ = front ++ (load (.ofBytes second)).drain.1.map (Item.down (1 + Bytes.lineFeeds first)) := by
        rw [itemsFrom_down, hsecond]

/-- a string over two lines, a stray byte, and a sign that an equals sign would prolong -/
def signedText : Bytes := Utf8.encode "\"a\nb\" # !"

theorem drain_signedText : (load (.ofBytes signedText)).drain.1 = [.token ⟨.string "a\nb", "\"a\nb\"", 2⟩,
    .diagnostic (.lexical 2 "Unexpected character"), .token ⟨.bang, "!", 2⟩, .token (.atEnd 2)] := by
  cbv

/-- the sign keeps away from the equals sign on the next line -/
theorem drain_lineFeed_signedText :
    (∀ line, .diagnostic (.lexical line "Unterminated string") ∉ (load (.ofBytes signedText)).drain.1) ∧ ∃ front,
      (load (.ofBytes signedText)).drain.1 = front ++ [.token (.atEnd (1 + Bytes.lineFeeds signedText))] ∧
      (load (.ofBytes (signedText ++ byte '\n' :: Utf8.encode "= // c"))).drain.1 =
        front ++ (load (.ofBytes (Utf8.encode "= // c"))).drain.1.map (Item.down (1 + Bytes.lineFeeds signedText)) := by
  have hclosed : ∀ line, .diagnostic (.lexical line "Unterminated string") ∉ (load (.ofBytes signedText)).drain.1 := by
    simp [drain_signedText]
  exact ⟨hclosed, drain_lineFeed signedText _ hclosed⟩

end TokenStream

end Scriptlet
