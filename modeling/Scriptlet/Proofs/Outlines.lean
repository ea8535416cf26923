/-
Outlines. A tree in prefix form is a word, or parentheses around a head and its arguments with spaces between them.
`Outline` is that structure without the characters, and it can be read back from them if its words are words: not empty,
and without a space or a parenthesis. A word ends where one of these begins, and a list where its parenthesis is closed,
so whatever stands behind an outline is told from it.

- `Outline.chars_append_inj`: outlines are told by their characters, whatever stands behind them.
- `Expr.prefixed_eq`, `Stmt.prefixed_eq`: a tree's prefix form is that of its outline.
-/
import Scriptlet.Proofs.Layout
import Scriptlet.Proofs.Lexeme
import Scriptlet.Tree

namespace Scriptlet

/-- a word, or a head with its arguments -/
inductive Outline where
  | word (text : String)
  | node (head : String) (args : List Outline)

/-- does the character belong to the word that it stands in -/
def inWord (c : Char) : Bool := c ≠ ' ' && c ≠ '(' && c ≠ ')'

def IsWord (text : String) : Prop := text.toList ≠ [] ∧ ∀ c ∈ text.toList, inWord c = true

instance (text : String) : Decidable (IsWord text) :=
  decidable_of_iff ((!text.toList.isEmpty && text.toList.all inWord) = true) (by simp [IsWord])

/-- nothing comes next, or what ends a word -/
def EndsWord (rest : List Char) : Prop := ∀ c ∈ rest.head?, inWord c = false

/-- words are told by where they end -/
theorem word_append_inj {text text' : String} {rest rest' : List Char} (h : IsWord text) (h' : IsWord text')
    (hrest : EndsWord rest) (hrest' : EndsWord rest') (heq : text.toList ++ rest = text'.toList ++ rest') :
    text = text' ∧ rest = rest' := by
  have htake : ∀ {word more : List Char}, (∀ c ∈ word, inWord c = true) → EndsWord more →
      (word ++ more).takeWhile inWord = word := by
    intro word more hword hmore
    cases more with
    | nil => rw [List.append_nil, List.takeWhile_eq_self_iff.2 hword]
    | cons c more => exact Segment.takeWhile_upto hword (hmore c rfl)
  have hwords : text.toList = text'.toList := by
    rw [← htake h.2 hrest, heq, htake h'.2 hrest']
  rw [hwords] at heq
  exact ⟨String.toList_injective hwords, List.append_cancel_left heq⟩

namespace Outline

mutual

def chars : Outline → List Char
  | .word text => text.toList
  | .node head args => '(' :: (head.toList ++ charsAll args)

/-- arguments written out, up to the parenthesis behind them -/
def charsAll : List Outline → List Char
  | [] => [')']
  | o :: rest => ' ' :: (o.chars ++ charsAll rest)

end

mutual

def Worded : Outline → Prop
  | .word text => IsWord text
  | .node head args => IsWord head ∧ WordedAll args

def WordedAll : List Outline → Prop
  | [] => True
  | o :: rest => o.Worded ∧ WordedAll rest

end

theorem endsWord_charsAll (args : List Outline) (rest : List Char) : EndsWord (charsAll args ++ rest) := by
  cases args with
  | nil =>
    rintro _ ⟨⟩
    rfl
  | cons o args =>
    rintro _ ⟨⟩
    rfl

/-- no word begins like a list -/
theorem word_ne_node {text : String} (h : IsWord text) {rest more : List Char} : text.toList ++ rest ≠ '(' :: more := by
  obtain ⟨c, later, htext⟩ := List.exists_cons_of_ne_nil h.1
  have hc := h.2 c (by simp [htext])
  intro heq
  rw [htext, List.cons_append] at heq
  cases heq
  cases hc

mutual

/-- **Outlines are told by their characters**, whatever stands behind them. -/
theorem chars_append_inj : ∀ {o o' : Outline} {rest rest' : List Char}, o.Worded → o'.Worded → EndsWord rest →
    EndsWord rest' → o.chars ++ rest = o'.chars ++ rest' → o = o' ∧ rest = rest'
  | .word text, .word text', rest, rest', h, h', hrest, hrest', heq => by
    obtain ⟨rfl, rfl⟩ := word_append_inj h h' hrest hrest' heq
    exact ⟨rfl, rfl⟩
  | .word text, .node head' args', rest, rest', h, _, _, _, heq => (word_ne_node h heq).elim
  | .node head args, .word text', rest, rest', _, h', _, _, heq => (word_ne_node h' heq.symm).elim
  | .node head args, .node head' args', rest, rest', h, h', _, _, heq => by
    simp only [chars, List.cons_append, List.append_assoc, List.cons.injEq, true_and] at heq
    obtain ⟨rfl, hargs⟩ := word_append_inj h.1 h'.1 (endsWord_charsAll args rest) (endsWord_charsAll args' rest') heq
    obtain ⟨rfl, rfl⟩ := charsAll_append_inj h.2 h'.2 hargs
    exact ⟨rfl, rfl⟩

theorem charsAll_append_inj : ∀ {args args' : List Outline} {rest rest' : List Char}, WordedAll args → WordedAll args' →
    charsAll args ++ rest = charsAll args' ++ rest' → args = args' ∧ rest = rest'
  | [], [], rest, rest', _, _, heq => ⟨rfl, List.append_cancel_left heq⟩
  | [], _ :: _, _, _, _, _, heq => by cases heq
  | _ :: _, [], _, _, _, _, heq => by cases heq
  | o :: args, o' :: args', rest, rest', h, h', heq => by
    simp only [charsAll, List.cons_append, List.append_assoc, List.cons.injEq, true_and] at heq
    obtain ⟨rfl, hargs⟩ := chars_append_inj h.1 h'.1 (endsWord_charsAll args rest) (endsWord_charsAll args' rest') heq
    obtain ⟨rfl, rfl⟩ := charsAll_append_inj h.2 h'.2 hargs
    exact ⟨rfl, rfl⟩

end

theorem chars_inj {o o' : Outline} (h : o.Worded) (h' : o'.Worded) (heq : o.chars = o'.chars) : o = o' := by
  have hnil : EndsWord [] := nofun
  exact (chars_append_inj h h' hnil hnil (by rw [heq])).1

/-- parentheses around texts, each of them that of an argument -/
theorem parenthesized_eq (head : String) : ∀ {texts : List String} {args : List Outline},
    List.Forall₂ (fun text o => text.toList = Outline.chars o) texts args →
      (parenthesized (head :: texts)).toList = (Outline.node head args).chars := by
  have htail : ∀ {texts : List String} {args : List Outline} (first : String),
      List.Forall₂ (fun text o => text.toList = Outline.chars o) texts args →
      (" ".intercalate (first :: texts)).toList ++ [')'] = first.toList ++ charsAll args := by
    intro texts args first h
    induction h generalizing first with
    | nil => rw [String.intercalate_singleton, charsAll]
    | @cons text o texts args htext _ ih =>
      rw [String.intercalate_cons_cons, String.toList_append, List.append_assoc, ih text, htext, String.toList_append,
        List.append_assoc]
      rfl
  intro texts args h
  rw [parenthesized, String.toList_append, String.toList_append, List.append_assoc]
  exact congrArg ('(' :: ·) (htail head h)

end Outline

/-! ## Outlines of trees -/

def Expr.outline : Expr → Outline
  | .literal v => .word v.prefixed
  | .unary operator operand => .node operator.lexeme [operand.outline]
  | .binary left operator right => .node operator.lexeme [left.outline, right.outline]
  | .logical left operator right => .node operator.lexeme [left.outline, right.outline]
  | .grouping inner => .node "group" [inner.outline]
  | .var name => .word name.lexeme
  | .assign name value => .node "=" [.word name.lexeme, value.outline]

mutual

def Stmt.outline : Stmt → Outline
  | .expression expr => .node ";" [expr.outline]
  | .print expr => .node "print" [expr.outline]
  | .declare name none => .node "var" [.word name.lexeme]
  | .declare name (some expr) => .node "var" [.word name.lexeme, expr.outline]
  | .assign name value => .node "=" [.word name.lexeme, value.outline]
  | .block body => .node "block" (Stmt.outlineAll body)
  | .branch condition yes no =>
    .node "if" (condition.outline :: yes.outline :: if no.isSkip then [] else [no.outline])
  | .skip => .node "nop" []

def Stmt.outlineAll : List Stmt → List Outline
  | [] => []
  | s :: rest => s.outline :: Stmt.outlineAll rest

end

open Outline (parenthesized_eq)

theorem Expr.prefixed_eq (e : Expr) : e.prefixed.toList = e.outline.chars := by
  induction e with
  | literal v => rfl
  | unary operator operand ih => exact parenthesized_eq _ (.cons ih .nil)
  | binary left operator right ihl ihr => exact parenthesized_eq _ (.cons ihl (.cons ihr .nil))
  | logical left operator right ihl ihr => exact parenthesized_eq _ (.cons ihl (.cons ihr .nil))
  | grouping inner ih => exact parenthesized_eq _ (.cons ih .nil)
  | var name => rfl
  | assign name value ih => exact parenthesized_eq _ (.cons rfl (.cons ih .nil))

namespace Stmt

/-- a conditional in prefix form, with a branch behind `else` or without -/
theorem prefixed_branch (condition : Expr) (yes no : Stmt) : (Stmt.branch condition yes no).prefixed =
    parenthesized ("if" :: condition.prefixed :: yes.prefixed :: if no.isSkip then [] else [no.prefixed]) := by
  cases no <;> rfl

mutual

theorem prefixed_eq : ∀ s : Stmt, s.prefixed.toList = s.outline.chars
  | .expression e | .print e => parenthesized_eq _ (.cons e.prefixed_eq .nil)
  | .declare _ none => parenthesized_eq _ (.cons rfl .nil)
  | .declare _ (some e) | .assign _ e => parenthesized_eq _ (.cons rfl (.cons e.prefixed_eq .nil))
  | .block body => parenthesized_eq _ (prefixedAll_eq body)
  | .branch condition yes no => by
    rw [prefixed_branch]
    refine parenthesized_eq _ (.cons condition.prefixed_eq (.cons (prefixed_eq yes) ?_))
    split_ifs
    · exact .nil
    · exact .cons (prefixed_eq no) .nil
  | .skip => parenthesized_eq _ .nil

theorem prefixedAll_eq : ∀ body : List Stmt,
    List.Forall₂ (fun text o => text.toList = Outline.chars o) (prefixedAll body) (outlineAll body)
  | [] => .nil
  | s :: rest => .cons (prefixed_eq s) (prefixedAll_eq rest)

end

end Stmt

/-! ## Moved tokens -/

section Moved

variable {f : Token → Token}

theorem Expr.outline_mapTokens (hf : Moves f) (e : Expr) : (e.mapTokens f).outline = e.outline := by
  induction e <;> simp_all [mapTokens, outline, hf.lexeme]

namespace Stmt

mutual

theorem outline_mapTokens (hf : Moves f) : ∀ s : Stmt, (s.mapTokens f).outline = s.outline
  | .expression e | .print e | .declare _ (some e) | .assign _ e => by
    simp [mapTokens, outline, hf.lexeme, Expr.outline_mapTokens hf e]
  | .declare _ none => by simp [mapTokens, outline, hf.lexeme]
  | .block body => by simp [mapTokens, outline, outlineAll_mapTokens hf body]
  | .branch condition yes no => by
    simp [mapTokens, outline, isSkip_mapTokens, Expr.outline_mapTokens hf, outline_mapTokens hf yes,
      outline_mapTokens hf no]
  | .skip => rfl

theorem outlineAll_mapTokens (hf : Moves f) : ∀ body : List Stmt, outlineAll (mapTokensAll f body) = outlineAll body
  | [] => rfl
  | s :: rest => by simp [mapTokensAll, outlineAll, outline_mapTokens hf s, outlineAll_mapTokens hf rest]

end

/-- a prefix form says nothing of lines -/
theorem prefixed_mapTokens (hf : Moves f) (s : Stmt) : (s.mapTokens f).prefixed = s.prefixed := by
  apply String.toList_injective
  rw [prefixed_eq, prefixed_eq, outline_mapTokens hf]

end Stmt

end Moved

end Scriptlet
