/-
Layout. The line of a token says where it stands and nothing else. Moving the tokens of a tree to other lines changes
neither its form nor its depth nor what it does when it runs, and the moved text spells the moved tree.

- `Stmt.executeAll_mapTokens`: moved programs run as before.
- `Stmt.spells_mapTokens`: moved texts spell moved programs.
-/
import Scriptlet.Proofs.Canonical
import Scriptlet.Session

namespace Scriptlet

/-- a change of tokens that keeps their kinds and texts -/
structure Moves (f : Token → Token) : Prop where
  kind : ∀ t, (f t).kind = t.kind
  lexeme : ∀ t, (f t).lexeme = t.lexeme

/-- the same token further down -/
def Token.down (k : Nat) (t : Token) : Token := { t with line := t.line + k }

theorem moves_down (k : Nat) : Moves (Token.down k) := ⟨fun _ => rfl, fun _ => rfl⟩

def Expr.mapTokens (f : Token → Token) : Expr → Expr
  | .literal value => .literal value
  | .unary operator operand => .unary (f operator) (operand.mapTokens f)
  | .binary left operator right => .binary (left.mapTokens f) (f operator) (right.mapTokens f)
  | .logical left operator right => .logical (left.mapTokens f) (f operator) (right.mapTokens f)
  | .grouping inner => .grouping (inner.mapTokens f)
  | .var name => .var (f name)
  | .assign name value => .assign (f name) (value.mapTokens f)

mutual

def Stmt.mapTokens (f : Token → Token) : Stmt → Stmt
  | .expression expr => .expression (expr.mapTokens f)
  | .print expr => .print (expr.mapTokens f)
  | .declare name none => .declare (f name) none
  | .declare name (some expr) => .declare (f name) (some (expr.mapTokens f))
  | .assign name value => .assign (f name) (value.mapTokens f)
  | .block body => .block (Stmt.mapTokensAll f body)
  | .branch condition yes no => .branch (condition.mapTokens f) (yes.mapTokens f) (no.mapTokens f)
  | .skip => .skip

def Stmt.mapTokensAll (f : Token → Token) : List Stmt → List Stmt
  | [] => []
  | s :: rest => s.mapTokens f :: Stmt.mapTokensAll f rest

end

def Mark.map (f : Token → Token) : Mark → Mark
  | .kept t => .kept (f t)
  | .any kind => .any kind
  | .impossible => .impossible

theorem Spells.map {f : Token → Token} (hf : Moves f) {marks : List Mark} {tokens : List Token}
    (h : Spells marks tokens) :
    Spells (marks.map (Mark.map f)) (tokens.map f) := by
  refine List.forall₂_map_left_iff.2 (List.forall₂_map_right_iff.2 (h.imp fun m t hm => ?_))
  cases m with
  | kept u => exact congrArg f hm
  | any kind => exact (hf.kind t).trans hm
  | impossible => exact hm

/-! ## Form and depth -/

section Form

variable {f : Token → Token}

namespace Expr

theorem spelling_mapTokens (e : Expr) : (e.mapTokens f).spelling = e.spelling.map (Mark.map f) := by
  induction e with
  | literal value =>
    rcases value with - | (- | -) | x | text <;> rfl
  | _ => simp_all [mapTokens, spelling, Mark.map]

theorem nesting_mapTokens (e : Expr) : (e.mapTokens f).nesting = e.nesting := by
  induction e <;> simp_all [mapTokens, nesting]

theorem fits_mapTokens (hf : Moves f) (e : Expr) (tier : Nat) : (e.mapTokens f).fits tier = e.fits tier := by
  induction e generalizing tier <;> simp_all [mapTokens, fits, hf.kind]

end Expr

namespace Stmt

theorem isSkip_mapTokens (s : Stmt) : (s.mapTokens f).isSkip = s.isSkip := by
  match s with
  | .declare _ none | .declare _ (some _) | .expression _ | .print _ | .assign _ _ | .block _ | .branch _ _ _
  | .skip => rfl

theorem isDeclaration_mapTokens (s : Stmt) : (s.mapTokens f).isDeclaration = s.isDeclaration := by
  match s with
  | .declare _ none | .declare _ (some _) | .expression _ | .print _ | .assign _ _ | .block _ | .branch _ _ _
  | .skip => rfl

theorem endsOpen_mapTokens : ∀ s : Stmt, (s.mapTokens f).endsOpen = s.endsOpen
  | .branch _ _ no => by rw [mapTokens, endsOpen, endsOpen, isSkip_mapTokens, endsOpen_mapTokens no]
  | .declare _ none | .declare _ (some _) | .expression _ | .print _ | .assign _ _ | .block _ | .skip => rfl

mutual

theorem spelling_mapTokens : ∀ s : Stmt, (s.mapTokens f).spelling = s.spelling.map (Mark.map f)
  | .expression e | .print e | .declare _ (some e) => by
    simp [mapTokens, spelling, Mark.map, Expr.spelling_mapTokens]
  | .declare _ none | .assign _ _ | .skip => rfl
  | .block body => by simp [mapTokens, spelling, Mark.map, spellingAll_mapTokens body]
  | .branch condition yes no => by
    simp only [mapTokens, spelling, isSkip_mapTokens, Expr.spelling_mapTokens, spelling_mapTokens yes,
      spelling_mapTokens no]
    split_ifs <;> simp [Mark.map]

theorem spellingAll_mapTokens : ∀ body : List Stmt,
    spellingAll (mapTokensAll f body) = (spellingAll body).map (Mark.map f)
  | [] => rfl
  | s :: rest => by
    simp [mapTokensAll, spellingAll, spelling_mapTokens s, spellingAll_mapTokens rest]

end

mutual

theorem nesting_mapTokens : ∀ s : Stmt, (s.mapTokens f).nesting = s.nesting
  | .expression e | .print e | .declare _ (some e) | .assign _ e => by
    simp [mapTokens, nesting, Expr.nesting_mapTokens]
  | .declare _ none | .skip => rfl
  | .block body => by simp [mapTokens, nesting, nestingAll_mapTokens body]
  | .branch condition yes no => by
    simp [mapTokens, nesting, Expr.nesting_mapTokens, nesting_mapTokens yes, nesting_mapTokens no]

theorem nestingAll_mapTokens : ∀ body : List Stmt, nestingAll (mapTokensAll f body) = nestingAll body
  | [] => rfl
  | s :: rest => by simp [mapTokensAll, nestingAll, nesting_mapTokens s, nestingAll_mapTokens rest]

end

mutual

theorem canonical_mapTokens (hf : Moves f) : ∀ s : Stmt, (s.mapTokens f).canonical = s.canonical
  | .expression e | .print e => by simp [mapTokens, canonical, Expr.fits_mapTokens hf]
  | .declare _ none | .declare _ (some e) => by simp [mapTokens, canonical, hf.kind, Expr.fits_mapTokens hf]
  | .assign _ _ | .skip => rfl
  | .block body => by simp [mapTokens, canonical, canonicalAll_mapTokens hf body]
  | .branch condition yes no => by
    simp [mapTokens, canonical, isSkip_mapTokens, isDeclaration_mapTokens, endsOpen_mapTokens, Expr.fits_mapTokens hf,
      canonical_mapTokens hf yes, canonical_mapTokens hf no]

theorem canonicalAll_mapTokens (hf : Moves f) :
    ∀ body : List Stmt, canonicalAll (mapTokensAll f body) = canonicalAll body
  | [] => rfl
  | s :: rest => by simp [mapTokensAll, canonicalAll, canonical_mapTokens hf s, canonicalAll_mapTokens hf rest]

end

/-- a moved text spells the moved program -/
theorem spells_mapTokens (hf : Moves f) {body : List Stmt} {tokens : List Token}
    (h : Spells (spellingAll body) tokens) :
    Spells (spellingAll (mapTokensAll f body)) (tokens.map f) := by
  rw [spellingAll_mapTokens]
  exact h.map hf

end Stmt

/-! ## Execution -/

theorem Expr.evaluate_mapTokens (hf : Moves f) (e : Expr) : (e.mapTokens f).evaluate = e.evaluate := by
  induction e with
  | unary operator operand ih => simp [mapTokens, applyUnary, hf.kind, ih]
  | binary left operator right ihl ihr =>
    simp [mapTokens, applyBinary, hf.kind, hf.lexeme, ihl, ihr]
  | logical left operator right ihl ihr =>
    have hsettles : settles (f operator) = settles operator := by
      funext v
      rw [settles, settles, hf.kind]
    simp [mapTokens, hsettles, ihl, ihr]
  | var name => simp [mapTokens, hf.lexeme]
  | assign name value ih => simp [mapTokens, hf.lexeme, ih]
  | _ => simp_all [mapTokens]

theorem Execution.value_mapTokens (hf : Moves f) (e : Expr) : Execution.value (e.mapTokens f) = Execution.value e := by
  funext s
  rw [Execution.value_apply, Execution.value_apply, Expr.evaluate_mapTokens hf]

mutual

theorem Stmt.execute_mapTokens (hf : Moves f) : ∀ s : Stmt, (s.mapTokens f).execute = s.execute
  | .expression e | .print e => by simp [mapTokens, Execution.value_mapTokens hf]
  | .declare _ none | .declare _ (some e) => by simp [mapTokens, hf.lexeme, Execution.value_mapTokens hf]
  | .assign name value => by
    have hassign := Execution.value_mapTokens hf (.assign name value)
    simp only [Expr.mapTokens] at hassign
    simp [mapTokens, hassign]
  | .skip => rfl
  | .block body => by simp [mapTokens, executeAll_mapTokens hf body]
  | .branch condition yes no => by
    simp [mapTokens, Execution.value_mapTokens hf, execute_mapTokens hf yes, execute_mapTokens hf no]

/-- moved programs run as before -/
theorem Stmt.executeAll_mapTokens (hf : Moves f) :
    ∀ body : List Stmt, executeAll (mapTokensAll f body) = executeAll body
  | [] => rfl
  | s :: rest => by simp [mapTokensAll, execute_mapTokens hf s, executeAll_mapTokens hf rest]

end

end Form

end Scriptlet
