import Reckoner.Parser.Grammar
import Reckoner.Proofs.Effect

/-!
# What the parser does, without fuel

The parser is a family of functions that take a fuel and thread a state. This module says once what
they can do. The primitive operations become functions from states to states, and `Reads` relates
what is to be read, a state, the outcome and the state after it, with one rule for every path
through the grammar, those that end in a syntax error included.

Two facts hold of everything that is read. `Reads.consumes` says that reading takes words off the
front of what is left and that the tokens of the result are among them, in order, and are all of
them as long as no fault is found. `Reads.length_rest_lt` says that a token that can begin what is
to be read is passed, so that reading never stands still.
-/
namespace Reckoner

namespace ParseState

/-- The current word. -/
def word (st : ParseState) : Word := st.rest.head?.getD st.last

/-- The current token. -/
def token (st : ParseState) : Token := st.word.token

/-- The token after the current one. -/
def ahead (st : ParseState) : Token := ((st.rest.drop 1).head?.getD st.last).token

/-- The state after the items of a word are created. -/
def creating (w : Word) (st : ParseState) : ParseState :=
  let fresh := w.items.filter (st.created ≤ ·.token.index)
  { st with created := st.created + fresh.length,
            log := (fresh.flatMap Item.steps).reverse ++ st.log }

/-- The state after a step is recorded. -/
def noted (s : Step) (st : ParseState) : ParseState := { st with log := s :: st.log }

/-- The state after the current token was looked at. -/
def looked (st : ParseState) : ParseState := st.creating st.word

/-- The state after the token after the current one was looked at. -/
def peeked (st : ParseState) : ParseState :=
  st.looked.creating ((st.rest.drop 1).head?.getD st.last)

/-- The state after the current token was passed. -/
def passed (rule : Rule) (st : ParseState) : ParseState :=
  { st.looked.noted (.consume st.token rule) with rest := st.rest.tail }.looked

/-- The state after it was looked for an assignment: a name is not enough to tell. -/
def probed (st : ParseState) : ParseState :=
  if st.token.kind = .identifier then st.looked.peeked else st.looked

/-- The state after a rule was entered. -/
def entered (rule : Rule) (st : ParseState) : ParseState :=
  st.looked.noted (.enter rule st.token)

/-- The state after a rule was left. -/
def exited (rule : Rule) (st : ParseState) : ParseState :=
  st.looked.noted (.exit rule st.token)

section
variable (st : ParseState)

@[simp] theorem rest_creating (w : Word) : (st.creating w).rest = st.rest := rfl
@[simp] theorem rest_noted (s : Step) : (st.noted s).rest = st.rest := rfl
@[simp] theorem rest_looked : st.looked.rest = st.rest := rfl
@[simp] theorem rest_peeked : st.peeked.rest = st.rest := rfl
@[simp] theorem rest_passed (rule : Rule) : (st.passed rule).rest = st.rest.tail := rfl
@[simp] theorem rest_entered (rule : Rule) : (st.entered rule).rest = st.rest := rfl
@[simp] theorem rest_exited (rule : Rule) : (st.exited rule).rest = st.rest := rfl

@[simp] theorem rest_probed : st.probed.rest = st.rest := by
  unfold probed; split <;> rfl

@[simp] theorem last_creating (w : Word) : (st.creating w).last = st.last := rfl
@[simp] theorem last_noted (s : Step) : (st.noted s).last = st.last := rfl
@[simp] theorem last_looked : st.looked.last = st.last := rfl
@[simp] theorem last_peeked : st.peeked.last = st.last := rfl
@[simp] theorem last_passed (rule : Rule) : (st.passed rule).last = st.last := rfl
@[simp] theorem last_entered (rule : Rule) : (st.entered rule).last = st.last := rfl
@[simp] theorem last_exited (rule : Rule) : (st.exited rule).last = st.last := rfl

@[simp] theorem last_probed : st.probed.last = st.last := by
  unfold probed; split <;> rfl

@[simp] theorem token_noted (s : Step) : (st.noted s).token = st.token := rfl
@[simp] theorem token_looked : st.looked.token = st.token := rfl
@[simp] theorem token_peeked : st.peeked.token = st.token := rfl
@[simp] theorem token_entered (rule : Rule) : (st.entered rule).token = st.token := rfl
@[simp] theorem token_exited (rule : Rule) : (st.exited rule).token = st.token := rfl

@[simp] theorem token_probed : st.probed.token = st.token := by
  unfold probed; split <;> rfl

/-- Passing a token makes the one after it the current one. -/
@[simp] theorem token_passed (rule : Rule) : (st.passed rule).token = st.ahead := by
  simp [token, ahead, word]

@[simp] theorem ahead_noted (s : Step) : (st.noted s).ahead = st.ahead := rfl
@[simp] theorem ahead_peeked : st.peeked.ahead = st.ahead := rfl
@[simp] theorem ahead_looked : st.looked.ahead = st.ahead := rfl
@[simp] theorem ahead_entered (rule : Rule) : (st.entered rule).ahead = st.ahead := rfl
@[simp] theorem ahead_probed : st.probed.ahead = st.ahead := by
  unfold probed; split <;> rfl

end

theorem word_mem (st : ParseState) : st.word ∈ st.last :: st.rest := by
  cases h : st.rest <;> simp [word, h]

theorem peeked_mem (st : ParseState) :
    (st.rest.drop 1).head?.getD st.last ∈ st.last :: st.rest := by
  rcases st.rest with _ | ⟨w, _ | ⟨w', ws⟩⟩ <;> simp

theorem token_of_rest_eq_nil {st : ParseState} (h : st.rest = []) : st.token = st.last.token := by
  simp [token, word, h]

theorem token_of_rest_eq_cons {st : ParseState} {w : Word} {ws : List Word}
    (h : st.rest = w :: ws) : st.token = w.token := by
  simp [token, word, h]

/-- What comes last is the end of input. -/
def Ends (st : ParseState) : Prop := st.last.token.kind = .eof

namespace Ends
variable {st : ParseState} {rule : Rule}

theorem noted {s : Step} (h : st.Ends) : (st.noted s).Ends := h
theorem looked (h : st.Ends) : st.looked.Ends := h
theorem peeked (h : st.Ends) : st.peeked.Ends := h
theorem entered (h : st.Ends) : (st.entered rule).Ends := h
theorem passed (h : st.Ends) : (st.passed rule).Ends := h
theorem probed (h : st.Ends) : st.probed.Ends := by
  rw [Ends, last_probed]
  exact h

/-- Only at the end of input is nothing left. -/
theorem rest_ne_nil (hend : st.Ends) (h : st.token.kind ≠ .eof) : st.rest ≠ [] := by
  intro hr
  rw [token_of_rest_eq_nil hr] at h
  exact h hend

theorem rest_ne_nil_of_ahead (hend : st.Ends) (h : st.ahead.kind ≠ .eof) : st.rest ≠ [] := by
  intro hr
  simp [ahead, hr] at h
  exact h hend

end Ends

end ParseState

namespace Parse

variable (st : ParseState)

@[simp] theorem record_apply (s : Step) : record s st = (.ok (), st.noted s) := rfl

@[simp] theorem note_apply (s : Step) : note .all s st = (.ok (), st.noted s) := by
  simp [note]

@[simp] theorem create_apply (w : Word) : create .all w st = (.ok (), st.creating w) := by
  have hsteps (steps : List Step) : steps.filter (Step.heard .all) = steps := by simp
  rw [ParseState.creating, ← hsteps (List.flatMap _ _)]
  rfl

@[simp] theorem current_apply : current .all st = (.ok st.token, st.looked) := by
  simp only [current, Effect.bind_apply, Effect.get_apply, create_apply]
  rfl

@[simp] theorem next_apply : next .all st = (.ok st.ahead, st.peeked) := by
  simp only [next, Effect.bind_apply, Effect.get_apply, current_apply, create_apply]
  rfl

@[simp] theorem consume_apply (rule : Rule) :
    consume .all rule st = (.ok st.token, st.passed rule) := by
  simp only [consume, Effect.bind_apply, note_apply, Effect.modify_apply, current_apply]
  rfl

@[simp] theorem mismatch_apply {α : Type} (expected : Expected) :
    (mismatch .all expected : Parse α) st =
      (.error (.mismatched st.token expected), st.looked) := by
  simp only [mismatch, Effect.bind_apply, current_apply]
  rfl

@[simp] theorem outcomeOf_apply {α : Type} (body : Parse α) :
    outcomeOf body st = (.ok (body st).1, (body st).2) := rfl

@[simp] theorem tell_apply (step : Token → Step) :
    tell .all step st = (.ok (), st.looked.noted (step st.token)) := by
  simp [tell]

/-- A rule is left in the state in which its body ends, whatever the outcome. -/
@[simp] theorem within_apply {α : Type} (rule : Rule) (body : Parse α) :
    within .all rule body st =
      ((body (st.entered rule)).1, (body (st.entered rule)).2.exited rule) := by
  have hentered : st.entered rule = st.looked.noted (.enter rule st.token) := rfl
  simp only [within, Effect.bind_apply, tell_apply, outcomeOf_apply, hentered]
  rcases (body _).1 with e | a
  · rfl
  · rfl

theorem expect_of_eq {kind : TokenKind} (rule : Rule) (h : st.token.kind = kind) :
    expect .all kind rule st = (.ok st.token, st.looked.passed rule) := by
  simp [expect, h]

theorem expect_of_ne {kind : TokenKind} (rule : Rule) (h : st.token.kind ≠ kind) :
    expect .all kind rule st = (.error (.mismatched st.token (.kind kind)), st.looked) := by
  simp [expect, h]

end Parse

/-! ## The rules -/

/-- The kinds of phrase that are read. -/
inductive Phrase where
  | expr | args | stmt | stmts

/-- What reading a phrase gives. -/
abbrev Phrase.Tree : Phrase → Type
  | expr => Expr
  | args => List Expr
  | stmt => Stmt
  | stmts => List Stmt

/-- What is to be read: a function of the grammar with its arguments. -/
inductive Goal : Phrase → Type where
  | expr (level : Nat) : Goal .expr
  | climb (level : Nat) (left : Expr) : Goal .expr
  | unary : Goal .expr
  | primary : Goal .expr
  | moreArgs : Goal .args
  | stmts (closing : TokenKind) (rule : Rule) : Goal .stmts
  | stmt : Goal .stmt
  | inspection (kind : Inspection) : Goal .stmt

/-- Whether a token extends an expression that stands on its left, at a level. -/
def TokenKind.Extends (level : Nat) (k : TokenKind) : Prop :=
  k = .question ∧ level ≤ Grammar.ternaryLevel ∨
    ∃ op, BinaryOp.ofToken? k = some op ∧ level ≤ op.precedence

/-- Whether a token is a literal. -/
def TokenKind.IsLiteral (k : TokenKind) : Prop := k = .number ∨ k = .string ∨ k = .yes ∨ k = .no

/-- Whether skipping ends at a token. -/
def TokenKind.EndsSkip (line : Nat) (closing : TokenKind) (t : Token) : Prop :=
  (t.kind = .eof ∨ t.kind = closing) ∨ line < t.pos.line ∧ t.kind.startsStmt

/-- Skipping after a syntax error. -/
inductive Skips (line : Nat) (closing : TokenKind) (rule : Rule) :
    ParseState → ParseState → Prop where
  | stop {st : ParseState} (h : TokenKind.EndsSkip line closing st.token) :
    Skips line closing rule st st.looked
  | step {st st' : ParseState} (h : ¬TokenKind.EndsSkip line closing st.token)
    (hs : Skips line closing rule (st.looked.passed rule) st') : Skips line closing rule st st'

open ParseState

/-- What reading can do. A syntax error ends the phrase that it occurs in, and so do those around
it up to the list of statements that the phrase stands in. -/
inductive Reads : {p : Phrase} → Goal p → ParseState → Except SyntaxError p.Tree → ParseState →
    Prop where
  | exprFail {level : Nat} {st st₁ : ParseState} {e : SyntaxError}
    (h : Reads .unary (st.entered .expr) (.error e) st₁) :
    Reads (.expr level) st (.error e) (st₁.exited .expr)
  | expr {level : Nat} {st st₁ st₂ : ParseState} {left : Expr} {o : Except SyntaxError Expr}
    (h : Reads .unary (st.entered .expr) (.ok left) st₁)
    (hc : Reads (.climb level left) st₁ o st₂) :
    Reads (.expr level) st o (st₂.exited .expr)
  | climbStop {level : Nat} {left : Expr} {st : ParseState} (h : ¬st.token.kind.Extends level) :
    Reads (.climb level left) st (.ok left) st.looked
  | binaryFail {level : Nat} {left : Expr} {st st₁ : ParseState} {op : BinaryOp}
    {e : SyntaxError} (hop : BinaryOp.ofToken? st.token.kind = some op)
    (hl : level ≤ op.precedence)
    (h : Reads (.expr (op.precedence + 1)) (st.looked.passed .expr) (.error e) st₁) :
    Reads (.climb level left) st (.error e) st₁
  | binary {level : Nat} {left right : Expr} {st st₁ st₂ : ParseState} {op : BinaryOp}
    {o : Except SyntaxError Expr} (hop : BinaryOp.ofToken? st.token.kind = some op)
    (hl : level ≤ op.precedence)
    (h : Reads (.expr (op.precedence + 1)) (st.looked.passed .expr) (.ok right) st₁)
    (hc : Reads (.climb level (.binary op left st.token right)) st₁ o st₂) :
    Reads (.climb level left) st o st₂
  | thenFail {level : Nat} {left : Expr} {st st₁ : ParseState} {e : SyntaxError}
    (hq : st.token.kind = .question) (hl : level ≤ Grammar.ternaryLevel)
    (h : Reads (.expr 0) (st.looked.passed .expr) (.error e) st₁) :
    Reads (.climb level left) st (.error e) st₁
  | colonFail {level : Nat} {left thenExpr : Expr} {st st₁ : ParseState}
    (hq : st.token.kind = .question) (hl : level ≤ Grammar.ternaryLevel)
    (h : Reads (.expr 0) (st.looked.passed .expr) (.ok thenExpr) st₁)
    (hcol : st₁.token.kind ≠ .colon) :
    Reads (.climb level left) st (.error (.mismatched st₁.token (.kind .colon))) st₁.looked
  | elseFail {level : Nat} {left thenExpr : Expr} {st st₁ st₂ : ParseState} {e : SyntaxError}
    (hq : st.token.kind = .question) (hl : level ≤ Grammar.ternaryLevel)
    (h : Reads (.expr 0) (st.looked.passed .expr) (.ok thenExpr) st₁)
    (hcol : st₁.token.kind = .colon)
    (he : Reads (.expr Grammar.ternaryLevel) (st₁.looked.passed .expr) (.error e) st₂) :
    Reads (.climb level left) st (.error e) st₂
  | ternary {level : Nat} {left thenExpr elseExpr : Expr} {st st₁ st₂ st₃ : ParseState}
    {o : Except SyntaxError Expr}
    (hq : st.token.kind = .question) (hl : level ≤ Grammar.ternaryLevel)
    (h : Reads (.expr 0) (st.looked.passed .expr) (.ok thenExpr) st₁)
    (hcol : st₁.token.kind = .colon)
    (he : Reads (.expr Grammar.ternaryLevel) (st₁.looked.passed .expr) (.ok elseExpr) st₂)
    (hc : Reads (.climb level (.ternary left st.token thenExpr st₁.token elseExpr)) st₂ o st₃) :
    Reads (.climb level left) st o st₃
  | unaryPrimary {st st₁ : ParseState} {o : Except SyntaxError Expr}
    (hop : UnaryOp.ofToken? st.token.kind = none) (h : Reads .primary st.looked o st₁) :
    Reads .unary st o st₁
  | unary {st st₁ : ParseState} {op : UnaryOp} {o : Except SyntaxError Expr}
    (hop : UnaryOp.ofToken? st.token.kind = some op)
    (h : Reads .unary (st.looked.passed .expr) o st₁) :
    Reads .unary st (o.map (.unary op st.token)) st₁
  | literal {st : ParseState} (hk : st.token.kind.IsLiteral) :
    Reads .primary st (.ok (.literal st.token))
      (((st.entered .primary).looked.passed .primary).exited .primary)
  | identifier {st : ParseState} (hk : st.token.kind = .identifier) :
    Reads .primary st (.ok (.identifier st.token))
      (((st.entered .primary).looked.passed .primary).exited .primary)
  | innerFail {st st₁ : ParseState} {e : SyntaxError} (hk : st.token.kind = .openParen)
    (h : Reads (.expr 0) ((st.entered .primary).looked.passed .primary) (.error e) st₁) :
    Reads .primary st (.error e) (st₁.exited .primary)
  | closeFail {st st₁ : ParseState} {inner : Expr} (hk : st.token.kind = .openParen)
    (h : Reads (.expr 0) ((st.entered .primary).looked.passed .primary) (.ok inner) st₁)
    (hcl : st₁.token.kind ≠ .closeParen) :
    Reads .primary st (.error (.mismatched st₁.token (.kind .closeParen)))
      (st₁.looked.exited .primary)
  | paren {st st₁ : ParseState} {inner : Expr} (hk : st.token.kind = .openParen)
    (h : Reads (.expr 0) ((st.entered .primary).looked.passed .primary) (.ok inner) st₁)
    (hcl : st₁.token.kind = .closeParen) :
    Reads .primary st (.ok (.paren st.token inner st₁.token))
      ((st₁.looked.passed .primary).exited .primary)
  | primaryEnd {st : ParseState} (hk : st.token.kind = .eof) :
    Reads .primary st (.error (.mismatched st.token .expression))
      ((st.entered .primary).looked.looked.exited .primary)
  | primaryFail {st : ParseState} (hlit : ¬st.token.kind.IsLiteral)
    (hid : st.token.kind ≠ .identifier) (hop : st.token.kind ≠ .openParen)
    (heof : st.token.kind ≠ .eof) (ha : st.ahead.kind.startsExpr = false) :
    Reads .primary st (.error (.mismatched st.token .expression))
      ((st.entered .primary).looked.peeked.looked.exited .primary)
  | skip {st st₁ : ParseState} {o : Except SyntaxError Expr} (hlit : ¬st.token.kind.IsLiteral)
    (hid : st.token.kind ≠ .identifier) (hop : st.token.kind ≠ .openParen)
    (heof : st.token.kind ≠ .eof) (ha : st.ahead.kind.startsExpr = true)
    (h : Reads .primary (((st.entered .primary).looked.peeked.noted
      (.fault (.extraneous st.token .expression))).passed .primary) o st₁) :
    Reads .primary st o (st₁.exited .primary)
  | argsStop {st : ParseState} (h : st.token.kind.startsExpr = false) :
    Reads .moreArgs st (.ok []) st.looked
  | argsAssign {st : ParseState} (hid : st.token.kind = .identifier)
    (ha : st.ahead.kind = .assign) : Reads .moreArgs st (.ok []) st.probed
  | argFail {st st₁ : ParseState} {e : SyntaxError} (hs : st.token.kind.startsExpr = true)
    (ha : ¬(st.token.kind = .identifier ∧ st.ahead.kind = .assign))
    (h : Reads (.expr 0) st.probed (.error e) st₁) : Reads .moreArgs st (.error e) st₁
  | arg {st st₁ st₂ : ParseState} {arg : Expr} {o : Except SyntaxError (List Expr)}
    (hs : st.token.kind.startsExpr = true)
    (ha : ¬(st.token.kind = .identifier ∧ st.ahead.kind = .assign))
    (h : Reads (.expr 0) st.probed (.ok arg) st₁) (hm : Reads .moreArgs st₁ o st₂) :
    Reads .moreArgs st (o.map (arg :: ·)) st₂
  | stmtsDone {closing : TokenKind} {rule : Rule} {st : ParseState}
    (h : st.token.kind = closing ∨ st.token.kind = .eof) :
    Reads (.stmts closing rule) st (.ok []) st.looked
  | extraneous {closing : TokenKind} {rule : Rule} {st st₁ : ParseState}
    {o : Except SyntaxError (List Stmt)} (h : ¬(st.token.kind = closing ∨ st.token.kind = .eof))
    (hs : st.token.kind.startsStmt = false)
    (hm : Reads (.stmts closing rule)
      ((st.looked.noted (.fault (.extraneous st.token .statement))).passed rule) o st₁) :
    Reads (.stmts closing rule) st o st₁
  | recover {closing : TokenKind} {rule : Rule} {st st₁ st₂ st₃ : ParseState} {e : SyntaxError}
    {o : Except SyntaxError (List Stmt)} (h : ¬(st.token.kind = closing ∨ st.token.kind = .eof))
    (hs : st.token.kind.startsStmt = true) (hst : Reads .stmt st.looked (.error e) st₁)
    (hsk : Skips e.pos.line closing rule (st₁.noted (.fault e)) st₂)
    (hm : Reads (.stmts closing rule) st₂ o st₃) : Reads (.stmts closing rule) st o st₃
  | stmts {closing : TokenKind} {rule : Rule} {st st₁ st₂ : ParseState} {s : Stmt}
    {o : Except SyntaxError (List Stmt)} (h : ¬(st.token.kind = closing ∨ st.token.kind = .eof))
    (hs : st.token.kind.startsStmt = true) (hst : Reads .stmt st.looked (.ok s) st₁)
    (hm : Reads (.stmts closing rule) st₁ o st₂) :
    Reads (.stmts closing rule) st (o.map (s :: ·)) st₂
  | assign {st st₁ : ParseState} {o : Except SyntaxError Expr}
    (hid : st.token.kind = .identifier) (ha : st.ahead.kind = .assign)
    (h : Reads (.expr 0) (((st.entered .stmt).probed.passed .stmt).looked.passed .stmt) o st₁) :
    Reads .stmt st (o.map (.assign st.token st.ahead)) (st₁.exited .stmt)
  | exprStmt {st st₁ : ParseState} {o : Except SyntaxError Expr}
    (ha : ¬(st.token.kind = .identifier ∧ st.ahead.kind = .assign))
    (hp : st.token.kind ≠ .print) (hv : st.token.kind ≠ .vars)
    (hi : ∀ kind, st.token.kind ≠ .inspect kind)
    (h : Reads (.expr 0) (st.entered .stmt).probed o st₁) :
    Reads .stmt st (o.map .expr) (st₁.exited .stmt)
  | printFail {st st₁ : ParseState} {e : SyntaxError} (hk : st.token.kind = .print)
    (h : Reads (.expr 0) ((st.entered .stmt).looked.passed .stmt) (.error e) st₁) :
    Reads .stmt st (.error e) (st₁.exited .stmt)
  | print {st st₁ st₂ : ParseState} {arg : Expr} {o : Except SyntaxError (List Expr)}
    (hk : st.token.kind = .print)
    (h : Reads (.expr 0) ((st.entered .stmt).looked.passed .stmt) (.ok arg) st₁)
    (hm : Reads .moreArgs st₁ o st₂) :
    Reads .stmt st (o.map (.print st.token arg)) (st₂.exited .stmt)
  | vars {st : ParseState} (hk : st.token.kind = .vars) :
    Reads .stmt st (.ok (.vars st.token))
      (((st.entered .stmt).looked.passed .stmt).exited .stmt)
  | inspect {st st₁ : ParseState} {kind : Inspection} {o : Except SyntaxError Stmt}
    (hk : st.token.kind = .inspect kind)
    (h : Reads (.inspection kind) (st.entered .stmt).looked o st₁) :
    Reads .stmt st o (st₁.exited .stmt)
  | blockFail {st st₁ : ParseState} {kind : Inspection} {body : List Stmt}
    (hb : st.ahead.kind = .openBrace)
    (h : Reads (.stmts .closeBrace .inspect)
      (((st.entered .inspect).passed .inspect).looked.passed .inspect) (.ok body) st₁)
    (hcl : st₁.token.kind ≠ .closeBrace) :
    Reads (.inspection kind) st (.error (.mismatched st₁.token (.kind .closeBrace)))
      (st₁.looked.exited .inspect)
  | block {st st₁ : ParseState} {kind : Inspection} {body : List Stmt}
    (hb : st.ahead.kind = .openBrace)
    (h : Reads (.stmts .closeBrace .inspect)
      (((st.entered .inspect).passed .inspect).looked.passed .inspect) (.ok body) st₁)
    (hcl : st₁.token.kind = .closeBrace) :
    Reads (.inspection kind) st (.ok (.block kind st.token st.ahead body st₁.token))
      ((st₁.looked.passed .inspect).exited .inspect)
  | wrap {st st₁ : ParseState} {kind inner : Inspection} {o : Except SyntaxError Stmt}
    (hi : st.ahead.kind = .inspect inner) (hk : kind ≠ .refactor)
    (h : Reads (.inspection inner) ((st.entered .inspect).passed .inspect).looked o st₁) :
    Reads (.inspection kind) st (o.map (.wrap kind st.token)) (st₁.exited .inspect)
  | inspectFail {st : ParseState} {kind : Inspection} (hb : st.ahead.kind ≠ .openBrace)
    (hi : ∀ inner, st.ahead.kind = .inspect inner → kind = .refactor) :
    Reads (.inspection kind) st (.error (.mismatched st.ahead (.kind .openBrace)))
      (((st.entered .inspect).passed .inspect).looked.looked.exited .inspect)

/-! ## What is consumed -/

/-- A state is reached from another one by passing words. The log only grows. -/
structure Reaches (st st' : ParseState) : Prop where
  rest : st'.rest <:+ st.rest
  last : st'.last = st.last
  log : st.log <:+ st'.log

/-- On the way from one state to another some tokens are taken, in order. If no fault is found,
none is passed without being taken. -/
structure Takes (st : ParseState) (ts : List Token) (st' : ParseState) : Prop
    extends Reaches st st' where
  words : ∃ ws, st.rest = ws ++ st'.rest ∧ ts.Sublist (ws.map Word.token) ∧
    (Step.faults st'.log = [] → ts = ws.map Word.token)

namespace Reaches
variable {st st' st'' : ParseState}

theorem refl (st : ParseState) : Reaches st st := ⟨List.suffix_refl _, rfl, List.suffix_refl _⟩

theorem trans (h : Reaches st st') (h' : Reaches st' st'') : Reaches st st'' :=
  ⟨h'.rest.trans h.rest, h'.last.trans h.last, h.log.trans h'.log⟩

theorem noted (h : Reaches st st') (s : Step) : Reaches st (st'.noted s) :=
  ⟨h.rest, h.last, h.log.trans (List.suffix_cons s _)⟩

theorem creating (h : Reaches st st') (w : Word) : Reaches st (st'.creating w) :=
  ⟨h.rest, h.last, h.log.trans (List.suffix_append _ _)⟩

theorem looked (h : Reaches st st') : Reaches st st'.looked := h.creating _

theorem peeked (h : Reaches st st') : Reaches st st'.peeked := h.looked.creating _

theorem probed (h : Reaches st st') : Reaches st st'.probed := by
  unfold ParseState.probed
  split
  · exact h.looked.peeked
  · exact h.looked

theorem entered (h : Reaches st st') (rule : Rule) : Reaches st (st'.entered rule) :=
  h.looked.noted _

theorem exited (h : Reaches st st') (rule : Rule) : Reaches st (st'.exited rule) :=
  h.looked.noted _

theorem passed (h : Reaches st st') (rule : Rule) : Reaches st (st'.passed rule) :=
  ⟨(List.tail_suffix _).trans h.rest, h.last,
    (h.looked.noted (.consume st'.token rule)).log.trans (List.suffix_append _ _)⟩

theorem ends (h : Reaches st st') (hend : st.Ends) : st'.Ends := by
  rw [Ends, h.last]
  exact hend

/-- A fault that was found stays in the log. -/
theorem faults_eq_nil (h : Reaches st st') (hf : Step.faults st'.log = []) :
    Step.faults st.log = [] :=
  List.eq_nil_of_suffix_nil (hf ▸ h.log.filterMap Step.fault?)

theorem faults_ne_nil {e : SyntaxError} (h : Reaches (st.noted (.fault e)) st') :
    Step.faults st'.log ≠ [] := by
  intro hf
  have := h.faults_eq_nil hf
  simp [ParseState.noted, Step.faults, Step.fault?] at this

theorem length_rest_le (h : Reaches st st') : st'.rest.length ≤ st.rest.length :=
  h.rest.length_le

theorem length_rest_lt {rule : Rule} (h : Reaches (st.passed rule) st') (hr : st.rest ≠ []) :
    st'.rest.length < st.rest.length := by
  have hle := h.length_rest_le
  have hpos := List.length_pos_iff.mpr hr
  rw [rest_passed, List.length_tail] at hle
  omega

end Reaches

namespace Takes
variable {st st' st'' : ParseState} {ts ts' : List Token}

theorem refl (st : ParseState) : Takes st [] st :=
  ⟨Reaches.refl st, [], rfl, .slnil, fun _ => rfl⟩

theorem trans (h : Takes st ts st') (h' : Takes st' ts' st'') : Takes st (ts ++ ts') st'' := by
  obtain ⟨ws, hr, hs, ha⟩ := h.words
  obtain ⟨ws', hr', hs', ha'⟩ := h'.words
  refine ⟨h.toReaches.trans h'.toReaches, ws ++ ws', ?_, ?_, fun hf => ?_⟩
  · rw [hr, hr', List.append_assoc]
  · rw [List.map_append]
    exact hs.append hs'
  · rw [List.map_append, ha (h'.faults_eq_nil hf), ha' hf]

/-- What passes no word takes no token. -/
theorem of_rest_eq (h : Takes st ts st') (hr : Reaches st' st'') (hrest : st''.rest = st'.rest) :
    Takes st ts st'' := by
  obtain ⟨ws, hw, hs, ha⟩ := h.words
  exact ⟨h.toReaches.trans hr, ws, hrest ▸ hw, hs, fun hf => ha (hr.faults_eq_nil hf)⟩

theorem looked (h : Takes st ts st') : Takes st ts st'.looked :=
  h.of_rest_eq (Reaches.refl _).looked rfl

theorem probed (h : Takes st ts st') : Takes st ts st'.probed :=
  h.of_rest_eq (Reaches.refl _).probed (rest_probed st')

theorem entered (h : Takes st ts st') (rule : Rule) : Takes st ts (st'.entered rule) :=
  h.of_rest_eq ((Reaches.refl _).entered rule) rfl

theorem exited (h : Takes st ts st') (rule : Rule) : Takes st ts (st'.exited rule) :=
  h.of_rest_eq ((Reaches.refl _).exited rule) rfl

/-- A token is passed as long as one is left. -/
theorem passed (h : Takes st ts st') (rule : Rule) (hr : st'.rest ≠ []) :
    Takes st (ts ++ [st'.token]) (st'.passed rule) := by
  obtain ⟨w, ws, hw⟩ := List.exists_cons_of_ne_nil hr
  refine h.trans ⟨(Reaches.refl st').passed rule, [w], ?_, ?_, fun _ => ?_⟩
  · rw [hw, rest_passed, hw]
    rfl
  · simp [token_of_rest_eq_cons hw]
  · simp [token_of_rest_eq_cons hw]

/-- After a fault tokens are passed without being taken. -/
theorem of_fault {st₁ : ParseState} {e : SyntaxError} (h : Reaches st st₁)
    (hr : Reaches (st₁.noted (.fault e)) st') : Takes st [] st' := by
  have hreaches := (h.noted (.fault e)).trans hr
  obtain ⟨ws, hw⟩ := hreaches.rest
  exact ⟨hreaches, ws, hw.symm, List.nil_sublist _, fun hf => absurd hf hr.faults_ne_nil⟩

end Takes

theorem Skips.reaches {line : Nat} {closing : TokenKind} {rule : Rule} {st st' : ParseState}
    (h : Skips line closing rule st st') : Reaches st st' := by
  induction h with
  | stop _ => exact (Reaches.refl _).looked
  | step _ _ ih => exact ((Reaches.refl _).looked.passed rule).trans ih

/-- The tokens of what was read. -/
def Phrase.tokens : (p : Phrase) → p.Tree → List Token
  | expr, e => e.tokens
  | args, es => es.flatMap Expr.tokens
  | stmt, s => s.tokens
  | stmts, ss => Stmt.tokensOf ss

/-- The tokens that were read before. -/
def Goal.prior {p : Phrase} : Goal p → List Token
  | climb _ left => left.tokens
  | _ => []

/-- The tokens of the result are those that were read before and those taken. -/
def Goal.Consumes {p : Phrase} (g : Goal p) (st : ParseState) :
    Except SyntaxError p.Tree → ParseState → Prop
  | .ok a, st' => ∃ ts, p.tokens a = g.prior ++ ts ∧ Takes st ts st'
  | .error _, st' => Reaches st st'

namespace Goal.Consumes
variable {p q : Phrase} {g : Goal p} {g' : Goal q} {st st₁ st₂ : ParseState}

theorem reaches {o : Except SyntaxError p.Tree} (h : g.Consumes st o st₁) : Reaches st st₁ := by
  cases o with
  | ok a => exact h.choose_spec.2.toReaches
  | error e => exact h

theorem exited {o : Except SyntaxError p.Tree} (h : g.Consumes st o st₁) (rule : Rule) :
    g.Consumes st o (st₁.exited rule) := by
  cases o with
  | ok a =>
    obtain ⟨ts, ha, ht⟩ := h
    exact ⟨ts, ha, ht.exited rule⟩
  | error e => exact Reaches.exited h rule

/-- What is read after some tokens have been taken. -/
theorem after {ts : List Token} {o : Except SyntaxError q.Tree} (f : q.Tree → p.Tree)
    (ht : Takes st ts st₁) (h : g'.Consumes st₁ o st₂)
    (hf : ∀ a us, q.tokens a = g'.prior ++ us → p.tokens (f a) = g.prior ++ (ts ++ us)) :
    g.Consumes st (o.map f) st₂ := by
  cases o with
  | ok a =>
    obtain ⟨us, ha, hu⟩ := h
    exact ⟨ts ++ us, hf a us ha, ht.trans hu⟩
  | error e => exact ht.toReaches.trans h

/-- What was read so far is read on. -/
theorem continued {ts : List Token} {g g' : Goal p} {o : Except SyntaxError p.Tree}
    (ht : Takes st ts st₁) (h : g'.Consumes st₁ o st₂) (hp : g'.prior = g.prior ++ ts) :
    g.Consumes st o st₂ := by
  cases o with
  | ok a =>
    obtain ⟨us, ha, hu⟩ := h
    refine ⟨ts ++ us, ?_, ht.trans hu⟩
    rw [ha, hp, List.append_assoc]
  | error e => exact ht.toReaches.trans h

end Goal.Consumes

theorem BinaryOp.ne_eof_of_ofToken? {k : TokenKind} {op : BinaryOp} (h : ofToken? k = some op) :
    k ≠ .eof := by
  rintro rfl
  simp [ofToken?] at h

theorem BinaryOp.ne_question_of_ofToken? {k : TokenKind} {op : BinaryOp}
    (h : ofToken? k = some op) : k ≠ .question := by
  rintro rfl
  simp [ofToken?] at h

theorem UnaryOp.ne_eof_of_ofToken? {k : TokenKind} {op : UnaryOp} (h : ofToken? k = some op) :
    k ≠ .eof := by
  rintro rfl
  simp [ofToken?] at h

theorem TokenKind.IsLiteral.ne_eof {k : TokenKind} (h : k.IsLiteral) : k ≠ .eof := by
  rintro rfl
  simp [IsLiteral] at h

/-- Reading passes words. The tokens of the result are among them, in order, and are all of them if
no fault was found. -/
theorem Reads.consumes {p : Phrase} {g : Goal p} {st st' : ParseState}
    {o : Except SyntaxError p.Tree} (h : Reads g st o st') (hend : st.Ends) :
    g.Consumes st o st' := by
  -- A result comes with the tokens taken for it; after a failure only the passing is kept.
  induction h with
  | exprFail _ ih =>
    exact (((Reaches.refl _).entered .expr).trans (ih hend.entered)).exited .expr
  | expr _ _ ih ihc =>
    obtain ⟨ts, hts, ht⟩ := ih hend.entered
    have hc := ihc (ht.ends hend.entered)
    exact (hc.continued (((Takes.refl _).entered .expr).trans ht) hts).exited .expr
  | climbStop _ => exact ⟨[], (List.append_nil _).symm, (Takes.refl _).looked⟩
  | binaryFail _ _ _ ih =>
    exact ((Reaches.refl _).looked.passed .expr).trans (ih hend.looked.passed)
  | binary hop _ _ _ ih ihc =>
    obtain ⟨ts, hts, ht⟩ := ih hend.looked.passed
    have hc := ihc (ht.ends hend.looked.passed)
    have hsign := (Takes.refl _).looked.passed .expr
      (hend.rest_ne_nil (BinaryOp.ne_eof_of_ofToken? hop))
    refine hc.continued (hsign.trans ht) ?_
    simp_all [Goal.prior, Phrase.tokens, Expr.tokens]
  | thenFail _ _ _ ih =>
    exact ((Reaches.refl _).looked.passed .expr).trans (ih hend.looked.passed)
  | colonFail _ _ _ _ ih =>
    exact (((Reaches.refl _).looked.passed .expr).trans (ih hend.looked.passed).reaches).looked
  | elseFail _ _ _ _ _ ih ihe =>
    have hr := ((Reaches.refl _).looked.passed .expr).trans (ih hend.looked.passed).reaches
    exact (hr.looked.passed .expr).trans (ihe (hr.ends hend).looked.passed)
  | ternary hq _ _ hcol _ _ ih ihe ihc =>
    obtain ⟨ts, hts, ht⟩ := ih hend.looked.passed
    have hend₁ := ht.ends hend.looked.passed
    obtain ⟨us, hus, hu⟩ := ihe hend₁.looked.passed
    have hc := ihc (hu.ends hend₁.looked.passed)
    have hquestion := (Takes.refl _).looked.passed .expr (hend.rest_ne_nil (by simp [hq]))
    have hcolon := (Takes.refl _).looked.passed .expr (hend₁.rest_ne_nil (by simp [hcol]))
    refine hc.continued ((hquestion.trans ht).trans (hcolon.trans hu)) ?_
    simp_all [Goal.prior, Phrase.tokens, Expr.tokens]
  | unaryPrimary _ _ ih => exact (ih hend.looked).continued (Takes.refl _).looked rfl
  | unary hop _ ih =>
    have hsign := (Takes.refl _).looked.passed .expr
      (hend.rest_ne_nil (UnaryOp.ne_eof_of_ofToken? hop))
    refine (ih hend.looked.passed).after _ hsign fun e us he => ?_
    simp_all [Goal.prior, Phrase.tokens, Expr.tokens]
  | literal hk =>
    exact ⟨_, rfl, (((Takes.refl _).entered .primary).looked.passed .primary
      (hend.rest_ne_nil hk.ne_eof)).exited .primary⟩
  | identifier hk =>
    exact ⟨_, rfl, (((Takes.refl _).entered .primary).looked.passed .primary
      (hend.rest_ne_nil (by simp [hk]))).exited .primary⟩
  | innerFail _ _ ih =>
    exact ((((Reaches.refl _).entered .primary).looked.passed .primary).trans
      (ih hend.entered.looked.passed)).exited .primary
  | closeFail _ _ _ ih =>
    exact ((((Reaches.refl _).entered .primary).looked.passed .primary).trans
      (ih hend.entered.looked.passed).reaches).looked.exited .primary
  | paren hk _ hcl ih =>
    obtain ⟨ts, hts, ht⟩ := ih hend.entered.looked.passed
    have hopening := ((Takes.refl _).entered .primary).looked.passed .primary
      (hend.rest_ne_nil (by simp [hk]))
    have hclosing := (Takes.refl _).looked.passed .primary
      ((ht.ends hend.entered.looked.passed).rest_ne_nil (by simp [hcl]))
    refine ⟨_, ?_, ((hopening.trans ht).trans hclosing).exited .primary⟩
    simp_all [Goal.prior, Phrase.tokens, Expr.tokens]
  | primaryEnd _ => exact ((Reaches.refl _).entered .primary).looked.looked.exited .primary
  | primaryFail _ _ _ _ _ =>
    exact ((Reaches.refl _).entered .primary).looked.peeked.looked.exited .primary
  | skip _ _ _ _ _ _ ih =>
    refine ((ih hend.entered.looked.peeked.noted.passed).continued ?_ rfl).exited .primary
    exact Takes.of_fault ((Reaches.refl _).entered .primary).looked.peeked
      ((Reaches.refl _).passed .primary)
  | argsStop _ => exact ⟨[], rfl, (Takes.refl _).looked⟩
  | argsAssign _ _ => exact ⟨[], rfl, (Takes.refl _).probed⟩
  | argFail _ _ _ ih => exact (Reaches.refl _).probed.trans (ih hend.probed)
  | arg _ _ _ _ ih ihm =>
    obtain ⟨ts, hts, ht⟩ := ih hend.probed
    have htaken := (Takes.refl _).probed.trans ht
    refine (ihm (htaken.ends hend)).after _ htaken fun es us hes => ?_
    simp_all [Goal.prior, Phrase.tokens]
  | stmtsDone _ => exact ⟨[], rfl, (Takes.refl _).looked⟩
  | extraneous _ _ _ ih =>
    refine (ih hend.looked.noted.passed).continued ?_ rfl
    exact Takes.of_fault (Reaches.refl _).looked ((Reaches.refl _).passed _)
  | recover _ _ _ hsk _ ihs ihm =>
    have hs := (Reaches.refl _).looked.trans (ihs hend.looked)
    have hfault := Takes.of_fault hs hsk.reaches
    exact (ihm (hfault.ends hend)).continued hfault rfl
  | stmts _ _ _ _ ihs ihm =>
    obtain ⟨ts, hts, ht⟩ := ihs hend.looked
    have htaken := (Takes.refl _).looked.trans ht
    refine (ihm (htaken.ends hend)).after _ htaken fun ss us hss => ?_
    simp_all [Goal.prior, Phrase.tokens, Stmt.tokensOf]
  | @assign st _ _ hid ha _ ih =>
    have hname := ((Takes.refl st).entered .stmt).probed.passed .stmt
      (hend.entered.probed.rest_ne_nil (by simp [hid]))
    have hequals := hname.looked.passed .stmt
      ((hname.ends hend).looked.rest_ne_nil (by simp [ha]))
    refine ((ih (hequals.ends hend)).after _ hequals fun e us he => ?_).exited .stmt
    simp_all [Goal.prior, Phrase.tokens, Stmt.tokens]
  | exprStmt _ _ _ _ _ ih =>
    refine ((ih hend.entered.probed).after _ ((Takes.refl _).entered .stmt).probed
      fun e us he => ?_).exited .stmt
    simp_all [Goal.prior, Phrase.tokens, Stmt.tokens]
  | printFail _ _ ih =>
    exact ((((Reaches.refl _).entered .stmt).looked.passed .stmt).trans
      (ih hend.entered.looked.passed)).exited .stmt
  | print hk _ _ ih ihm =>
    obtain ⟨ts, hts, ht⟩ := ih hend.entered.looked.passed
    have hkeyword := ((Takes.refl _).entered .stmt).looked.passed .stmt
      (hend.rest_ne_nil (by simp [hk]))
    have htaken := hkeyword.trans ht
    refine ((ihm (htaken.ends hend)).after _ htaken fun es us hes => ?_).exited .stmt
    simp_all [Goal.prior, Phrase.tokens, Stmt.tokens]
  | vars hk =>
    exact ⟨_, by simp [Phrase.tokens, Stmt.tokens, Goal.prior],
      (((Takes.refl _).entered .stmt).looked.passed .stmt
      (hend.rest_ne_nil (by simp [hk]))).exited .stmt⟩
  | inspect _ _ ih =>
    exact ((ih hend.entered.looked).continued
      ((Takes.refl _).entered .stmt).looked rfl).exited .stmt
  | blockFail _ _ _ ih =>
    exact (((((Reaches.refl _).entered .inspect).passed .inspect).looked.passed .inspect).trans
      (ih hend.entered.passed.looked.passed).reaches).looked.exited .inspect
  | block hb _ hcl ih =>
    obtain ⟨ts, hts, ht⟩ := ih hend.entered.passed.looked.passed
    have hkeyword := ((Takes.refl _).entered .inspect).passed .inspect
      (hend.rest_ne_nil_of_ahead (by simp [hb]))
    have hopening := hkeyword.looked.passed .inspect
      (hend.entered.passed.looked.rest_ne_nil (by simp [hb]))
    have hclosing := (Takes.refl _).looked.passed .inspect
      ((ht.ends hend.entered.passed.looked.passed).rest_ne_nil (by simp [hcl]))
    refine ⟨_, ?_, ((hopening.trans ht).trans hclosing).exited .inspect⟩
    simp_all [Goal.prior, Phrase.tokens, Stmt.tokens]
  | wrap hi _ _ ih =>
    have hkeyword := ((Takes.refl _).entered .inspect).passed .inspect
      (hend.rest_ne_nil_of_ahead (by simp [hi]))
    refine ((ih hend.entered.passed.looked).after _ hkeyword.looked
      fun s us hs => ?_).exited .inspect
    simp_all [Goal.prior, Phrase.tokens, Stmt.tokens]
  | inspectFail _ _ =>
    exact (((Reaches.refl _).entered .inspect).passed .inspect).looked.looked.exited .inspect

section
variable {closing : TokenKind} {rule : Rule} {st st₁ st₂ st₃ : ParseState} {e : SyntaxError}
  {o : Except SyntaxError (List Stmt)}

/-- A token that no statement begins with leaves a fault, whatever is read behind it. -/
theorem Reads.faults_ne_nil_of_extraneous (hend : st.Ends)
    (hm : Reads (.stmts closing rule) ((st.looked.noted (.fault e)).passed rule) o st₁) :
    Step.faults st₁.log ≠ [] :=
  (((Reaches.refl _).passed rule).trans (hm.consumes hend.looked.noted.passed).reaches).faults_ne_nil

/-- A statement that cannot be read leaves a fault, whatever is read behind it. -/
theorem Reads.faults_ne_nil_of_recover (hend : st.Ends) (hst : Reads .stmt st.looked (.error e) st₁)
    (hsk : Skips e.pos.line closing rule (st₁.noted (.fault e)) st₂)
    (hm : Reads (.stmts closing rule) st₂ o st₃) : Step.faults st₃.log ≠ [] := by
  have hend₁ := (hst.consumes hend.looked).reaches.ends hend.looked
  have hend₂ := hsk.reaches.ends hend₁.noted
  exact (hsk.reaches.trans (hm.consumes hend₂).reaches).faults_ne_nil

end

/-- Whether a token can begin what is to be read. -/
def Goal.Begins {p : Phrase} : Goal p → TokenKind → Prop
  | expr _, k | unary, k => k.startsExpr = true
  | primary, k => k.startsExpr = true ∧ UnaryOp.ofToken? k = none
  | stmt, k => k.startsStmt = true
  | inspection _, k => k ≠ .eof
  | _, _ => False

theorem TokenKind.startsExpr_of_startsStmt {k : TokenKind} (h : k.startsStmt = true)
    (hp : k ≠ .print) (hv : k ≠ .vars) (hi : ∀ kind, k ≠ .inspect kind) :
    k.startsExpr = true := by
  cases k <;> simp_all [startsStmt]

theorem not_begins_primary {k : TokenKind} (hlit : ¬k.IsLiteral) (hid : k ≠ .identifier)
    (hop : k ≠ .openParen) : ¬Goal.primary.Begins k := by
  cases k <;>
    simp_all [Goal.Begins, TokenKind.IsLiteral, TokenKind.startsExpr, UnaryOp.ofToken?]

/-- A token that can begin what is to be read is passed, also if reading fails later. -/
theorem Reads.length_rest_lt {p : Phrase} {g : Goal p} {st st' : ParseState}
    {o : Except SyntaxError p.Tree} (h : Reads g st o st') (hend : st.Ends)
    (hb : g.Begins st.token.kind) : st'.rest.length < st.rest.length := by
  induction h with
  | exprFail _ ih => exact ih hend.entered hb
  | expr h hc ih _ =>
    have hlt := ih hend.entered hb
    have hr := (h.consumes hend.entered).reaches
    have hle := (hc.consumes (hr.ends hend.entered)).reaches.length_rest_le
    simp only [rest_exited, rest_entered] at hlt ⊢
    omega
  | unaryPrimary hop _ ih => exact ih hend.looked ⟨hb, hop⟩
  | unary hop h _ =>
    exact (h.consumes hend.looked.passed).reaches.length_rest_lt
      (hend.rest_ne_nil (UnaryOp.ne_eof_of_ofToken? hop))
  | literal hk =>
    exact ((Reaches.refl _).exited .primary).length_rest_lt (hend.rest_ne_nil hk.ne_eof)
  | identifier hk =>
    exact ((Reaches.refl _).exited .primary).length_rest_lt (hend.rest_ne_nil (by simp [hk]))
  | innerFail hk h _ =>
    have hr := (h.consumes hend.entered.looked.passed).reaches
    exact (hr.exited .primary).length_rest_lt (hend.rest_ne_nil (by simp [hk]))
  | closeFail hk h _ _ =>
    have hr := (h.consumes hend.entered.looked.passed).reaches
    exact (hr.looked.exited .primary).length_rest_lt (hend.rest_ne_nil (by simp [hk]))
  | paren hk h _ _ =>
    have hr := ((h.consumes hend.entered.looked.passed).reaches.looked.passed .primary)
    exact (hr.exited .primary).length_rest_lt (hend.rest_ne_nil (by simp [hk]))
  | primaryEnd hk => simp [Goal.Begins, hk, TokenKind.startsExpr] at hb
  | primaryFail hlit hid hop _ _ => exact absurd hb (not_begins_primary hlit hid hop)
  | skip hlit hid hop _ _ _ _ => exact absurd hb (not_begins_primary hlit hid hop)
  | assign hid _ h _ =>
    have hr := ((Reaches.refl _).looked.passed .stmt).trans
      (h.consumes hend.entered.probed.passed.looked.passed).reaches
    have hlt := (hr.exited .stmt).length_rest_lt
      (hend.entered.probed.rest_ne_nil (by simp [hid]))
    simpa using hlt
  | exprStmt _ hp hv hi _ ih =>
    have hs := TokenKind.startsExpr_of_startsStmt hb hp hv hi
    simpa using ih hend.entered.probed (by simpa [Goal.Begins] using hs)
  | printFail hk h _ =>
    have hr := (h.consumes hend.entered.looked.passed).reaches
    exact (hr.exited .stmt).length_rest_lt (hend.rest_ne_nil (by simp [hk]))
  | print hk h hm _ _ =>
    have hr := (h.consumes hend.entered.looked.passed).reaches
    have hr₂ := hr.trans (hm.consumes (hr.ends hend.entered.looked.passed)).reaches
    exact (hr₂.exited .stmt).length_rest_lt (hend.rest_ne_nil (by simp [hk]))
  | vars hk =>
    exact ((Reaches.refl _).exited .stmt).length_rest_lt (hend.rest_ne_nil (by simp [hk]))
  | inspect hk _ ih => exact ih hend.entered.looked (by simp [Goal.Begins, hk])
  | blockFail _ h _ _ =>
    have hr := ((Reaches.refl _).looked.passed .inspect).trans
      (h.consumes hend.entered.passed.looked.passed).reaches
    exact (hr.looked.exited .inspect).length_rest_lt (hend.rest_ne_nil hb)
  | block _ h _ _ =>
    have hr := ((Reaches.refl _).looked.passed .inspect).trans
      (h.consumes hend.entered.passed.looked.passed).reaches
    exact ((hr.looked.passed .inspect).exited .inspect).length_rest_lt (hend.rest_ne_nil hb)
  | wrap _ _ h _ =>
    have hr := (Reaches.refl _).looked.trans (h.consumes hend.entered.passed.looked).reaches
    exact (hr.exited .inspect).length_rest_lt (hend.rest_ne_nil hb)
  | inspectFail _ _ =>
    exact ((Reaches.refl _).looked.looked.exited .inspect).length_rest_lt (hend.rest_ne_nil hb)
  | _ => exact absurd hb id

end Reckoner
