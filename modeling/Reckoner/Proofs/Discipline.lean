import Reckoner.Proofs.Sources

/-!
# The shape of what is read

A text determines its statements. This module says what the parser makes of a text in which it
finds no fault: the tokens of the statements are all tokens of the text that are not hidden, in
order; operators are grouped by how tightly they bind, and to the left; and no statement ends
before it has to.

The heart is `Reads.sound`. Extending an expression to the right keeps what was read so far at least
as tight as the operator that comes next, since the right operand before it would otherwise have
taken that operator.
-/
namespace Reckoner

/-! ## Expressions -/

namespace Expr

/-- Whether an expression is a conditional. -/
def isTernary : Expr → Bool
  | ternary _ _ _ _ _ => true
  | _ => false

/-- The operator of an expression that joins two operands. -/
def operator? : Expr → Option BinaryOp
  | binary op _ _ _ => some op
  | _ => none

/-- The tokens of an expression are of the kinds that its nodes ask for, and its operands outside of
parentheses bind tightly enough: to the left of an operator at least as tightly as it, to its
right more tightly. -/
def Formed : Expr → Prop
  | literal t => t.kind.IsLiteral
  | identifier t => t.kind = .identifier
  | paren opening inner closing =>
    opening.kind = .openParen ∧ inner.Formed ∧ closing.kind = .closeParen
  | unary op sign operand =>
    sign.kind = op.token ∧ operand.Formed ∧ operand.isTernary = false ∧ operand.operator? = none
  | binary op left sign right =>
    sign.kind = op.token ∧ left.Formed ∧ right.Formed ∧
      (left.isTernary = false ∧ ∀ q, left.operator? = some q → op.precedence ≤ q.precedence) ∧
      (right.isTernary = false ∧ ∀ q, right.operator? = some q → op.precedence < q.precedence)
  | ternary condition question thenExpr colon elseExpr =>
    question.kind = .question ∧ colon.kind = .colon ∧ condition.Formed ∧ thenExpr.Formed ∧
      elseExpr.Formed ∧ condition.isTernary = false

/-- The level of what binds more tightly than every operator between two operands. -/
def topLevel : Nat := 9

/-- How tightly an expression is bound together. -/
def level : Expr → Nat
  | ternary _ _ _ _ _ => Grammar.ternaryLevel
  | binary op _ _ _ => op.precedence
  | _ => topLevel

end Expr

theorem BinaryOp.ternaryLevel_lt_precedence (op : BinaryOp) :
    Grammar.ternaryLevel < op.precedence := by
  rcases op with (_ | _ | _ | _ | _) | (_ | _ | _ | _ | _ | _) | (_ | _) <;> decide

theorem BinaryOp.precedence_lt_topLevel (op : BinaryOp) : op.precedence < Expr.topLevel := by
  rcases op with (_ | _ | _ | _ | _) | (_ | _ | _ | _ | _ | _) | (_ | _) <;> decide

theorem BinaryOp.token_of_ofToken? {k : TokenKind} {op : BinaryOp} (h : ofToken? k = some op) :
    k = op.token := by
  cases k <;> simp [ofToken?] at h <;> subst h <;> rfl

theorem UnaryOp.token_of_ofToken? {k : TokenKind} {op : UnaryOp} (h : ofToken? k = some op) :
    k = op.token := by
  cases k <;> simp [ofToken?] at h <;> subst h <;> rfl

namespace Expr

theorem ternaryLevel_lt_level_iff (e : Expr) :
    Grammar.ternaryLevel < e.level ↔ e.isTernary = false := by
  cases e <;> simp [level, isTernary, topLevel, Grammar.ternaryLevel]
  exact BinaryOp.ternaryLevel_lt_precedence _

/-- Being bound as tightly as a level asks for, in words. -/
theorem le_level_iff {n : Nat} (hn : Grammar.ternaryLevel < n) (hle : n ≤ topLevel) (e : Expr) :
    n ≤ e.level ↔ e.isTernary = false ∧ ∀ q, e.operator? = some q → n ≤ q.precedence := by
  cases e <;> simp [level, isTernary, operator?, hle]
  omega

theorem formed_binary_iff {op : BinaryOp} {left right : Expr} {sign : Token} :
    (binary op left sign right).Formed ↔
      sign.kind = op.token ∧ left.Formed ∧ right.Formed ∧ op.precedence ≤ left.level ∧
        op.precedence < right.level := by
  have hl := le_level_iff op.ternaryLevel_lt_precedence
    (Nat.le_of_lt op.precedence_lt_topLevel) left
  have hr := le_level_iff (Nat.lt_succ_of_lt op.ternaryLevel_lt_precedence)
    op.precedence_lt_topLevel right
  rw [Formed, hl, ← Nat.succ_le_iff, hr]
  rfl

theorem formed_unary_iff {op : UnaryOp} {sign : Token} {operand : Expr} :
    (unary op sign operand).Formed ↔
      sign.kind = op.token ∧ operand.Formed ∧ operand.level = topLevel := by
  have h : operand.level = topLevel ↔ operand.isTernary = false ∧ operand.operator? = none := by
    cases operand with
    | binary op _ _ _ =>
      have := op.precedence_lt_topLevel
      simp only [level, isTernary, operator?]
      simp
      omega
    | _ => simp [level, isTernary, operator?, topLevel, Grammar.ternaryLevel]
  rw [Formed, h]

theorem formed_ternary_iff {condition thenExpr elseExpr : Expr} {question colon : Token} :
    (ternary condition question thenExpr colon elseExpr).Formed ↔
      question.kind = .question ∧ colon.kind = .colon ∧ condition.Formed ∧ thenExpr.Formed ∧
        elseExpr.Formed ∧ Grammar.ternaryLevel < condition.level := by
  rw [Formed, ternaryLevel_lt_level_iff]

end Expr

/-! ## Statements -/

namespace Stmt

/-- Whether a statement is an inspection. -/
def isInspection : Stmt → Bool
  | block _ _ _ _ _ | wrap _ _ _ => true
  | _ => false

mutual

/-- The tokens of a statement are of the kinds that it asks for, and so are those of what it holds.
What is to be simplified stands in braces. -/
def Formed : Stmt → Prop
  | assign name equals value => name.kind = .identifier ∧ equals.kind = .assign ∧ value.Formed
  | print keyword arg more => keyword.kind = .print ∧ ∀ e ∈ arg :: more, e.Formed
  | expr e => e.Formed
  | vars keyword => keyword.kind = .vars
  | block kind keyword opening body closing =>
    keyword.kind = .inspect kind ∧ opening.kind = .openBrace ∧ FormedAll body ∧
      closing.kind = .closeBrace
  | wrap kind keyword inner =>
    keyword.kind = .inspect kind ∧ kind ≠ .refactor ∧ inner.isInspection = true ∧ inner.Formed

/-- All of some statements are formed in this way. -/
def FormedAll : List Stmt → Prop
  | [] => True
  | s :: ss => s.Formed ∧ FormedAll ss

end

end Stmt

/-- Whether a token continues an expression in front of it. -/
def TokenKind.continuesExpr (k : TokenKind) : Bool :=
  k == .question || (BinaryOp.ofToken? k).isSome

/-- Whether tokens begin with an expression, rather than with an assignment or anything else. -/
def Token.beginExpr : List Token → Bool
  | t :: u :: _ => t.kind.startsExpr && !(t.kind == .identifier && u.kind == .assign)
  | [t] => t.kind.startsExpr
  | [] => false

/-- Whether tokens begin with one that continues an expression. -/
def Token.continueExpr : List Token → Bool
  | t :: _ => t.kind.continuesExpr
  | [] => false

namespace Stmt

mutual

/-- A statement could not have gone on, given the tokens after it: what ends in an expression is not
followed by an operator, and printing not by another expression. The same holds of the statements
that it holds. -/
def Maximal (after : List Token) : Stmt → Prop
  | assign _ _ _ | expr _ => Token.continueExpr after = false
  | print _ _ _ => Token.continueExpr after = false ∧ Token.beginExpr after = false
  | vars _ => True
  | block _ _ _ body closing => MaximalAll (closing :: after) body
  | wrap _ _ inner => inner.Maximal after

/-- None of some statements could have gone on, given the tokens after the last of them. -/
def MaximalAll (after : List Token) : List Stmt → Prop
  | [] => True
  | s :: ss => s.Maximal (tokensOf ss ++ after) ∧ MaximalAll after ss

end

end Stmt

theorem TokenKind.continuesExpr_eq_false_iff (k : TokenKind) :
    k.continuesExpr = false ↔ ¬k.Extends 0 := by
  cases h : BinaryOp.ofToken? k <;> simp [continuesExpr, Extends, h]

/-! ## What is read without a fault -/

namespace ParseState

/-- The tokens from the current one on, the end of input last. -/
def upcoming (st : ParseState) : List Token := st.rest.map Word.token ++ [st.last.token]

@[simp] theorem upcoming_exited (st : ParseState) (rule : Rule) :
    (st.exited rule).upcoming = st.upcoming := rfl

@[simp] theorem upcoming_looked (st : ParseState) : st.looked.upcoming = st.upcoming := rfl

@[simp] theorem upcoming_probed (st : ParseState) : st.probed.upcoming = st.upcoming := by
  simp [upcoming]

theorem upcoming_eq_cons {st : ParseState} (h : st.rest ≠ []) (rule : Rule) :
    st.upcoming = st.token :: (st.passed rule).upcoming := by
  obtain ⟨w, ws, hr⟩ := List.exists_cons_of_ne_nil h
  simp [upcoming, hr, token_of_rest_eq_cons hr]

theorem continueExpr_upcoming (st : ParseState) :
    Token.continueExpr st.upcoming = st.token.kind.continuesExpr := by
  cases h : st.rest with
  | nil => simp [upcoming, h, token_of_rest_eq_nil h, Token.continueExpr]
  | cons w ws => simp [upcoming, h, token_of_rest_eq_cons h, Token.continueExpr]

theorem Ends.beginExpr_upcoming {st : ParseState} (hend : st.Ends) :
    Token.beginExpr st.upcoming =
      (st.token.kind.startsExpr &&
        !(st.token.kind == .identifier && st.ahead.kind == .assign)) := by
  have hlast : st.last.token.kind = .eof := hend
  rcases h : st.rest with _ | ⟨w, _ | ⟨w', ws⟩⟩
  · simp [upcoming, h, token_of_rest_eq_nil h, Token.beginExpr, hlast, TokenKind.startsExpr]
  · simp [upcoming, h, token_of_rest_eq_cons h, Token.beginExpr, ahead]
  · simp [upcoming, h, token_of_rest_eq_cons h, Token.beginExpr, ahead]

end ParseState

theorem Takes.upcoming_eq {st st' : ParseState} {ts : List Token} (h : Takes st ts st')
    (hf : Step.faults st'.log = []) : st.upcoming = ts ++ st'.upcoming := by
  obtain ⟨ws, hr, -, hall⟩ := h.words
  rw [ParseState.upcoming, hr, List.map_append, hall hf, ParseState.upcoming, h.last,
    List.append_assoc]

/-- Whether an operator may follow an expression without being taken by its last operand. -/
def Expr.MayPrecede (e : Expr) (k : TokenKind) : Prop :=
  (∀ op, BinaryOp.ofToken? k = some op → op.precedence ≤ e.level) ∧
    (k = .question → Grammar.ternaryLevel < e.level)

theorem Expr.mayPrecede_of_level_eq {e : Expr} (h : e.level = topLevel) (k : TokenKind) :
    e.MayPrecede k := by
  refine ⟨fun op _ => ?_, fun _ => ?_⟩
  · exact h ▸ Nat.le_of_lt op.precedence_lt_topLevel
  · rw [h]
    decide

/-- What holds of a result, in the state after it. -/
def Goal.Holds {p : Phrase} (g : Goal p) (st : ParseState) (a : p.Tree) (st' : ParseState) : Prop :=
  match p, g, a with
  | _, expr level, e =>
    level ≤ Expr.topLevel →
      e.Formed ∧ level ≤ e.level ∧ ¬st'.token.kind.Extends level
  | _, climb level left, e =>
    left.Formed → level ≤ left.level → left.MayPrecede st.token.kind →
      e.Formed ∧ level ≤ e.level ∧ ¬st'.token.kind.Extends level
  | _, unary, e | _, primary, e => e.Formed ∧ e.level = Expr.topLevel
  | _, moreArgs, es =>
    ¬st.token.kind.Extends 0 →
      (∀ e ∈ es, e.Formed) ∧ ¬st'.token.kind.Extends 0 ∧ Token.beginExpr st'.upcoming = false
  | _, stmts closing _, ss =>
    Stmt.FormedAll ss ∧ Stmt.MaximalAll st'.upcoming ss ∧
      (st'.token.kind = closing ∨ st'.token.kind = .eof)
  | _, stmt, s => s.Formed ∧ s.Maximal st'.upcoming
  | _, inspection kind, s =>
    st.token.kind = .inspect kind → s.Formed ∧ s.isInspection = true ∧ s.Maximal st'.upcoming

/-- The result obeys the grammar if no fault was found. -/
def Goal.Sound {p : Phrase} (g : Goal p) (st : ParseState) :
    Except SyntaxError p.Tree → ParseState → Prop
  | .ok a, st' => Step.faults st'.log = [] → g.Holds st a st'
  | .error _, _ => True

open ParseState in
/-- What is read without a fault obeys the grammar and could not have gone on. -/
theorem Reads.sound {p : Phrase} {g : Goal p} {st st' : ParseState}
    {o : Except SyntaxError p.Tree} (h : Reads g st o st') (hend : st.Ends) :
    g.Sound st o st' := by
  induction h with
  | @expr level st st₁ st₂ left o h hc ih ihc =>
    have hr := (h.consumes hend.entered).reaches
    have hend₁ := hr.ends hend.entered
    have hr₂ := (hc.consumes hend₁).reaches
    cases o with
    | error e => trivial
    | ok e =>
      intro hf hle
      have hf₂ := ((Reaches.refl st₂).exited .expr).faults_eq_nil hf
      obtain ⟨hleft, htop⟩ := ih hend.entered (hr₂.faults_eq_nil hf₂)
      exact ihc hend₁ hf₂ hleft (htop ▸ hle) (Expr.mayPrecede_of_level_eq htop _)
  | climbStop h => exact fun _ hleft hle _ => ⟨hleft, hle, h⟩
  | @binary level left right st st₁ st₂ op o hop hl h hc ih ihc =>
    have hr := (h.consumes hend.looked.passed).reaches
    have hend₁ := hr.ends hend.looked.passed
    have hr₂ := (hc.consumes hend₁).reaches
    cases o with
    | error e => trivial
    | ok e =>
      intro hf hleft hle hmay
      obtain ⟨hright, hlt, hext⟩ := ih hend.looked.passed (hr₂.faults_eq_nil hf)
        op.precedence_lt_topLevel
      refine ihc hend₁ hf ?_ hl ⟨fun q hq => ?_, fun _ => op.ternaryLevel_lt_precedence⟩
      · exact Expr.formed_binary_iff.mpr
          ⟨BinaryOp.token_of_ofToken? hop, hleft, hright, hmay.1 op hop, hlt⟩
      · exact Nat.le_of_not_lt fun hq' => hext (.inr ⟨q, hq, hq'⟩)
  | @ternary level left thenExpr elseExpr st st₁ st₂ st₃ o hq hl h hcol he hc ih ihe ihc =>
    have hr := (h.consumes hend.looked.passed).reaches
    have hend₁ := (hr.ends hend.looked.passed).looked
    have hre := ((Reaches.refl st₁).looked.passed .expr).trans (he.consumes hend₁.passed).reaches
    have hend₂ := hre.ends hend₁
    have hr₃ := (hc.consumes hend₂).reaches
    cases o with
    | error e => trivial
    | ok e =>
      intro hf hleft hle hmay
      have hf₂ := hr₃.faults_eq_nil hf
      obtain ⟨hthen, -, -⟩ := ih hend.looked.passed (hre.faults_eq_nil hf₂) (Nat.zero_le _)
      obtain ⟨helse, -, hext⟩ := ihe hend₁.passed hf₂ (by decide)
      refine ihc hend₂ hf ?_ hl ⟨fun op hop => ?_, fun hquestion => ?_⟩
      · exact Expr.formed_ternary_iff.mpr ⟨hq, hcol, hleft, hthen, helse, hmay.2 hq⟩
      · exact absurd (.inr ⟨op, hop, Nat.le_of_lt op.ternaryLevel_lt_precedence⟩) hext
      · exact absurd (.inl ⟨hquestion, Nat.le_refl _⟩) hext
  | @unaryPrimary st st₁ o _ _ ih =>
    cases o with
    | error e => trivial
    | ok e => exact ih hend.looked
  | @unary st st₁ op o hop _ ih =>
    cases o with
    | error e => trivial
    | ok e =>
      intro hf
      obtain ⟨he, hlevel⟩ := ih hend.looked.passed hf
      exact ⟨Expr.formed_unary_iff.mpr ⟨UnaryOp.token_of_ofToken? hop, he, hlevel⟩, rfl⟩
  | literal hk => exact fun _ => ⟨hk, rfl⟩
  | identifier hk => exact fun _ => ⟨hk, rfl⟩
  | @paren st st₁ inner hk _ hcl ih =>
    intro hf
    have hf₁ := (((Reaches.refl st₁).looked.passed .primary).exited .primary).faults_eq_nil hf
    obtain ⟨hinner, -, -⟩ := ih hend.entered.looked.passed hf₁ (Nat.zero_le _)
    exact ⟨⟨hk, hinner, hcl⟩, rfl⟩
  | @skip st st₁ o _ _ _ _ _ h _ =>
    cases o with
    | error e => trivial
    | ok e =>
      intro hf
      -- The skipped token was recorded as a fault, and the log keeps it.
      have hr := ((Reaches.refl _).passed .primary).trans
        (h.consumes hend.entered.looked.peeked.noted.passed).reaches
      exact absurd hf (hr.exited .primary).faults_ne_nil
  | argsStop h =>
    intro _ hext
    refine ⟨by simp, hext, ?_⟩
    rw [upcoming_looked, hend.beginExpr_upcoming, h, Bool.false_and]
  | argsAssign hid ha =>
    intro _ hext
    refine ⟨by simp, by simpa using hext, ?_⟩
    rw [upcoming_probed, hend.beginExpr_upcoming, hid, ha]
    rfl
  | @arg st st₁ st₂ arg o hs ha h hm ih ihm =>
    have hend₁ := (h.consumes hend.probed).reaches.ends hend.probed
    have hr₂ := (hm.consumes hend₁).reaches
    cases o with
    | error e => trivial
    | ok es =>
      intro hf hext
      obtain ⟨harg, -, hext₁⟩ := ih hend.probed (hr₂.faults_eq_nil hf) (Nat.zero_le _)
      obtain ⟨hes, hends⟩ := ihm hend₁ hf hext₁
      exact ⟨List.forall_mem_cons.mpr ⟨harg, hes⟩, hends⟩
  | stmtsDone h => exact fun _ => ⟨trivial, trivial, h⟩
  | @extraneous closing rule st st₁ o _ _ hm _ =>
    cases o with
    | error e => trivial
    | ok ss =>
      intro hf
      exact absurd hf (Reads.faults_ne_nil_of_extraneous hend hm)
  | @recover closing rule st st₁ st₂ st₃ e o _ _ hst hsk hm _ _ =>
    cases o with
    | error e => trivial
    | ok ss =>
      intro hf
      exact absurd hf (Reads.faults_ne_nil_of_recover hend hst hsk hm)
  | @stmts closing rule st st₁ st₂ s o _ _ hst hm ihs ihm =>
    have hend₁ := (hst.consumes hend.looked).reaches.ends hend.looked
    have hconsumes := hm.consumes hend₁
    cases o with
    | error e => trivial
    | ok ss =>
      intro hf
      obtain ⟨hs, hmax⟩ := ihs hend.looked (hconsumes.reaches.faults_eq_nil hf)
      obtain ⟨hss, hmaxAll, hclosing⟩ := ihm hend₁ hf
      obtain ⟨ts, hts, htaken⟩ := hconsumes
      have htokens : Stmt.tokensOf ss = ts := hts
      refine ⟨⟨hs, hss⟩, ⟨?_, hmaxAll⟩, hclosing⟩
      rw [htokens, ← htaken.upcoming_eq hf]
      exact hmax
  | @assign st st₁ o hid ha h ih =>
    cases o with
    | error e => trivial
    | ok e =>
      intro hf
      have hf₁ := ((Reaches.refl st₁).exited .stmt).faults_eq_nil hf
      obtain ⟨he, -, hext⟩ :=
        ih hend.entered.probed.passed.looked.passed hf₁ (Nat.zero_le _)
      refine ⟨⟨hid, ha, he⟩, ?_⟩
      rw [Stmt.Maximal, upcoming_exited, continueExpr_upcoming]
      exact (TokenKind.continuesExpr_eq_false_iff _).mpr hext
  | @exprStmt st st₁ o _ _ _ _ h ih =>
    cases o with
    | error e => trivial
    | ok e =>
      intro hf
      have hf₁ := ((Reaches.refl st₁).exited .stmt).faults_eq_nil hf
      obtain ⟨he, -, hext⟩ := ih hend.entered.probed hf₁ (Nat.zero_le _)
      refine ⟨he, ?_⟩
      rw [Stmt.Maximal, upcoming_exited, continueExpr_upcoming]
      exact (TokenKind.continuesExpr_eq_false_iff _).mpr hext
  | @print st st₁ st₂ arg o hk h hm ih ihm =>
    have hr := (h.consumes hend.entered.looked.passed).reaches
    have hend₁ := hr.ends hend.entered.looked.passed
    have hr₂ := (hm.consumes hend₁).reaches
    cases o with
    | error e => trivial
    | ok es =>
      intro hf
      have hf₂ := ((Reaches.refl st₂).exited .stmt).faults_eq_nil hf
      obtain ⟨harg, -, hext⟩ :=
        ih hend.entered.looked.passed (hr₂.faults_eq_nil hf₂) (Nat.zero_le _)
      obtain ⟨hes, hext', hbegin⟩ := ihm hend₁ hf₂ hext
      refine ⟨⟨hk, List.forall_mem_cons.mpr ⟨harg, hes⟩⟩, ?_, hbegin⟩
      rw [upcoming_exited, continueExpr_upcoming]
      exact (TokenKind.continuesExpr_eq_false_iff _).mpr hext'
  | vars hk => exact fun _ => ⟨hk, trivial⟩
  | @inspect st st₁ kind o hk h ih =>
    cases o with
    | error e => trivial
    | ok s =>
      intro hf
      have hf₁ := ((Reaches.refl st₁).exited .stmt).faults_eq_nil hf
      obtain ⟨hs, -, hmax⟩ := ih hend.entered.looked hf₁ hk
      exact ⟨hs, hmax⟩
  | @block st st₁ kind body hb h hcl ih =>
    intro hf hk
    have hf₁ := (((Reaches.refl st₁).looked.passed .inspect).exited .inspect).faults_eq_nil hf
    obtain ⟨hbody, hmax, -⟩ := ih hend.entered.passed.looked.passed hf₁
    have hr := (h.consumes hend.entered.passed.looked.passed).reaches
    have hne := (hr.ends hend.entered.passed.looked.passed).rest_ne_nil (by simp [hcl])
    refine ⟨⟨hk, hb, hbody, hcl⟩, rfl, ?_⟩
    rw [Stmt.Maximal, upcoming_exited, ← token_looked, ← upcoming_eq_cons (by simpa using hne)]
    exact hmax
  | @wrap st st₁ kind inner o hi hk h ih =>
    cases o with
    | error e => trivial
    | ok s =>
      intro hf hkind
      have hf₁ := ((Reaches.refl st₁).exited .inspect).faults_eq_nil hf
      obtain ⟨hs, hins, hmax⟩ := ih hend.entered.passed.looked hf₁ (by simpa using hi)
      exact ⟨⟨hkind, hk, hins, hs⟩, rfl, hmax⟩
  | _ => trivial

namespace Parser

theorem readSource_sound (rule : Rule) (t : Text)
    (herrors : ((ofText t).readSource rule).1.errors = []) :
    Stmt.tokensOf ((ofText t).readSource rule).1.program.stmts = (Lexed.ofText t).visible ∧
      Stmt.FormedAll ((ofText t).readSource rule).1.program.stmts ∧
      Stmt.MaximalAll [(Lexed.ofText t).last.token]
        ((ofText t).readSource rule).1.program.stmts := by
  have hlexed := lexed_ofText t
  have hlast := last_start rule (ofText t)
  have hend := ends_start_ofText rule t
  obtain ⟨ss, st, hread, hprogram, hlog⟩ := exists_reads hend
  -- The last step of a source finds no fault, so none was found before it.
  have hclosed : Reaches st (st.closed rule) := ((Reaches.refl st).passed rule).exited rule
  have hf : Step.faults st.log = [] :=
    hclosed.faults_eq_nil (List.reverse_eq_nil_iff.mp (hlog.symm.trans herrors))
  obtain ⟨ts, hts, htaken⟩ := hread.consumes hend
  obtain ⟨hformed, hmaximal, -⟩ := hread.sound hend hf
  have hrest := rest_eq_nil_of_reads hread
  have hupcoming : st.upcoming = [(Lexed.ofText t).last.token] := by
    simp [ParseState.upcoming, hrest, htaken.last, hlast, hlexed]
  have htokens : Stmt.tokensOf ss = ts := hts
  have hvisible := htaken.upcoming_eq hf
  rw [ParseState.upcoming, map_token_rest_start, hlast, hupcoming, hlexed] at hvisible
  rw [hprogram]
  exact ⟨htokens.trans (List.append_cancel_right hvisible).symm, hformed, hupcoming ▸ hmaximal⟩

end Parser

/-- A text in which no fault is found is read as a whole. Its statements hold all its tokens that
are not hidden, in order, they obey the grammar, and none of them could have gone on. -/
theorem parse_sound {t : Text} {parsed : Parsed}
    (hp : parsed = parseProgram t ∨ parsed = parseEntry t) (herrors : parsed.errors = []) :
    Stmt.tokensOf parsed.program.stmts = (Lexed.ofText t).visible ∧
      Stmt.FormedAll parsed.program.stmts ∧
      Stmt.MaximalAll [(Lexed.ofText t).last.token] parsed.program.stmts := by
  rcases hp with rfl | rfl
  · exact Parser.readSource_sound .program t herrors
  · exact Parser.readSource_sound .entry t herrors

theorem parse_sound_nested :
    let t : Text :=
      "print a - -2 * (b ? 1 : 2) ^ 3 'x' y = 1 < 2 ? 3 : 4 tree gui \x7b print 1 vars \x7d"
    (parseProgram t).errors = [] ∧
      Stmt.tokensOf (parseProgram t).program.stmts = (Lexed.ofText t).visible ∧
      Stmt.FormedAll (parseProgram t).program.stmts ∧
      Stmt.MaximalAll [(Lexed.ofText t).last.token] (parseProgram t).program.stmts := by
  intro t
  have herrors : (parseProgram t).errors = [] := by decide +kernel
  exact ⟨herrors, parse_sound (.inl rfl) herrors⟩

end Reckoner
