import Reckoner.Proofs.Reading

/-!
# The parser follows the rules

The functions of the grammar stop when their fuel runs out. This module shows that with the fuel
that the parser gives itself they never do: `Reads.run_eq` says that the rules leave only the
outcome of the function, and `reads_run` that every run follows the rules. Everything else about
the parser is proved from the rules.
-/
namespace Reckoner
open ParseState

namespace Goal

/-- The function of the grammar, with a fuel. -/
def run {p : Phrase} : Goal p → Nat → Parse p.Tree
  | expr level, fuel => Grammar.expr .all fuel level
  | climb level left, fuel => Grammar.climb .all fuel level left
  | unary, fuel => Grammar.unary .all fuel
  | primary, fuel => Grammar.primary .all fuel
  | moreArgs, fuel => Grammar.moreArgs .all fuel
  | stmts closing rule, fuel => Grammar.stmts .all fuel closing rule
  | stmt, fuel => Grammar.stmt .all fuel
  | inspection kind, fuel => Grammar.inspection .all fuel kind

/-- The fuel that is used up before a token is passed. -/
def cost {p : Phrase} : Goal p → Nat
  | climb _ _ | primary => 1
  | unary => 2
  | expr _ | inspection _ => 3
  | moreArgs | stmt => 4
  | stmts _ _ => 5

/-- A fuel that suffices. -/
def need {p : Phrase} (g : Goal p) (st : ParseState) : Nat := g.cost + 4 * st.rest.length

section
variable {p q : Phrase} {g : Goal p} {g' : Goal q} {st st' : ParseState} {fuel : Nat}

theorem exists_eq_succ (hf : g.need st ≤ fuel) : ∃ n, fuel = n + 1 := by
  refine ⟨fuel - 1, ?_⟩
  cases g <;> simp only [need, cost] at hf <;> omega

/-- A call that passes no token. -/
theorem need_le_of_le (hf : g.need st ≤ fuel + 1) (hr : st'.rest.length ≤ st.rest.length)
    (hc : g'.cost < g.cost) : g'.need st' ≤ fuel := by
  simp only [need] at hf ⊢
  omega

/-- A call after a token was passed. -/
theorem need_le_of_lt (hf : g.need st ≤ fuel + 1) (hr : st'.rest.length < st.rest.length)
    (hc : g'.cost ≤ g.cost + 3) : g'.need st' ≤ fuel := by
  simp only [need] at hf ⊢
  omega

end
end Goal

theorem Skips.synchronize_eq {line : Nat} {closing : TokenKind} {rule : Rule}
    {st st' : ParseState} (h : Skips line closing rule st st')
    (hend : st.Ends) (fuel : Nat) (hf : st.rest.length < fuel) :
    Grammar.synchronize .all fuel line closing rule st = (.ok (), st') := by
  induction h generalizing fuel with
  | stop h =>
    obtain ⟨n, rfl⟩ := Nat.exists_eq_succ_of_ne_zero (Nat.ne_zero_of_lt hf)
    rcases h with h | h <;> simp [Grammar.synchronize, h]
  | @step st _ h _ ih =>
    obtain ⟨n, rfl⟩ := Nat.exists_eq_succ_of_ne_zero (Nat.ne_zero_of_lt hf)
    simp only [TokenKind.EndsSkip, not_or] at h
    have hlt : (st.looked.passed rule).rest.length < st.rest.length :=
      (Reaches.refl _).length_rest_lt (hend.rest_ne_nil h.1.1)
    have hs := ih hend.looked.passed n (by omega)
    simp [Grammar.synchronize, h, hs]

/-- The function `primary` at a token that begins none of its forms. -/
theorem Grammar.primary_of_ne {st : ParseState} {n : Nat} (hlit : ¬st.token.kind.IsLiteral)
    (hid : st.token.kind ≠ .identifier) (hop : st.token.kind ≠ .openParen)
    (heof : st.token.kind ≠ .eof) :
    Grammar.primary .all (n + 1) st =
      Parse.within .all .primary (do
        let t ← Parse.current .all
        if (← Parse.next .all).kind.startsExpr then
          Parse.record (.fault (.extraneous t .expression))
          let _ ← Parse.consume .all .primary
          Grammar.primary .all n
        else
          Parse.mismatch .all .expression) st := by
  cases hk : st.token.kind with
  | number | string | yes | no => simp [TokenKind.IsLiteral, hk] at hlit
  | identifier => exact absurd hk hid
  | openParen => exact absurd hk hop
  | eof => exact absurd hk heof
  | _ =>
    simp only [Grammar.primary, Parse.within_apply, Effect.bind_apply, Parse.current_apply,
      token_entered, hk]

/-- The function `moreArgs` at a token that begins another argument. -/
theorem Grammar.moreArgs_of_startsExpr {st : ParseState} {n : Nat}
    (hs : st.token.kind.startsExpr = true)
    (ha : ¬(st.token.kind = .identifier ∧ st.ahead.kind = .assign)) :
    Grammar.moreArgs .all (n + 1) st =
      (do
        let arg ← Grammar.expr .all n 0
        return arg :: (← Grammar.moreArgs .all n)) st.probed := by
  by_cases hid : st.token.kind = .identifier
  · have hne : st.ahead.kind ≠ .assign := fun h => ha ⟨hid, h⟩
    simp [Grammar.moreArgs, ParseState.probed, hid, hne, TokenKind.startsExpr]
  · simp [Grammar.moreArgs, ParseState.probed, hs, hid]

/-- The function `stmt` at a name with an equals sign behind it. -/
theorem Grammar.stmt_of_assign {st : ParseState} {n : Nat} (hid : st.token.kind = .identifier)
    (ha : st.ahead.kind = .assign) :
    Grammar.stmt .all (n + 1) st =
      (((Grammar.expr .all n 0 (((st.entered .stmt).probed.passed .stmt).looked.passed .stmt)).1.map
          (.assign st.token st.ahead)),
        (Grammar.expr .all n 0
          (((st.entered .stmt).probed.passed .stmt).looked.passed .stmt)).2.exited .stmt) := by
  have hprobed : (st.entered .stmt).probed = (st.entered .stmt).looked.peeked := by
    simp [ParseState.probed, hid]
  have hexpect := Parse.expect_of_eq ((st.entered .stmt).looked.peeked.passed .stmt) .stmt
    (show _ = .assign by simp [ha])
  simp [Grammar.stmt, Grammar.assignment, hid, ha, hprobed, hexpect]

/-- The function `stmt` at a token that begins a bare expression. -/
theorem Grammar.stmt_of_ne {st : ParseState} {n : Nat}
    (ha : ¬(st.token.kind = .identifier ∧ st.ahead.kind = .assign))
    (hp : st.token.kind ≠ .print) (hv : st.token.kind ≠ .vars)
    (hi : ∀ kind, st.token.kind ≠ .inspect kind) :
    Grammar.stmt .all (n + 1) st =
      (((Grammar.expr .all n 0 (st.entered .stmt).probed).1.map .expr),
        (Grammar.expr .all n 0 (st.entered .stmt).probed).2.exited .stmt) := by
  by_cases hid : st.token.kind = .identifier
  · have hne : st.ahead.kind ≠ .assign := fun h => ha ⟨hid, h⟩
    simp [Grammar.stmt, ParseState.probed, hid, hne]
  · have hstmt : Grammar.stmt .all (n + 1) st = Parse.within .all .stmt (do
        let _ ← Parse.current .all
        return .expr (← Grammar.expr .all n 0)) st := by
      cases hk : st.token.kind with
      | identifier => exact absurd hk hid
      | print => exact absurd hk hp
      | vars => exact absurd hk hv
      | inspect kind => exact absurd hk (hi kind)
      | _ =>
        simp only [Grammar.stmt, Parse.within_apply, Effect.bind_apply, Parse.current_apply,
          token_entered, hk]
    rw [hstmt]
    simp [ParseState.probed, hid]

/-- The rules leave only one outcome: that of the function of the grammar, if it has the fuel. -/
theorem Reads.run_eq {p : Phrase} {g : Goal p} {st st' : ParseState}
    {o : Except SyntaxError p.Tree} (h : Reads g st o st') (hend : st.Ends)
    (fuel : Nat) (hf : g.need st ≤ fuel) : g.run fuel st = (o, st') := by
  -- Every premise is run with one unit of fuel less. It needs less, as its goal is a simpler one at
  -- the same word, or as a word was passed before it.
  induction h generalizing fuel with
  | exprFail _ ih =>
    obtain ⟨n, rfl⟩ := Goal.exists_eq_succ hf
    have h₁ := ih hend.entered n (Goal.need_le_of_le hf (by simp) (by simp [Goal.cost]))
    simp only [Goal.run] at h₁ ⊢
    simp [Grammar.expr, h₁]
  | expr h _ ih ihc =>
    obtain ⟨n, rfl⟩ := Goal.exists_eq_succ hf
    have hr := (h.consumes hend.entered).reaches
    have h₁ := ih hend.entered n (Goal.need_le_of_le hf (by simp) (by simp [Goal.cost]))
    have h₂ := ihc (hr.ends hend.entered) n
      (Goal.need_le_of_le hf hr.length_rest_le (by simp [Goal.cost]))
    simp only [Goal.run] at h₁ h₂ ⊢
    simp [Grammar.expr, h₁, h₂]
  | @climbStop level _ st h =>
    obtain ⟨n, rfl⟩ := Goal.exists_eq_succ hf
    have hq : ¬(st.token.kind = .question ∧ level ≤ Grammar.ternaryLevel) := h ∘ .inl
    cases hop : BinaryOp.ofToken? st.token.kind with
    | none => simp [Goal.run, Grammar.climb, hq, hop]
    | some op =>
      have hl : op.precedence < level := Nat.lt_of_not_le fun hl => h (.inr ⟨op, hop, hl⟩)
      simp [Goal.run, Grammar.climb, hq, hop, hl]
  | binaryFail hop hl _ ih =>
    obtain ⟨n, rfl⟩ := Goal.exists_eq_succ hf
    have hne := hend.rest_ne_nil (BinaryOp.ne_eof_of_ofToken? hop)
    have h₁ := ih hend.looked.passed n
      (Goal.need_le_of_lt hf ((Reaches.refl _).length_rest_lt hne) (by simp [Goal.cost]))
    simp only [Goal.run] at h₁ ⊢
    simp [Grammar.climb, hop, BinaryOp.ne_question_of_ofToken? hop, Nat.not_lt.mpr hl, h₁]
  | binary hop hl h _ ih ihc =>
    obtain ⟨n, rfl⟩ := Goal.exists_eq_succ hf
    have hne := hend.rest_ne_nil (BinaryOp.ne_eof_of_ofToken? hop)
    have hr := (h.consumes hend.looked.passed).reaches
    have h₁ := ih hend.looked.passed n
      (Goal.need_le_of_lt hf ((Reaches.refl _).length_rest_lt hne) (by simp [Goal.cost]))
    have h₂ := ihc (hr.ends hend.looked.passed) n
      (Goal.need_le_of_lt hf (hr.length_rest_lt hne) (by simp [Goal.cost]))
    simp only [Goal.run] at h₁ h₂ ⊢
    simp [Grammar.climb, hop, BinaryOp.ne_question_of_ofToken? hop, Nat.not_lt.mpr hl, h₁, h₂]
  | thenFail hq hl _ ih =>
    obtain ⟨n, rfl⟩ := Goal.exists_eq_succ hf
    have hne := hend.rest_ne_nil (by simp [hq])
    have h₁ := ih hend.looked.passed n
      (Goal.need_le_of_lt hf ((Reaches.refl _).length_rest_lt hne) (by simp [Goal.cost]))
    simp only [Goal.run] at h₁ ⊢
    simp [Grammar.climb, hq, hl, h₁]
  | colonFail hq hl _ hcol ih =>
    obtain ⟨n, rfl⟩ := Goal.exists_eq_succ hf
    have hne := hend.rest_ne_nil (by simp [hq])
    have h₁ := ih hend.looked.passed n
      (Goal.need_le_of_lt hf ((Reaches.refl _).length_rest_lt hne) (by simp [Goal.cost]))
    simp only [Goal.run] at h₁ ⊢
    simp [Grammar.climb, hq, hl, h₁, Parse.expect_of_ne _ _ hcol]
  | elseFail hq hl h hcol _ ih ihe =>
    obtain ⟨n, rfl⟩ := Goal.exists_eq_succ hf
    have hne := hend.rest_ne_nil (by simp [hq])
    have hr := (h.consumes hend.looked.passed).reaches
    have h₁ := ih hend.looked.passed n
      (Goal.need_le_of_lt hf ((Reaches.refl _).length_rest_lt hne) (by simp [Goal.cost]))
    have h₂ := ihe (hr.ends hend.looked.passed).looked.passed n
      (Goal.need_le_of_lt hf ((hr.looked.passed _).length_rest_lt hne) (by simp [Goal.cost]))
    simp only [Goal.run] at h₁ h₂ ⊢
    simp [Grammar.climb, hq, hl, h₁, h₂, Parse.expect_of_eq _ _ hcol]
  | ternary hq hl h hcol he _ ih ihe ihc =>
    obtain ⟨n, rfl⟩ := Goal.exists_eq_succ hf
    have hne := hend.rest_ne_nil (by simp [hq])
    have hr := (h.consumes hend.looked.passed).reaches
    have hend₁ := (hr.ends hend.looked.passed).looked
    have hre := (he.consumes hend₁.passed).reaches
    have hr₂ := (hr.looked.passed _).trans hre
    have h₁ := ih hend.looked.passed n
      (Goal.need_le_of_lt hf ((Reaches.refl _).length_rest_lt hne) (by simp [Goal.cost]))
    have h₂ := ihe hend₁.passed n
      (Goal.need_le_of_lt hf ((hr.looked.passed _).length_rest_lt hne) (by simp [Goal.cost]))
    have h₃ := ihc (hre.ends hend₁.passed) n
      (Goal.need_le_of_lt hf (hr₂.length_rest_lt hne) (by simp [Goal.cost]))
    simp only [Goal.run] at h₁ h₂ h₃ ⊢
    simp [Grammar.climb, hq, hl, h₁, h₂, h₃, Parse.expect_of_eq _ _ hcol]
  | unaryPrimary hop _ ih =>
    obtain ⟨n, rfl⟩ := Goal.exists_eq_succ hf
    have h₁ := ih hend.looked n (Goal.need_le_of_le hf (by simp) (by simp [Goal.cost]))
    simp only [Goal.run] at h₁ ⊢
    simp [Grammar.unary, hop, h₁]
  | @unary _ _ _ o hop _ ih =>
    obtain ⟨n, rfl⟩ := Goal.exists_eq_succ hf
    have hne := hend.rest_ne_nil (UnaryOp.ne_eof_of_ofToken? hop)
    have h₁ := ih hend.looked.passed n
      (Goal.need_le_of_lt hf ((Reaches.refl _).length_rest_lt hne) (by simp [Goal.cost]))
    simp only [Goal.run] at h₁ ⊢
    cases o <;> simp [Grammar.unary, hop, h₁]
  | literal hk =>
    obtain ⟨n, rfl⟩ := Goal.exists_eq_succ hf
    rcases hk with hk | hk | hk | hk <;> simp [Goal.run, Grammar.primary, hk]
  | identifier hk =>
    obtain ⟨n, rfl⟩ := Goal.exists_eq_succ hf
    simp [Goal.run, Grammar.primary, hk]
  | innerFail hk _ ih =>
    obtain ⟨n, rfl⟩ := Goal.exists_eq_succ hf
    have hne := hend.rest_ne_nil (by simp [hk])
    have h₁ := ih hend.entered.looked.passed n
      (Goal.need_le_of_lt hf ((Reaches.refl _).length_rest_lt hne) (by simp [Goal.cost]))
    simp only [Goal.run] at h₁ ⊢
    simp [Grammar.primary, hk, h₁]
  | closeFail hk _ hcl ih =>
    obtain ⟨n, rfl⟩ := Goal.exists_eq_succ hf
    have hne := hend.rest_ne_nil (by simp [hk])
    have h₁ := ih hend.entered.looked.passed n
      (Goal.need_le_of_lt hf ((Reaches.refl _).length_rest_lt hne) (by simp [Goal.cost]))
    simp only [Goal.run] at h₁ ⊢
    simp [Grammar.primary, hk, h₁, Parse.expect_of_ne _ _ hcl]
  | paren hk _ hcl ih =>
    obtain ⟨n, rfl⟩ := Goal.exists_eq_succ hf
    have hne := hend.rest_ne_nil (by simp [hk])
    have h₁ := ih hend.entered.looked.passed n
      (Goal.need_le_of_lt hf ((Reaches.refl _).length_rest_lt hne) (by simp [Goal.cost]))
    simp only [Goal.run] at h₁ ⊢
    simp [Grammar.primary, hk, h₁, Parse.expect_of_eq _ _ hcl]
  | primaryEnd hk =>
    obtain ⟨n, rfl⟩ := Goal.exists_eq_succ hf
    simp [Goal.run, Grammar.primary, hk]
  | primaryFail hlit hid hop heof ha =>
    obtain ⟨n, rfl⟩ := Goal.exists_eq_succ hf
    simp [Goal.run, Grammar.primary_of_ne hlit hid hop heof, ha]
  | skip hlit hid hop heof ha _ ih =>
    obtain ⟨n, rfl⟩ := Goal.exists_eq_succ hf
    have hlt := (Reaches.refl (passed .primary _)).length_rest_lt (hend.rest_ne_nil heof)
    have h₁ := ih hend.entered.looked.peeked.noted.passed n
      (Goal.need_le_of_lt hf (by simpa using hlt) (by simp [Goal.cost]))
    simp only [Goal.run] at h₁ ⊢
    simp [Grammar.primary_of_ne hlit hid hop heof, ha, h₁]
  | argsStop h =>
    obtain ⟨n, rfl⟩ := Goal.exists_eq_succ hf
    simp [Goal.run, Grammar.moreArgs, h]
  | argsAssign hid ha =>
    obtain ⟨n, rfl⟩ := Goal.exists_eq_succ hf
    simp [Goal.run, Grammar.moreArgs, hid, ha, TokenKind.startsExpr, ParseState.probed]
  | argFail hs ha _ ih =>
    obtain ⟨n, rfl⟩ := Goal.exists_eq_succ hf
    have h₁ := ih hend.probed n
      (Goal.need_le_of_le hf (by simp) (by simp [Goal.cost]))
    simp only [Goal.run] at h₁ ⊢
    simp [Grammar.moreArgs_of_startsExpr hs ha, h₁]
  | @arg _ _ _ _ o hs ha h _ ih ihm =>
    obtain ⟨n, rfl⟩ := Goal.exists_eq_succ hf
    have hr := (h.consumes hend.probed).reaches
    have hlt := h.length_rest_lt hend.probed (by simpa [Goal.Begins] using hs)
    have h₁ := ih hend.probed n
      (Goal.need_le_of_le hf (by simp) (by simp [Goal.cost]))
    have h₂ := ihm (hr.ends hend.probed) n
      (Goal.need_le_of_lt hf (by simpa using hlt) (by simp [Goal.cost]))
    simp only [Goal.run] at h₁ h₂ ⊢
    cases o <;> simp [Grammar.moreArgs_of_startsExpr hs ha, h₁, h₂]
  | stmtsDone h =>
    obtain ⟨n, rfl⟩ := Goal.exists_eq_succ hf
    simp [Goal.run, Grammar.stmts, h]
  | extraneous h hs _ ih =>
    obtain ⟨n, rfl⟩ := Goal.exists_eq_succ hf
    have hne := hend.rest_ne_nil fun heof => h (.inr heof)
    have h₁ := ih hend.looked.noted.passed n
      (Goal.need_le_of_lt hf ((Reaches.refl _).length_rest_lt hne) (by simp [Goal.cost]))
    simp only [Goal.run] at h₁ ⊢
    simp [Grammar.stmts, h, hs, h₁]
  | recover h hs hst hsk _ ihs ihm =>
    obtain ⟨n, rfl⟩ := Goal.exists_eq_succ hf
    have hr := (hst.consumes hend.looked).reaches
    have hlt := hst.length_rest_lt hend.looked hs
    have hrs := hsk.reaches
    have hend₁ := hr.ends hend.looked
    have h₁ := ihs hend.looked n (Goal.need_le_of_le hf (by simp) (by simp [Goal.cost]))
    have h₂ := hsk.synchronize_eq hend₁.noted n (by
      simp only [Goal.need, rest_noted, rest_looked] at hf hlt ⊢
      omega)
    have h₃ := ihm (hrs.ends hend₁.noted) n
      (Goal.need_le_of_lt hf (Nat.lt_of_le_of_lt hrs.length_rest_le hlt) (by simp [Goal.cost]))
    simp only [Goal.run] at h₁ h₃ ⊢
    simp [Grammar.stmts, h, hs, h₁, h₂, h₃]
  | @stmts _ _ _ _ _ _ o h hs hst _ ihs ihm =>
    obtain ⟨n, rfl⟩ := Goal.exists_eq_succ hf
    have hr := (hst.consumes hend.looked).reaches
    have hlt := hst.length_rest_lt hend.looked hs
    have h₁ := ihs hend.looked n (Goal.need_le_of_le hf (by simp) (by simp [Goal.cost]))
    have h₂ := ihm (hr.ends hend.looked) n (Goal.need_le_of_lt hf hlt (by simp [Goal.cost]))
    simp only [Goal.run] at h₁ h₂ ⊢
    cases o <;> simp [Grammar.stmts, h, hs, h₁, h₂]
  | @assign _ _ o hid ha _ ih =>
    obtain ⟨n, rfl⟩ := Goal.exists_eq_succ hf
    have h₁ := ih hend.entered.probed.passed.looked.passed n
      (Goal.need_le_of_le hf (by simp; omega) (by simp [Goal.cost]))
    simp only [Goal.run] at h₁ ⊢
    simp [Grammar.stmt_of_assign hid ha, h₁]
  | @exprStmt _ _ o ha hp hv hi _ ih =>
    obtain ⟨n, rfl⟩ := Goal.exists_eq_succ hf
    have h₁ := ih hend.entered.probed n
      (Goal.need_le_of_le hf (by simp) (by simp [Goal.cost]))
    simp only [Goal.run] at h₁ ⊢
    simp [Grammar.stmt_of_ne ha hp hv hi, h₁]
  | printFail hk _ ih =>
    obtain ⟨n, rfl⟩ := Goal.exists_eq_succ hf
    have h₁ := ih hend.entered.looked.passed n
      (Goal.need_le_of_le hf (by simp) (by simp [Goal.cost]))
    simp only [Goal.run] at h₁ ⊢
    simp [Grammar.stmt, hk, Grammar.printing, h₁]
  | @print _ _ _ _ o hk h _ ih ihm =>
    obtain ⟨n, rfl⟩ := Goal.exists_eq_succ hf
    have hne := hend.rest_ne_nil (by simp [hk])
    have hr := (h.consumes hend.entered.looked.passed).reaches
    have h₁ := ih hend.entered.looked.passed n
      (Goal.need_le_of_le hf (by simp) (by simp [Goal.cost]))
    have h₂ := ihm (hr.ends hend.entered.looked.passed) n
      (Goal.need_le_of_lt hf (hr.length_rest_lt hne) (by simp [Goal.cost]))
    simp only [Goal.run] at h₁ h₂ ⊢
    cases o <;> simp [Grammar.stmt, hk, Grammar.printing, h₁, h₂]
  | vars hk =>
    obtain ⟨n, rfl⟩ := Goal.exists_eq_succ hf
    simp [Goal.run, Grammar.stmt, hk]
  | inspect hk _ ih =>
    obtain ⟨n, rfl⟩ := Goal.exists_eq_succ hf
    have h₁ := ih hend.entered.looked n (Goal.need_le_of_le hf (by simp) (by simp [Goal.cost]))
    simp only [Goal.run] at h₁ ⊢
    simp [Grammar.stmt, hk, h₁]
  | blockFail hb _ hcl ih =>
    obtain ⟨n, rfl⟩ := Goal.exists_eq_succ hf
    have hne := hend.rest_ne_nil_of_ahead (by simp [hb])
    have h₁ := ih hend.entered.passed.looked.passed n (Goal.need_le_of_lt hf
      (((Reaches.refl _).looked.passed _).length_rest_lt hne) (by simp [Goal.cost]))
    simp only [Goal.run] at h₁ ⊢
    simp [Grammar.inspection, hb, h₁, Parse.expect_of_ne _ _ hcl]
  | block hb _ hcl ih =>
    obtain ⟨n, rfl⟩ := Goal.exists_eq_succ hf
    have hne := hend.rest_ne_nil_of_ahead (by simp [hb])
    have h₁ := ih hend.entered.passed.looked.passed n (Goal.need_le_of_lt hf
      (((Reaches.refl _).looked.passed _).length_rest_lt hne) (by simp [Goal.cost]))
    simp only [Goal.run] at h₁ ⊢
    simp [Grammar.inspection, hb, h₁, Parse.expect_of_eq _ _ hcl]
  | @wrap _ _ _ _ o hi hk _ ih =>
    obtain ⟨n, rfl⟩ := Goal.exists_eq_succ hf
    have hne := hend.rest_ne_nil_of_ahead (by simp [hi])
    have h₁ := ih hend.entered.passed.looked n (Goal.need_le_of_lt hf
      ((Reaches.refl _).looked.length_rest_lt hne) (by simp [Goal.cost]))
    simp only [Goal.run] at h₁ ⊢
    cases o <;> simp [Grammar.inspection, hi, hk, h₁]
  | @inspectFail st _ hb hi =>
    obtain ⟨n, rfl⟩ := Goal.exists_eq_succ hf
    cases hk : st.ahead.kind with
    | openBrace => exact absurd hk hb
    | inspect inner => simp [Goal.run, Grammar.inspection, hk, hi inner hk]
    | _ =>
      simp only [Goal.run, Grammar.inspection, Parse.within_apply, Effect.bind_apply,
        Parse.consume_apply, Parse.current_apply, Parse.mismatch_apply, token_entered,
        token_passed, token_looked, ahead_entered, hk]

/-! ## Everything can be read -/

/-- Reading a list of statements recovers from every syntax error. -/
def Goal.Recovers {p : Phrase} : Goal p → Except SyntaxError p.Tree → Prop
  | stmts _ _, o => ∃ ss, o = .ok ss
  | _, _ => True

theorem Reads.recovers {p : Phrase} {g : Goal p} {st st' : ParseState}
    {o : Except SyntaxError p.Tree} (h : Reads g st o st') : g.Recovers o := by
  induction h with
  | stmtsDone _ => exact ⟨[], rfl⟩
  | extraneous _ _ _ ih => exact ih
  | recover _ _ _ _ _ _ ih => exact ih
  | @stmts _ _ _ _ _ s _ _ _ _ _ _ ih =>
    obtain ⟨ss, rfl⟩ := ih
    exact ⟨s :: ss, rfl⟩
  | _ => trivial

/-- Where reading stops. -/
def Goal.Stops {p : Phrase} : Goal p → TokenKind → Prop
  | stmts closing _, k => k = closing ∨ k = .eof
  | _, _ => True

/-- A list of statements is read up to what closes it, whatever is found on the way. -/
theorem Reads.stops {p : Phrase} {g : Goal p} {st st' : ParseState}
    {o : Except SyntaxError p.Tree} (h : Reads g st o st') : g.Stops st'.token.kind := by
  induction h with
  | stmtsDone h => exact h
  | extraneous _ _ _ ih => exact ih
  | recover _ _ _ _ _ _ ih => exact ih
  | stmts _ _ _ _ _ ih => exact ih
  | _ => trivial

theorem exists_skips (line : Nat) (closing : TokenKind) (rule : Rule) (st : ParseState)
    (hend : st.Ends) : ∃ st', Skips line closing rule st st' := by
  induction hn : st.rest.length generalizing st with
  | zero =>
    have hr := List.length_eq_zero_iff.mp hn
    exact ⟨_, .stop (.inl (.inl (token_of_rest_eq_nil hr ▸ hend)))⟩
  | succ n ih =>
    by_cases h : TokenKind.EndsSkip line closing st.token
    · exact ⟨_, .stop h⟩
    · obtain ⟨st', hs⟩ := ih (st.looked.passed rule) hend.looked.passed (by simp [hn])
      exact ⟨st', .step h hs⟩

/-- Everything that needs no more than a given fuel can be read. -/
def CanRead (fuel : Nat) : Prop :=
  ∀ {p : Phrase} (g : Goal p) (st : ParseState), st.Ends → g.need st ≤ fuel →
    ∃ o st', Reads g st o st'

namespace CanRead
variable {n : Nat} {st : ParseState}

theorem expr {level : Nat} (ih : CanRead n) (hend : st.Ends)
    (hf : (Goal.expr level).need st ≤ n + 1) : ∃ o st', Reads (.expr level) st o st' := by
  obtain ⟨o, st₁, h⟩ := ih .unary (st.entered .expr) hend.entered
    (Goal.need_le_of_le hf (by simp) (by simp [Goal.cost]))
  cases o with
  | error e => exact ⟨_, _, .exprFail h⟩
  | ok left =>
    have hr := (h.consumes hend.entered).reaches
    obtain ⟨o, st₂, hc⟩ := ih (.climb level left) st₁ (hr.ends hend.entered)
      (Goal.need_le_of_le hf hr.length_rest_le (by simp [Goal.cost]))
    exact ⟨_, _, .expr h hc⟩

theorem climb {level : Nat} {left : Expr} (ih : CanRead n) (hend : st.Ends)
    (hf : (Goal.climb level left).need st ≤ n + 1) :
    ∃ o st', Reads (.climb level left) st o st' := by
  by_cases h : st.token.kind.Extends level
  · rcases h with ⟨hq, hl⟩ | ⟨op, hop, hl⟩
    · have hne := hend.rest_ne_nil (by simp [hq])
      obtain ⟨o, st₁, h⟩ := ih (.expr 0) (st.looked.passed .expr) hend.looked.passed
        (Goal.need_le_of_lt hf ((Reaches.refl _).length_rest_lt hne) (by simp [Goal.cost]))
      have hr := (h.consumes hend.looked.passed).reaches
      have hend₁ := hr.ends hend.looked.passed
      cases o with
      | error e => exact ⟨_, _, .thenFail hq hl h⟩
      | ok thenExpr =>
        by_cases hcol : st₁.token.kind = .colon
        · obtain ⟨o, st₂, he⟩ := ih (.expr Grammar.ternaryLevel) (st₁.looked.passed .expr)
            hend₁.looked.passed (Goal.need_le_of_lt hf ((hr.looked.passed _).length_rest_lt hne)
              (by simp [Goal.cost]))
          have hr₂ := (hr.looked.passed _).trans (he.consumes hend₁.looked.passed).reaches
          cases o with
          | error e => exact ⟨_, _, .elseFail hq hl h hcol he⟩
          | ok elseExpr =>
            obtain ⟨o, st₃, hc⟩ := ih (.climb level _) st₂ (hr₂.ends hend.looked.passed)
              (Goal.need_le_of_lt hf (hr₂.length_rest_lt hne) (by simp [Goal.cost]))
            exact ⟨_, _, .ternary hq hl h hcol he hc⟩
        · exact ⟨_, _, .colonFail hq hl h hcol⟩
    · have hne := hend.rest_ne_nil (BinaryOp.ne_eof_of_ofToken? hop)
      obtain ⟨o, st₁, h⟩ := ih (.expr (op.precedence + 1)) (st.looked.passed .expr)
        hend.looked.passed
        (Goal.need_le_of_lt hf ((Reaches.refl _).length_rest_lt hne) (by simp [Goal.cost]))
      have hr := (h.consumes hend.looked.passed).reaches
      cases o with
      | error e => exact ⟨_, _, .binaryFail hop hl h⟩
      | ok right =>
        obtain ⟨o, st₂, hc⟩ := ih (.climb level _) st₁ (hr.ends hend.looked.passed)
          (Goal.need_le_of_lt hf (hr.length_rest_lt hne) (by simp [Goal.cost]))
        exact ⟨_, _, .binary hop hl h hc⟩
  · exact ⟨_, _, .climbStop h⟩

theorem unary (ih : CanRead n) (hend : st.Ends)
    (hf : Goal.unary.need st ≤ n + 1) : ∃ o st', Reads .unary st o st' := by
  cases hop : UnaryOp.ofToken? st.token.kind with
  | none =>
    obtain ⟨o, st₁, h⟩ := ih .primary st.looked hend.looked
      (Goal.need_le_of_le hf (by simp) (by simp [Goal.cost]))
    exact ⟨_, _, .unaryPrimary hop h⟩
  | some op =>
    have hne := hend.rest_ne_nil (UnaryOp.ne_eof_of_ofToken? hop)
    obtain ⟨o, st₁, h⟩ := ih .unary (st.looked.passed .expr) hend.looked.passed
      (Goal.need_le_of_lt hf ((Reaches.refl _).length_rest_lt hne) (by simp [Goal.cost]))
    exact ⟨_, _, .unary hop h⟩

theorem primary (ih : CanRead n) (hend : st.Ends)
    (hf : Goal.primary.need st ≤ n + 1) : ∃ o st', Reads .primary st o st' := by
  by_cases hlit : st.token.kind.IsLiteral
  · exact ⟨_, _, .literal hlit⟩
  by_cases hid : st.token.kind = .identifier
  · exact ⟨_, _, .identifier hid⟩
  by_cases heof : st.token.kind = .eof
  · exact ⟨_, _, .primaryEnd heof⟩
  have hne := hend.rest_ne_nil heof
  by_cases hop : st.token.kind = .openParen
  · obtain ⟨o, st₁, h⟩ := ih (.expr 0) ((st.entered .primary).looked.passed .primary)
      hend.entered.looked.passed
      (Goal.need_le_of_lt hf ((Reaches.refl _).length_rest_lt hne) (by simp [Goal.cost]))
    cases o with
    | error e => exact ⟨_, _, .innerFail hop h⟩
    | ok inner =>
      by_cases hcl : st₁.token.kind = .closeParen
      · exact ⟨_, _, .paren hop h hcl⟩
      · exact ⟨_, _, .closeFail hop h hcl⟩
  · cases ha : st.ahead.kind.startsExpr with
    | false => exact ⟨_, _, .primaryFail hlit hid hop heof ha⟩
    | true =>
      have hlt := (Reaches.refl (passed .primary _)).length_rest_lt hne
      obtain ⟨o, st₁, h⟩ := ih .primary (((st.entered .primary).looked.peeked.noted
        (.fault (.extraneous st.token .expression))).passed .primary)
        hend.entered.looked.peeked.noted.passed
        (Goal.need_le_of_lt hf (by simpa using hlt) (by simp [Goal.cost]))
      exact ⟨_, _, .skip hlit hid hop heof ha h⟩

theorem moreArgs (ih : CanRead n) (hend : st.Ends)
    (hf : Goal.moreArgs.need st ≤ n + 1) : ∃ o st', Reads .moreArgs st o st' := by
  cases hs : st.token.kind.startsExpr with
  | false => exact ⟨_, _, .argsStop hs⟩
  | true =>
    by_cases ha : st.token.kind = .identifier ∧ st.ahead.kind = .assign
    · exact ⟨_, _, .argsAssign ha.1 ha.2⟩
    · obtain ⟨o, st₁, h⟩ := ih (.expr 0) st.probed hend.probed
        (Goal.need_le_of_le hf (by simp) (by simp [Goal.cost]))
      cases o with
      | error e => exact ⟨_, _, .argFail hs ha h⟩
      | ok arg =>
        have hr := (h.consumes hend.probed).reaches
        have hlt := h.length_rest_lt hend.probed (by simpa [Goal.Begins] using hs)
        obtain ⟨o, st₂, hm⟩ := ih .moreArgs st₁ (hr.ends hend.probed)
          (Goal.need_le_of_lt hf (by simpa using hlt) (by simp [Goal.cost]))
        exact ⟨_, _, .arg hs ha h hm⟩

theorem stmts {closing : TokenKind} {rule : Rule} (ih : CanRead n)
    (hend : st.Ends) (hf : (Goal.stmts closing rule).need st ≤ n + 1) :
    ∃ o st', Reads (.stmts closing rule) st o st' := by
  by_cases hd : st.token.kind = closing ∨ st.token.kind = .eof
  · exact ⟨_, _, .stmtsDone hd⟩
  have hne := hend.rest_ne_nil fun heof => hd (.inr heof)
  cases hs : st.token.kind.startsStmt with
  | false =>
    obtain ⟨o, st₁, h⟩ := ih (.stmts closing rule)
      ((st.looked.noted (.fault (.extraneous st.token .statement))).passed rule)
      hend.looked.noted.passed
      (Goal.need_le_of_lt hf ((Reaches.refl _).length_rest_lt hne) (by simp [Goal.cost]))
    exact ⟨_, _, .extraneous hd hs h⟩
  | true =>
    obtain ⟨o, st₁, h⟩ := ih .stmt st.looked hend.looked
      (Goal.need_le_of_le hf (by simp) (by simp [Goal.cost]))
    have hr := (h.consumes hend.looked).reaches
    have hlt := h.length_rest_lt hend.looked hs
    have hend₁ := hr.ends hend.looked
    cases o with
    | error e =>
      obtain ⟨st₂, hsk⟩ :=
        exists_skips e.pos.line closing rule (st₁.noted (.fault e)) hend₁.noted
      have hrs := hsk.reaches
      obtain ⟨o, st₃, hm⟩ := ih (.stmts closing rule) st₂ (hrs.ends hend₁.noted)
        (Goal.need_le_of_lt hf (Nat.lt_of_le_of_lt hrs.length_rest_le hlt) (by simp [Goal.cost]))
      exact ⟨_, _, .recover hd hs h hsk hm⟩
    | ok s =>
      obtain ⟨o, st₂, hm⟩ := ih (.stmts closing rule) st₁ hend₁
        (Goal.need_le_of_lt hf hlt (by simp [Goal.cost]))
      exact ⟨_, _, .stmts hd hs h hm⟩

theorem stmt (ih : CanRead n) (hend : st.Ends)
    (hf : Goal.stmt.need st ≤ n + 1) : ∃ o st', Reads .stmt st o st' := by
  by_cases ha : st.token.kind = .identifier ∧ st.ahead.kind = .assign
  · obtain ⟨o, st₁, h⟩ := ih (.expr 0)
      (((st.entered .stmt).probed.passed .stmt).looked.passed .stmt)
      hend.entered.probed.passed.looked.passed
      (Goal.need_le_of_le hf (by simp; omega) (by simp [Goal.cost]))
    exact ⟨_, _, .assign ha.1 ha.2 h⟩
  by_cases hp : st.token.kind = .print
  · have hne := hend.rest_ne_nil (by simp [hp])
    obtain ⟨o, st₁, h⟩ := ih (.expr 0) ((st.entered .stmt).looked.passed .stmt)
      hend.entered.looked.passed
      (Goal.need_le_of_le hf (by simp) (by simp [Goal.cost]))
    have hr := (h.consumes hend.entered.looked.passed).reaches
    cases o with
    | error e => exact ⟨_, _, .printFail hp h⟩
    | ok arg =>
      obtain ⟨o, st₂, hm⟩ := ih .moreArgs st₁ (hr.ends hend.entered.looked.passed)
        (Goal.need_le_of_lt hf (hr.length_rest_lt hne) (by simp [Goal.cost]))
      exact ⟨_, _, .print hp h hm⟩
  by_cases hv : st.token.kind = .vars
  · exact ⟨_, _, .vars hv⟩
  by_cases hi : ∃ kind, st.token.kind = .inspect kind
  · obtain ⟨kind, hk⟩ := hi
    obtain ⟨o, st₁, h⟩ := ih (.inspection kind) (st.entered .stmt).looked hend.entered.looked
      (Goal.need_le_of_le hf (by simp) (by simp [Goal.cost]))
    exact ⟨_, _, .inspect hk h⟩
  · obtain ⟨o, st₁, h⟩ := ih (.expr 0) (st.entered .stmt).probed hend.entered.probed
      (Goal.need_le_of_le hf (by simp) (by simp [Goal.cost]))
    exact ⟨_, _, .exprStmt ha hp hv (fun kind hk => hi ⟨kind, hk⟩) h⟩

theorem inspection {kind : Inspection} (ih : CanRead n) (hend : st.Ends)
    (hf : (Goal.inspection kind).need st ≤ n + 1) :
    ∃ o st', Reads (.inspection kind) st o st' := by
  by_cases hb : st.ahead.kind = .openBrace
  · have hne := hend.rest_ne_nil_of_ahead (by simp [hb])
    obtain ⟨o, st₁, h⟩ := ih (.stmts .closeBrace .inspect)
      (((st.entered .inspect).passed .inspect).looked.passed .inspect)
      hend.entered.passed.looked.passed
      (Goal.need_le_of_lt hf (((Reaches.refl _).looked.passed _).length_rest_lt hne)
        (by simp [Goal.cost]))
    obtain ⟨body, rfl⟩ := h.recovers
    by_cases hcl : st₁.token.kind = .closeBrace
    · exact ⟨_, _, .block hb h hcl⟩
    · exact ⟨_, _, .blockFail hb h hcl⟩
  by_cases hi : ∃ inner, st.ahead.kind = .inspect inner ∧ kind ≠ .refactor
  · obtain ⟨inner, hi, hk⟩ := hi
    have hne := hend.rest_ne_nil_of_ahead (by simp [hi])
    obtain ⟨o, st₁, h⟩ := ih (.inspection inner) ((st.entered .inspect).passed .inspect).looked
      hend.entered.passed.looked (Goal.need_le_of_lt hf ((Reaches.refl _).looked.length_rest_lt hne)
        (by simp [Goal.cost]))
    exact ⟨_, _, .wrap hi hk h⟩
  · refine ⟨_, _, .inspectFail hb fun inner hin => ?_⟩
    exact Decidable.byContradiction fun hk => hi ⟨inner, hin, hk⟩

end CanRead

theorem canRead (fuel : Nat) : CanRead fuel := by
  induction fuel with
  | zero =>
    intro p g st _ hf
    obtain ⟨n, hn⟩ := Goal.exists_eq_succ hf
    cases hn
  | succ n ih =>
    intro p g st hend hf
    cases g with
    | expr level => exact ih.expr hend hf
    | climb level left => exact ih.climb hend hf
    | unary => exact ih.unary hend hf
    | primary => exact ih.primary hend hf
    | moreArgs => exact ih.moreArgs hend hf
    | stmts closing rule => exact ih.stmts hend hf
    | stmt => exact ih.stmt hend hf
    | inspection kind => exact ih.inspection hend hf

/-- Every run with enough fuel follows the rules. -/
theorem reads_run {p : Phrase} (g : Goal p) {st : ParseState} (hend : st.Ends)
    {fuel : Nat} (hf : g.need st ≤ fuel) :
    Reads g st (g.run fuel st).1 (g.run fuel st).2 := by
  obtain ⟨o, st', h⟩ := canRead fuel g st hend hf
  rw [h.run_eq hend fuel hf]
  exact h

end Reckoner
