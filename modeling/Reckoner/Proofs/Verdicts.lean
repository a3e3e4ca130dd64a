import Mathlib.Data.List.Basic
import Reckoner.Proofs.Faults
import Reckoner.Proofs.Prediction

/-!
# The first objection

The errors of a parse are of two kinds. The lexer finds bytes that are no token and strings that are
cut off, the parser objects to tokens. Reading recovers from an objection and goes on, so that only
the first one says something about the source; `verdict?` picks it.

`Reads.judged` relates the verdict to the run of the stack that stands for what is to be read. The
run empties its stack if there is no objection, and it stops if there is one: at the end of input if
the parser objects to the end, and before it otherwise.
-/
namespace Reckoner

open TokenKind

/-- Whether an error is one of the lexer, rather than an objection to a token out of place. -/
def SyntaxError.isLexical : SyntaxError → Bool
  | stray _ _ | unclosed _ _ => true
  | mismatched _ _ | extraneous _ _ => false

namespace ParseState

/-- The kinds of the tokens ahead. -/
def kinds (st : ParseState) : List TokenKind := st.rest.map (·.token.kind)

/-- The errors that the parser itself has found, the latest first. -/
def objections (st : ParseState) : List SyntaxError := (Step.faults st.log).filter (!·.isLexical)

section
variable (st : ParseState)

@[simp] theorem kinds_noted (s : Step) : (st.noted s).kinds = st.kinds := rfl
@[simp] theorem kinds_looked : st.looked.kinds = st.kinds := by simp [kinds]
@[simp] theorem kinds_peeked : st.peeked.kinds = st.kinds := by simp [kinds]
@[simp] theorem kinds_entered (rule : Rule) : (st.entered rule).kinds = st.kinds := by simp [kinds]
@[simp] theorem kinds_exited (rule : Rule) : (st.exited rule).kinds = st.kinds := by simp [kinds]
@[simp] theorem kinds_probed : st.probed.kinds = st.kinds := by simp [kinds]
@[simp] theorem kinds_passed (rule : Rule) : (st.passed rule).kinds = st.kinds.tail := by
  simp [kinds, List.map_tail]

end

/-- The words ahead come from a source: the end of input is the last of them only, and the faults
that come with their items are those of the lexer. -/
structure Sourced (st : ParseState) : Prop where
  ends : st.Ends
  inside : ∀ k ∈ st.kinds, k ≠ .eof
  lexical : ∀ w ∈ st.last :: st.rest, ∀ i ∈ w.items, ∀ f ∈ i.faults, f.isLexical = true

end ParseState

open ParseState

theorem Reaches.sourced {st st' : ParseState} (h : Reaches st st') (hst : st.Sourced) :
    st'.Sourced := by
  refine ⟨h.ends hst.ends, fun k hk => ?_, fun w hw => ?_⟩
  · exact hst.inside k ((h.rest.map _).subset hk)
  · rw [h.last] at hw
    refine hst.lexical w ?_
    rcases List.mem_cons.mp hw with rfl | hw
    · exact List.mem_cons_self
    · exact List.mem_cons_of_mem _ (h.rest.subset hw)

/-- An objection that was made stays in the log. -/
theorem Reaches.objections_suffix {st st' : ParseState} (h : Reaches st st') :
    st.objections <:+ st'.objections :=
  (h.log.filterMap Step.fault?).filter _

namespace ParseState
namespace Sourced
variable {st : ParseState} (hst : st.Sourced)
include hst

theorem looked : st.looked.Sourced := (Reaches.refl st).looked.sourced hst
theorem peeked : st.peeked.Sourced := (Reaches.refl st).peeked.sourced hst
theorem probed : st.probed.Sourced := (Reaches.refl st).probed.sourced hst
theorem noted (s : Step) : (st.noted s).Sourced := ((Reaches.refl st).noted s).sourced hst
theorem entered (rule : Rule) : (st.entered rule).Sourced :=
  ((Reaches.refl st).entered rule).sourced hst
theorem passed (rule : Rule) : (st.passed rule).Sourced :=
  ((Reaches.refl st).passed rule).sourced hst

theorem kind_token : st.token.kind = upNext st.kinds := by
  have hlast : st.last.token.kind = .eof := hst.ends
  cases hr : st.rest <;> simp [token, word, kinds, hr, hlast]

theorem kind_ahead : st.ahead.kind = upNext st.kinds.tail := by
  have hlast : st.last.token.kind = .eof := hst.ends
  rcases hr : st.rest with _ | ⟨w, _ | ⟨w', ws⟩⟩ <;> simp [ahead, kinds, hr, hlast]

theorem kind_token_eq_eof_iff : st.token.kind = .eof ↔ st.kinds = [] := by
  rw [hst.kind_token]
  cases hk : st.kinds with
  | nil => simp
  | cons k ks =>
    have := hst.inside k (by simp [hk])
    simpa using this

theorem beginAssign_iff :
    beginAssign st.kinds = true ↔ st.token.kind = .identifier ∧ st.ahead.kind = .assign := by
  rw [hst.kind_token, hst.kind_ahead, TokenKind.beginAssign_iff]

theorem objections_creating {w : Word} (hw : w ∈ st.last :: st.rest) :
    (st.creating w).objections = st.objections := by
  have hnone : (((w.items.filter (st.created ≤ ·.token.index)).flatMap Item.steps).reverse.filterMap
      Step.fault?).filter (!·.isLexical) = [] := by
    rw [List.filter_eq_nil_iff]
    intro f hf
    obtain ⟨s, hs, hsf⟩ := List.mem_filterMap.mp hf
    rw [List.mem_reverse, List.mem_flatMap] at hs
    obtain ⟨i, hi, hs⟩ := hs
    have hlex := hst.lexical w hw i (List.mem_filter.mp hi).1
    rcases List.mem_append.mp hs with hs | hs
    · obtain ⟨g, hg, rfl⟩ := List.mem_map.mp hs
      cases hsf
      simp [hlex f hg]
    · rw [List.mem_singleton.mp hs] at hsf
      cases hsf
  simp only [objections, Step.faults, creating, List.filterMap_append, List.filter_append, hnone,
    List.nil_append]

theorem objections_looked : st.looked.objections = st.objections :=
  hst.objections_creating (word_mem st)

theorem objections_peeked : st.peeked.objections = st.objections :=
  (hst.looked.objections_creating (peeked_mem st)).trans hst.objections_looked

theorem objections_probed : st.probed.objections = st.objections := by
  unfold ParseState.probed
  split
  · exact hst.looked.objections_peeked.trans hst.objections_looked
  · exact hst.objections_looked

theorem objections_entered (rule : Rule) : (st.entered rule).objections = st.objections :=
  hst.objections_looked

theorem objections_exited (rule : Rule) : (st.exited rule).objections = st.objections :=
  hst.objections_looked

/-- The state after the current token was consumed, before the next one is looked at. -/
theorem consumed (rule : Rule) :
    Sourced { st.looked.noted (.consume st.token rule) with rest := st.rest.tail } := by
  have hr := (Reaches.refl st).looked.noted (.consume st.token rule)
  exact Reaches.sourced ⟨(List.tail_suffix st.rest), rfl, hr.log⟩ hst

theorem objections_passed (rule : Rule) : (st.passed rule).objections = st.objections :=
  (hst.consumed rule).objections_looked.trans hst.objections_looked

end Sourced

/-- A state of a source to which the parser has not objected. -/
structure Unopposed (st : ParseState) : Prop extends Sourced st where
  objections : st.objections = []

namespace Unopposed
variable {st : ParseState} (hst : st.Unopposed)
include hst

theorem looked : st.looked.Unopposed :=
  ⟨hst.toSourced.looked, hst.objections_looked.trans hst.objections⟩
theorem peeked : st.peeked.Unopposed :=
  ⟨hst.toSourced.peeked, hst.objections_peeked.trans hst.objections⟩
theorem probed : st.probed.Unopposed :=
  ⟨hst.toSourced.probed, hst.objections_probed.trans hst.objections⟩
theorem entered (rule : Rule) : (st.entered rule).Unopposed :=
  ⟨hst.toSourced.entered rule, (hst.objections_entered rule).trans hst.objections⟩
theorem exited (rule : Rule) : (st.exited rule).Unopposed :=
  ⟨((Reaches.refl st).exited rule).sourced hst.toSourced,
    (hst.objections_exited rule).trans hst.objections⟩
theorem passed (rule : Rule) : (st.passed rule).Unopposed :=
  ⟨hst.toSourced.passed rule, (hst.objections_passed rule).trans hst.objections⟩

end Unopposed
end ParseState

/-! ## Steps of the stack -/

namespace ParseState.Sourced
variable {st : ParseState} (hst : st.Sourced)
include hst

theorem beginAssign_eq_false (ha : ¬(st.token.kind = .identifier ∧ st.ahead.kind = .assign)) :
    beginAssign st.kinds = false := by
  rw [← hst.beginAssign_iff] at ha
  simpa using ha

/-- The step of the stack for the tokens ahead of a state. -/
theorem predicts {s : Symbol} {π : List Symbol} {n : Nat} {ks : List TokenKind}
    (hr : s.reaction st.token.kind (beginAssign st.kinds) = some (π, n))
    (hk : ks = st.kinds.drop n) : Predicts [s] st.kinds π ks := by
  rw [hst.kind_token] at hr
  refine .single ?_
  rw [Symbol.expand, hr, Option.map_some, hk]

theorem expand_eq_none {s : Symbol}
    (hr : s.reaction st.token.kind (beginAssign st.kinds) = none) : s.expand st.kinds = none := by
  rw [hst.kind_token] at hr
  rw [Symbol.expand, hr, Option.map_none]

theorem predicts_binary {level : Nat} {op : BinaryOp}
    (hop : BinaryOp.ofToken? st.token.kind = some op) (hl : level ≤ op.precedence) :
    Predicts [.climb level] st.kinds [.expr (op.precedence + 1), .climb level]
      (st.looked.passed .expr).kinds :=
  hst.predicts (n := 1)
    (by simp [Symbol.reaction, hop, hl, BinaryOp.ne_question_of_ofToken? hop]) (by simp)

theorem predicts_question {level : Nat} (hq : st.token.kind = .question)
    (hl : level ≤ Grammar.ternaryLevel) :
    Predicts [.climb level] st.kinds
      [.expr 0, .await .colon, .expr Grammar.ternaryLevel, .climb level]
      (st.looked.passed .expr).kinds :=
  hst.predicts (n := 1) (by simp [Symbol.reaction, hq, hl]) (by simp)

/-- A token that was awaited is passed. -/
theorem predicts_await {kind : TokenKind} (h : st.token.kind = kind) (hk : kind ≠ .eof)
    (σ : List Symbol) (rule : Rule) :
    Predicts (.await kind :: σ) st.kinds σ (st.looked.passed rule).kinds :=
  (hst.predicts (s := .await kind) (π := []) (n := 1) (by simp [Symbol.reaction, h, hk])
    (by simp)).lift σ

theorem expand_await_eq_none {kind : TokenKind} (h : st.token.kind ≠ kind) :
    (Symbol.await kind).expand st.kinds = none :=
  hst.expand_eq_none (by simp [Symbol.reaction, h])

theorem predicts_sign {op : UnaryOp} (hop : UnaryOp.ofToken? st.token.kind = some op) :
    Predicts [.unary] st.kinds [.unary] (st.looked.passed .expr).kinds :=
  hst.predicts (n := 1) (by simp [Symbol.reaction, hop]) (by simp)

theorem predicts_atom (hk : st.token.kind.IsLiteral ∨ st.token.kind = .identifier) :
    Predicts [.primary] st.kinds []
      (((st.entered .primary).looked.passed .primary).exited .primary).kinds := by
  refine hst.predicts (n := 1) ?_ (by simp)
  rcases hk with (hk | hk | hk | hk) | hk
  all_goals
    rw [hk]
    rfl

theorem predicts_paren (hk : st.token.kind = .openParen) :
    Predicts [.primary] st.kinds [.expr 0, .await .closeParen]
      ((st.entered .primary).looked.passed .primary).kinds :=
  hst.predicts (n := 1) (by simp [Symbol.reaction, hk]) (by simp)

theorem expand_primary_eq_none (hlit : ¬st.token.kind.IsLiteral)
    (hid : st.token.kind ≠ .identifier) (hop : st.token.kind ≠ .openParen) :
    Symbol.primary.expand st.kinds = none := by
  refine hst.expand_eq_none ?_
  unfold Symbol.reaction
  split <;> simp_all [IsLiteral]

theorem predicts_arg (hs : st.token.kind.startsExpr = true)
    (ha : ¬(st.token.kind = .identifier ∧ st.ahead.kind = .assign)) :
    Predicts [.moreArgs] st.kinds [.expr 0, .moreArgs] st.probed.kinds :=
  hst.predicts (n := 0) (by simp [Symbol.reaction, hs, hst.beginAssign_eq_false ha]) (by simp)

theorem predicts_stmts {closing : TokenKind}
    (h : ¬(st.token.kind = closing ∨ st.token.kind = .eof))
    (hs : st.token.kind.startsStmt = true) :
    Predicts [.stmts closing] st.kinds [.stmt, .stmts closing] st.looked.kinds :=
  hst.predicts (n := 0) (by simp [Symbol.reaction, h, hs]) rfl

/-- A statement that begins with a keyword is told by it. -/
theorem reaction_stmt (hid : st.token.kind ≠ .identifier) :
    Symbol.stmt.reaction st.token.kind (beginAssign st.kinds) =
      Symbol.stmt.reaction st.token.kind false := by
  rw [hst.beginAssign_eq_false fun h => hid h.1]

theorem predicts_assign (hid : st.token.kind = .identifier) (ha : st.ahead.kind = .assign) :
    Predicts [.stmt] st.kinds [.expr 0]
      (((st.entered .stmt).probed.passed .stmt).looked.passed .stmt).kinds :=
  hst.predicts (n := 2) (by simp [Symbol.reaction, hst.beginAssign_iff.mpr ⟨hid, ha⟩])
    (by simp [← List.drop_one])

theorem predicts_expr (ha : ¬(st.token.kind = .identifier ∧ st.ahead.kind = .assign))
    (hp : st.token.kind ≠ .print) (hv : st.token.kind ≠ .vars)
    (hi : ∀ kind, st.token.kind ≠ .inspect kind) :
    Predicts [.stmt] st.kinds [.expr 0] (st.entered .stmt).probed.kinds := by
  refine hst.predicts (n := 0) ?_ (by simp)
  rw [hst.beginAssign_eq_false ha]
  simp only [Symbol.reaction, Bool.false_eq_true, if_false]

theorem predicts_print (hk : st.token.kind = .print) :
    Predicts [.stmt] st.kinds [.expr 0, .moreArgs]
      ((st.entered .stmt).looked.passed .stmt).kinds :=
  hst.predicts (n := 1) (by rw [hst.reaction_stmt (by simp [hk]), hk]; rfl) (by simp)

theorem predicts_inspect {kind : Inspection} (hk : st.token.kind = .inspect kind) :
    Predicts [.stmt] st.kinds [.body kind] (st.entered .stmt).looked.kinds.tail :=
  hst.predicts (n := 1) (by rw [hst.reaction_stmt (by simp [hk]), hk]; rfl) (by simp)

theorem predicts_block (hb : st.token.kind = .openBrace) (kind : Inspection) :
    Predicts [.body kind] st.kinds [.stmts .closeBrace, .await .closeBrace]
      (st.looked.passed .inspect).kinds :=
  hst.predicts (n := 1) (by simp [Symbol.reaction, hb]) (by simp)

theorem predicts_wrap {kind inner : Inspection} (hi : st.token.kind = .inspect inner)
    (hk : kind ≠ .refactor) :
    Predicts [.body kind] st.kinds [.body inner] st.looked.kinds.tail :=
  hst.predicts (n := 1) (by simp [Symbol.reaction, hi, hk]) (by simp)

theorem expand_body_eq_none {kind : Inspection} (hb : st.token.kind ≠ .openBrace)
    (hi : ∀ inner, st.token.kind = .inspect inner → kind = .refactor) :
    (Symbol.body kind).expand st.kinds = none := by
  refine hst.expand_eq_none ?_
  simp only [Symbol.reaction]
  split
  · next h => exact absurd h hb
  · next inner h => exact if_pos (hi inner h)
  · rfl

end ParseState.Sourced

/-! ## Verdicts -/

/-- The first objection, in a state that is reached with an outcome; an error that ends the reading
comes last. -/
def verdict? {α : Type} (o : Except SyntaxError α) (st : ParseState) : Option SyntaxError :=
  match o with
  | .ok _ => st.objections.getLast?
  | .error e => (e :: st.objections).getLast?

section
variable {α β : Type} {o : Except SyntaxError α} {st st' : ParseState} {e : SyntaxError}

@[simp] theorem verdict?_map (f : α → β) : verdict? (o.map f) st = verdict? o st := by
  cases o <;> rfl

theorem verdict?_exited (hst : st.Sourced) (rule : Rule) :
    verdict? o (st.exited rule) = verdict? o st := by
  cases o <;> simp only [verdict?, hst.objections_exited rule]

theorem verdict?_ok (hobj : st.objections = []) (a : α) :
    verdict? (.ok a) st = none := by
  simp [verdict?, hobj]

theorem verdict?_error (hobj : st.objections = []) :
    verdict? (.error e : Except SyntaxError α) st = some e := by
  simp [verdict?, hobj]

/-- The first objection stays the first. -/
theorem verdict?_of_reaches (h : Reaches st st') (hobj : st.objections ≠ []) :
    verdict? o st' = st.objections.getLast? := by
  obtain ⟨es, hes⟩ := h.objections_suffix
  cases o with
  | ok a => simp [verdict?, ← hes, List.getLast?_append_of_ne_nil _ hobj]
  | error e =>
    simp only [verdict?, ← hes]
    rw [← List.cons_append, List.getLast?_append_of_ne_nil _ hobj]

/-- Recording the error that ends a reading does not change the verdict. -/
theorem verdict?_of_fault (he : e.isLexical = false)
    (h : Reaches (st.noted (.fault e)) st') :
    verdict? o st' = verdict? (.error e : Except SyntaxError β) st := by
  have hobj : (st.noted (.fault e)).objections = e :: st.objections := by
    simp [objections, ParseState.noted, Step.faults, Step.fault?, he]
  rw [verdict?_of_reaches h (by simp [hobj]), hobj]
  rfl

end

/-- What a verdict says about the run of a symbol over some kinds: without an objection it takes the
symbol off the stack, and with one it stops. -/
def Judges (s : Symbol) (ks left : List TokenKind) : Option SyntaxError → Prop
  | none => Predicts [s] ks [] left
  | some e => Stops [s] ks e.atEnd

namespace Judges
variable {α β : Type} {s s' top : Symbol} {σ : List Symbol} {ks ks' left left' : List TokenKind}
  {st st₁ st₂ : ParseState} {o : Except SyntaxError α}

/-- The last symbol decides. -/
theorem last {v : Option SyntaxError} (hp : Predicts [s] ks [s'] ks')
    (h : Judges s' ks' left v) : Judges s ks left v := by
  cases v with
  | none => exact hp.trans h
  | some e => exact .of_predicts hp h

/-- A run that stops at a symbol does not come to those below it. -/
theorem fails {e : SyntaxError} (hp : Predicts [s] ks (s' :: σ) ks')
    (h : Judges s' ks' left (some e)) : Judges s ks left' (some e) :=
  .of_predicts hp (Stops.lift h σ)

theorem fails_of_error {e : SyntaxError} (hp : Predicts [s] ks (s' :: σ) ks')
    (h : Judges s' ks' left (verdict? (.error e : Except SyntaxError α) st)) :
    Judges s ks left' (verdict? (.error e : Except SyntaxError β) st) := by
  obtain ⟨e', he⟩ : ∃ e', (e :: st.objections).getLast? = some e' :=
    ⟨_, List.getLast?_eq_some_getLast (List.cons_ne_nil _ _)⟩
  simp only [verdict?, he] at h ⊢
  exact fails hp h

/-- After a result the symbols below decide, unless there was an objection on the way to it. -/
theorem after {a : β} (hp : Predicts [s] ks (s' :: σ) ks') (hst : st₁.Sourced)
    (h : Judges s' ks' st₁.kinds (verdict? (.ok a) st₁)) (hr : Reaches st₁ st₂)
    (hnext : st₁.Unopposed → Predicts [s] ks σ st₁.kinds → Judges s ks left (verdict? o st₂)) :
    Judges s ks left (verdict? o st₂) := by
  by_cases hobj : st₁.objections = []
  · rw [verdict?_ok hobj] at h
    exact hnext ⟨hst, hobj⟩ (hp.trans (Predicts.lift h σ))
  · have hsame : verdict? o st₂ = verdict? (.ok a) st₁ := verdict?_of_reaches hr hobj
    obtain ⟨e, he⟩ : ∃ e, st₁.objections.getLast? = some e :=
      ⟨_, List.getLast?_eq_some_getLast hobj⟩
    have hv : verdict? (.ok a) st₁ = some e := he
    rw [hv] at h
    rw [hsame, hv]
    exact fails hp h

/-- A token that does not suit the top of the stack is objected to. -/
theorem mismatched (hst : st₁.Unopposed) (hp : Predicts [s] ks (top :: σ) st₁.kinds)
    (htop : top.expand st₁.kinds = none) (hobj : st₂.objections = []) (expected : Expected) :
    Judges s ks left
      (verdict? (.error (.mismatched st₁.token expected) : Except SyntaxError α) st₂) := by
  rw [verdict?_error hobj]
  refine ⟨top, σ, st₁.kinds, hp, htop, ?_⟩
  rw [← hst.kind_token_eq_eof_iff]
  simp [SyntaxError.atEnd]

/-- What was read is not followed by the token that was awaited. -/
theorem unclosed {a : β} {kind : TokenKind} (hp : Predicts [s] ks (s' :: .await kind :: σ) ks')
    (hst : st₁.Sourced) (h : Judges s' ks' st₁.kinds (verdict? (.ok a) st₁))
    (hk : st₁.token.kind ≠ kind) :
    Judges s ks left
      (verdict? (.error (.mismatched st₁.token (.kind kind)) : Except SyntaxError α)
        st₁.looked) :=
  after hp hst h (Reaches.refl _).looked fun hst₁ hp =>
    mismatched hst₁ hp (hst.expand_await_eq_none hk) hst₁.looked.objections _

/-- What was read is followed by the token that was awaited. -/
theorem closed {a : β} {kind : TokenKind} (hp : Predicts [s] ks [s', .await kind] ks')
    (hst : st₁.Sourced) (h : Judges s' ks' st₁.kinds (verdict? (.ok a) st₁))
    (hk : st₁.token.kind = kind) (heof : kind ≠ .eof) (rule : Rule) (b : α) :
    Judges s ks (st₁.looked.passed rule).kinds (verdict? (.ok b) (st₁.looked.passed rule)) := by
  refine after hp hst h ((Reaches.refl _).looked.passed rule) fun hst₁ hp => ?_
  rw [verdict?_ok (hst₁.looked.passed rule).objections]
  exact hp.trans (hst.predicts_await hk heof [] rule)

/-- A token that is skipped did not suit the top of the stack. -/
theorem extraneous {expected : Expected} (hst : st.Unopposed)
    (hp : Predicts [s] ks (top :: σ) st.kinds) (htop : top.expand st.kinds = none)
    (hobj : st₁.objections = [])
    (hr : Reaches (st₁.noted (.fault (.extraneous st.token expected))) st₂) :
    Judges s ks left (verdict? o st₂) := by
  rw [verdict?_of_fault (β := α) rfl hr, verdict?_error hobj]
  refine ⟨top, σ, st.kinds, hp, htop, ?_⟩
  rw [← hst.kind_token_eq_eof_iff]
  simp [SyntaxError.atEnd]

end Judges

/-! ## What reading objects to -/

/-- The symbol for a function of the grammar. -/
def Goal.symbol {p : Phrase} : Goal p → Symbol
  | expr level => .expr level
  | climb level _ => .climb level
  | unary => .unary
  | primary => .primary
  | moreArgs => .moreArgs
  | stmts closing _ => .stmts closing
  | stmt => .stmt
  | inspection kind => .body kind

/-- What the symbol has ahead: the keyword of an inspection is passed without a look at it. -/
def Goal.input {p : Phrase} : Goal p → List TokenKind → List TokenKind
  | inspection _, ks => ks.tail
  | _, ks => ks

def Goal.Judged {p : Phrase} (g : Goal p) (st : ParseState) (o : Except SyntaxError p.Tree)
    (st' : ParseState) : Prop :=
  Judges g.symbol (g.input st.kinds) st'.kinds (verdict? o st')

theorem Goal.Judged.exited {p : Phrase} {g : Goal p} {st st' : ParseState}
    {o : Except SyntaxError p.Tree} (h : g.Judged st o st') (hst : st'.Sourced) (rule : Rule) :
    g.Judged st o (st'.exited rule) := by
  unfold Goal.Judged
  rw [verdict?_exited hst rule, kinds_exited]
  exact h

theorem map_eq_error_iff {α β : Type} {f : α → β} {o : Except SyntaxError α} {e : SyntaxError} :
    o.map f = .error e ↔ o = .error e := by
  cases o <;> simp [Except.map]

/-- An error that ends a reading is one of the parser. -/
theorem Reads.isLexical_error {p : Phrase} {g : Goal p} {st st' : ParseState}
    {o : Except SyntaxError p.Tree} (h : Reads g st o st') :
    ∀ e, o = .error e → e.isLexical = false := by
  induction h <;> grind [map_eq_error_iff, SyntaxError.isLexical]

theorem Reads.reaches {p : Phrase} {g : Goal p} {st st' : ParseState}
    {o : Except SyntaxError p.Tree} (h : Reads g st o st') (hst : st.Sourced) : Reaches st st' :=
  (h.consumes hst.ends).reaches

theorem Reads.sourced {p : Phrase} {g : Goal p} {st st' : ParseState}
    {o : Except SyntaxError p.Tree} (h : Reads g st o st') (hst : st.Sourced) : st'.Sourced :=
  (h.reaches hst).sourced hst

/-- Reading takes what is to be read off the stack, and the parser objects where the run of the
stack stops. -/
theorem Reads.judged {p : Phrase} {g : Goal p} {st st' : ParseState}
    {o : Except SyntaxError p.Tree} (h : Reads g st o st') (hst : st.Unopposed) :
    g.Judged st o st' := by
  -- Each rule expands its symbol first. A part that is read after another one counts only if there
  -- was no objection before it.
  induction h with
  | exprFail h ih =>
    have hst₀ := hst.entered .expr
    exact Goal.Judged.exited (Judges.fails_of_error (.single rfl) (ih hst₀))
      (h.sourced hst₀.toSourced) .expr
  | expr h hc ih ihc =>
    have hst₀ := hst.entered .expr
    have hst₁ := h.sourced hst₀.toSourced
    refine Goal.Judged.exited ?_ (hc.sourced hst₁) .expr
    exact Judges.after (.single rfl) hst₁ (ih hst₀) (hc.reaches hst₁)
      fun hst₁ hp => (ihc hst₁).last hp
  | climbStop hx =>
    rw [hst.kind_token] at hx
    rw [Goal.Judged, verdict?_ok hst.looked.objections]
    exact .single (Symbol.expand_climb_of_not_extends hx)
  | binaryFail hop hl h ih =>
    exact Judges.fails_of_error (hst.predicts_binary hop hl) (ih (hst.looked.passed .expr))
  | binary hop hl h hc ih ihc =>
    have hst₀ := hst.looked.passed .expr
    have hst₁ := h.sourced hst₀.toSourced
    exact Judges.after (hst.predicts_binary hop hl) hst₁ (ih hst₀) (hc.reaches hst₁)
      fun hst₁ hp => (ihc hst₁).last hp
  | thenFail hq hl h ih =>
    exact Judges.fails_of_error (hst.predicts_question hq hl) (ih (hst.looked.passed .expr))
  | colonFail hq hl h hcol ih =>
    have hst₀ := hst.looked.passed .expr
    have hst₁ := h.sourced hst₀.toSourced
    exact Judges.unclosed (hst.predicts_question hq hl) hst₁ (ih hst₀) hcol
  | elseFail hq hl h hcol he ih ihe =>
    have hst₀ := hst.looked.passed .expr
    have hst₁ := h.sourced hst₀.toSourced
    have hr := ((Reaches.refl _).looked.passed .expr).trans (he.reaches (hst₁.looked.passed .expr))
    refine Judges.after (hst.predicts_question hq hl) hst₁ (ih hst₀) hr fun hst₁ hp => ?_
    have hcolon := hp.trans (hst₁.predicts_await hcol (by decide) _ .expr)
    exact Judges.fails_of_error hcolon (ihe (hst₁.looked.passed .expr))
  | ternary hq hl h hcol he hc ih ihe ihc =>
    have hst₀ := hst.looked.passed .expr
    have hst₁ := h.sourced hst₀.toSourced
    have hst₂ := he.sourced (hst₁.looked.passed .expr)
    have hrc := hc.reaches hst₂
    have hr := ((Reaches.refl _).looked.passed .expr).trans (he.reaches (hst₁.looked.passed .expr))
    refine Judges.after (hst.predicts_question hq hl) hst₁ (ih hst₀) (hr.trans hrc)
      fun hst₁ hp => ?_
    have hcolon := hp.trans (hst₁.predicts_await hcol (by decide) _ .expr)
    exact Judges.after hcolon hst₂ (ihe (hst₁.looked.passed .expr)) hrc
      fun hst₂ hp => (ihc hst₂).last hp
  | unaryPrimary hop h ih =>
    have hp : Predicts [.unary] _ [.primary] _ :=
      hst.predicts (n := 0) (by simp [Symbol.reaction, hop]) (kinds_looked _)
    exact (ih hst.looked).last hp
  | unary hop h ih =>
    rw [Goal.Judged, verdict?_map]
    exact (ih (hst.looked.passed .expr)).last (hst.predicts_sign hop)
  | literal hk =>
    have hst₁ := ((hst.entered .primary).looked.passed .primary).exited .primary
    rw [Goal.Judged, verdict?_ok hst₁.objections]
    exact hst.predicts_atom (.inl hk)
  | identifier hk =>
    have hst₁ := ((hst.entered .primary).looked.passed .primary).exited .primary
    rw [Goal.Judged, verdict?_ok hst₁.objections]
    exact hst.predicts_atom (.inr hk)
  | innerFail hk h ih =>
    have hst₀ := (hst.entered .primary).looked.passed .primary
    refine Goal.Judged.exited ?_ (h.sourced hst₀.toSourced) .primary
    exact Judges.fails_of_error (hst.predicts_paren hk) (ih hst₀)
  | closeFail hk h hcl ih =>
    have hst₀ := (hst.entered .primary).looked.passed .primary
    have hst₁ := h.sourced hst₀.toSourced
    refine Goal.Judged.exited ?_ hst₁.looked .primary
    exact Judges.unclosed (hst.predicts_paren hk) hst₁ (ih hst₀) hcl
  | paren hk h hcl ih =>
    have hst₀ := (hst.entered .primary).looked.passed .primary
    have hst₁ := h.sourced hst₀.toSourced
    refine Goal.Judged.exited ?_ (hst₁.looked.passed .primary) .primary
    exact Judges.closed (hst.predicts_paren hk) hst₁ (ih hst₀) hcl (by decide) .primary _
  | primaryEnd hk =>
    exact Judges.mismatched hst (.refl _ _) (hst.expand_eq_none (by rw [hk]; rfl))
      ((hst.entered .primary).looked.looked.exited .primary).objections _
  | primaryFail hlit hid hop heof ha =>
    exact Judges.mismatched hst (.refl _ _) (hst.expand_primary_eq_none hlit hid hop)
      ((hst.entered .primary).looked.peeked.looked.exited .primary).objections _
  | @skip st _ _ hlit hid hop heof ha h ih =>
    have hst₀ := (hst.entered .primary).looked.peeked
    have hnoted :=
      (hst₀.toSourced.noted (.fault (.extraneous st.token .expression))).passed .primary
    have hr := (((Reaches.refl _).passed .primary).trans (h.reaches hnoted)).exited .primary
    exact Judges.extraneous hst (.refl _ _) (hst.expand_primary_eq_none hlit hid hop)
      hst₀.objections hr
  | argsStop hs =>
    rw [Goal.Judged, verdict?_ok hst.looked.objections]
    exact hst.predicts (n := 0) (by simp [Symbol.reaction, Goal.symbol, hs]) (kinds_looked _)
  | argsAssign hid ha =>
    have ha := hst.beginAssign_iff.mpr ⟨hid, ha⟩
    rw [Goal.Judged, verdict?_ok hst.probed.objections]
    exact hst.predicts (n := 0) (by simp [Symbol.reaction, Goal.symbol, ha]) (kinds_probed _)
  | argFail hs ha h ih => exact Judges.fails_of_error (hst.predicts_arg hs ha) (ih hst.probed)
  | arg hs ha h hm ih ihm =>
    have hst₁ := h.sourced hst.probed.toSourced
    rw [Goal.Judged, verdict?_map]
    exact Judges.after (hst.predicts_arg hs ha) hst₁ (ih hst.probed) (hm.reaches hst₁)
      fun hst₁ hp => (ihm hst₁).last hp
  | stmtsDone h =>
    rw [Goal.Judged, verdict?_ok hst.looked.objections]
    exact hst.predicts (n := 0) (by simp [Symbol.reaction, Goal.symbol, h]) (kinds_looked _)
  | @extraneous closing rule st _ _ h hs hm ih =>
    have hnone : (Symbol.stmts closing).expand st.kinds = none :=
      hst.expand_eq_none (by simp [Symbol.reaction, h, hs])
    have hnoted := (hst.looked.toSourced.noted
      (.fault (.extraneous st.token .statement))).passed rule
    exact Judges.extraneous hst (.refl _ _) hnone hst.looked.objections
      (((Reaches.refl _).passed rule).trans (hm.reaches hnoted))
  | recover h hs hst' hsk hm ih ihm =>
    have hst₁ := hst'.sourced hst.looked.toSourced
    have hst₂ := hsk.reaches.sourced (hst₁.noted _)
    rw [Goal.Judged, verdict?_of_fault (β := Stmt) (hst'.isLexical_error _ rfl)
      (hsk.reaches.trans (hm.reaches hst₂))]
    exact Judges.fails_of_error (hst.predicts_stmts h hs) (ih hst.looked)
  | stmts h hs hst' hm ih ihm =>
    have hst₁ := hst'.sourced hst.looked.toSourced
    rw [Goal.Judged, verdict?_map]
    exact Judges.after (hst.predicts_stmts h hs) hst₁ (ih hst.looked) (hm.reaches hst₁)
      fun hst₁ hp => (ihm hst₁).last hp
  | assign hid ha h ih =>
    have hst₀ := ((hst.entered .stmt).probed.passed .stmt).looked.passed .stmt
    refine Goal.Judged.exited ?_ (h.sourced hst₀.toSourced) .stmt
    rw [Goal.Judged, verdict?_map]
    exact (ih hst₀).last (hst.predicts_assign hid ha)
  | exprStmt ha hk hv hi h ih =>
    have hst₀ := (hst.entered .stmt).probed
    refine Goal.Judged.exited ?_ (h.sourced hst₀.toSourced) .stmt
    rw [Goal.Judged, verdict?_map]
    exact (ih hst₀).last (hst.predicts_expr ha hk hv hi)
  | printFail hk h ih =>
    have hst₀ := (hst.entered .stmt).looked.passed .stmt
    refine Goal.Judged.exited ?_ (h.sourced hst₀.toSourced) .stmt
    exact Judges.fails_of_error (hst.predicts_print hk) (ih hst₀)
  | print hk h hm ih ihm =>
    have hst₀ := (hst.entered .stmt).looked.passed .stmt
    have hst₁ := h.sourced hst₀.toSourced
    refine Goal.Judged.exited ?_ (hm.sourced hst₁) .stmt
    rw [Goal.Judged, verdict?_map]
    exact Judges.after (hst.predicts_print hk) hst₁ (ih hst₀) (hm.reaches hst₁)
      fun hst₁ hp => (ihm hst₁).last hp
  | vars hk =>
    have hst₁ := ((hst.entered .stmt).looked.passed .stmt).exited .stmt
    rw [Goal.Judged, verdict?_ok hst₁.objections]
    exact hst.predicts (n := 1) (by rw [Goal.symbol, hst.reaction_stmt (by simp [hk]), hk]; rfl)
      (by simp)
  | inspect hk h ih =>
    have hst₀ := (hst.entered .stmt).looked
    refine Goal.Judged.exited ?_ (h.sourced hst₀.toSourced) .stmt
    exact (ih hst₀).last (hst.predicts_inspect hk)
  | @blockFail _ _ kind _ hb h hcl ih =>
    have hkey := (hst.entered .inspect).passed .inspect
    have hst₀ := hkey.looked.passed .inspect
    have hst₁ := h.sourced hst₀.toSourced
    have hp := hkey.predicts_block ((congrArg Token.kind (token_passed _ _)).trans hb) kind
    rw [kinds_passed] at hp
    refine Goal.Judged.exited ?_ hst₁.looked .inspect
    exact Judges.unclosed hp hst₁ (ih hst₀) hcl
  | @block _ _ kind _ hb h hcl ih =>
    have hkey := (hst.entered .inspect).passed .inspect
    have hst₀ := hkey.looked.passed .inspect
    have hst₁ := h.sourced hst₀.toSourced
    have hp := hkey.predicts_block ((congrArg Token.kind (token_passed _ _)).trans hb) kind
    rw [kinds_passed] at hp
    refine Goal.Judged.exited ?_ (hst₁.looked.passed .inspect) .inspect
    exact Judges.closed hp hst₁ (ih hst₀) hcl (by decide) .inspect _
  | wrap hi hk h ih =>
    have hkey := (hst.entered .inspect).passed .inspect
    have hp := hkey.predicts_wrap ((congrArg Token.kind (token_passed _ _)).trans hi) hk
    rw [kinds_passed] at hp
    refine Goal.Judged.exited ?_ (h.sourced hkey.looked.toSourced) .inspect
    rw [Goal.Judged, verdict?_map]
    exact (ih hkey.looked).last hp
  | @inspectFail st kind hb hi =>
    have hkey := (hst.entered .inspect).passed .inspect
    have htoken : ((st.entered .inspect).passed .inspect).token = st.ahead := token_passed _ _
    have hnone : (Symbol.body kind).expand ((st.entered .inspect).passed .inspect).kinds = none :=
      hkey.expand_body_eq_none (htoken ▸ hb) (htoken ▸ hi)
    rw [Goal.Judged, ← htoken, Goal.input, ← kinds_entered st .inspect, ← kinds_passed]
    exact Judges.mismatched hkey (.refl _ _) hnone
      (hkey.looked.looked.exited .inspect).objections (.kind .openBrace)

end Reckoner
