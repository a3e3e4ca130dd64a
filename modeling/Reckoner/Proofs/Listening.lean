import Reckoner.Proofs.Verdicts
import Reckoner.Session

/-!
# Listening to the parser changes nothing

A listener is told which rules are entered and left and which tokens are passed, a hook which
tokens are created. For a listener the parser looks at the current token more often, and looking is
what creates tokens and reports their faults. It never creates one earlier than otherwise: whenever
a rule is entered or left, the current token has been created before. At the very start of a source
it has not, but there the first thing that the parser does for itself is to look.

So the log of a parse is that of a parse to which all steps are told, without the steps that nobody
hears of: `Parser.readSource_heard`. The program and the syntax errors are the same.

The grammar is gone through once for this and for everything else that does not change what a parser
does: a parser may also have another past (`ParseState.Recast`), of which it has forgotten some steps.
-/
namespace Reckoner

/-! ## Steps that nobody hears of -/

namespace Step
variable (flags : TraceFlags) (log : List Step)

/-- Faults are always noted. -/
theorem faults_filter_heard : faults (log.filter (heard flags)) = faults log := by
  induction log with
  | nil => rfl
  | cons s log ih =>
    cases hs : s.heard flags with
    | true => simp [List.filter_cons_of_pos hs, faults, List.filterMap_cons] at ih ⊢; grind
    | false =>
      have hnone : s.fault? = none := by cases s <;> simp_all [heard, fault?]
      rw [List.filter_cons_of_neg (by simp [hs]), ih, faults, faults,
        List.filterMap_cons_none hnone]

/-- What is not noted does not show in a trace. -/
theorem traces_filter_heard : traces flags (log.filter (heard flags)) = traces flags log := by
  induction log with
  | nil => rfl
  | cons s log ih =>
    have hcons : traces flags (s :: log) = s.trace flags ++ traces flags log := rfl
    cases hs : s.heard flags with
    | true =>
      rw [List.filter_cons_of_pos hs, hcons, ← ih]
      rfl
    | false =>
      have hnone : s.trace flags = [] := by cases s <;> simp_all [heard, trace]
      rw [List.filter_cons_of_neg (by simp [hs]), hcons, ih, hnone, List.nil_append]

end Step

namespace ParseState
variable (hooks : TraceFlags)

/-- The state of a parser that notes only some steps. -/
def heard (st : ParseState) : ParseState := { st with log := st.log.filter (Step.heard hooks) }

theorem heard_noted_of_heard {s : Step} (h : s.heard hooks = true) (st : ParseState) :
    (st.noted s).heard hooks = (st.heard hooks).noted s := by
  simp [heard, noted, h]

theorem heard_noted_of_not_heard {s : Step} (h : s.heard hooks = false) (st : ParseState) :
    (st.noted s).heard hooks = st.heard hooks := by
  simp [heard, noted, h]

/-- All items up to the current word were created. -/
structure Seen (all : List Item) (st : ParseState) : Prop where
  logged : st.Logged all
  created : ∀ i ∈ st.word.items, i.token.index < st.created

section
variable {all : List Item} {st : ParseState}

/-- What was created is not created again. -/
theorem creating_of_created {w : Word} (h : ∀ i ∈ w.items, i.token.index < st.created) :
    st.creating w = st := by
  have hfresh : w.items.filter (st.created ≤ ·.token.index) = [] := by
    rw [List.filter_eq_nil_iff]
    intro i hi
    simpa using h i hi
  simp [creating, hfresh]

theorem Seen.looked (h : st.Seen all) : st.looked = st := creating_of_created h.created

theorem created_le_creating (st : ParseState) (w : Word) : st.created ≤ (st.creating w).created :=
  Nat.le_add_right _ _

theorem Seen.noted (h : st.Seen all) (s : Step) : (st.noted s).Seen all :=
  ⟨h.logged.noted s, h.created⟩

variable (hall : Token.Numbered 0 (all.map Item.token))
include hall

theorem Logged.seen_looked (h : st.Logged all) : st.looked.Seen all := by
  refine ⟨h.looked hall, fun i hi => ?_⟩
  obtain ⟨before, after, hsplit, hle⟩ := h.exists_word
  have hcreated := (h.creating hall hsplit hle).2
  obtain ⟨k, hk⟩ := List.mem_iff_getElem?.mp (show i ∈ st.word.items from hi)
  have hlt := (List.getElem?_eq_some_iff.mp hk).1
  have hat : all[before.length + k]? = some i := by
    rw [hsplit, List.getElem?_append_right (by omega), Nat.add_sub_cancel_left,
      List.getElem?_append_left hlt, hk]
  have hindex := Token.index_of_numbered hall (k := before.length + k) (t := i.token)
    (by simp [hat])
  rw [ParseState.looked]
  omega

theorem Seen.peeked (h : st.Seen all) : st.peeked.Seen all :=
  ⟨h.logged.peeked hall, fun i hi =>
    Nat.lt_of_lt_of_le (h.looked.symm ▸ h.created i hi) (created_le_creating _ _)⟩

theorem Logged.seen_passed (h : st.Logged all) (rule : Rule) : (st.passed rule).Seen all :=
  (h.consumed hall rule).seen_looked hall

end
end ParseState

/-! ## The primitive operations -/

/-- Whether a step is one of the parser, and not of the lexer. -/
def Step.ofParser : Step → Bool
  | .create _ => false
  | .fault e => !e.isLexical
  | .enter _ _ | .consume _ _ | .exit _ _ => true

/-- A parser with another past: the same is ahead, and every step does the same. -/
structure ParseState.Recast (all : List Item) (f : ParseState → ParseState) : Prop where
  token : ∀ st, (f st).token = st.token
  ahead : ∀ st, (f st).ahead = st.ahead
  noted : ∀ st {s : Step}, s.ofParser = true → (f st).noted s = f (st.noted s)
  looked : ∀ {st : ParseState}, st.Logged all → (f st).looked = f st.looked
  peeked : ∀ {st : ParseState}, st.Logged all → (f st).peeked = f st.peeked
  passed : ∀ {st : ParseState} (rule : Rule), st.Logged all →
    (f st).passed rule = f (st.passed rule)

theorem ParseState.recast_id (all : List Item) : Recast all id where
  token _ := rfl
  ahead _ := rfl
  noted _ _ _ := rfl
  looked _ := rfl
  peeked _ := rfl
  passed _ _ := rfl

namespace Parse
variable (hooks : TraceFlags) (st : ParseState)

theorem create_heard (w : Word) :
    create hooks w (st.heard hooks) = (.ok (), (st.creating w).heard hooks) := by
  simp [create, ParseState.heard, ParseState.creating]

theorem current_heard :
    current hooks (st.heard hooks) = (.ok st.token, st.looked.heard hooks) := by
  simp only [current, Effect.bind_apply, Effect.get_apply, create_heard]
  rfl

theorem next_heard : next hooks (st.heard hooks) = (.ok st.ahead, st.peeked.heard hooks) := by
  simp only [next, Effect.bind_apply, Effect.get_apply, current_heard, create_heard]
  rfl

theorem note_heard (s : Step) :
    note hooks s (st.heard hooks) = (.ok (), (st.noted s).heard hooks) := by
  cases hs : s.heard hooks with
  | true => simp [note, hs, ParseState.heard_noted_of_heard]
  | false => simp [note, hs, ParseState.heard_noted_of_not_heard]

theorem record_heard {s : Step} (hs : s.heard hooks = true) :
    record s (st.heard hooks) = (.ok (), (st.noted s).heard hooks) := by
  rw [ParseState.heard_noted_of_heard hooks hs]
  rfl

theorem consume_heard (rule : Rule) :
    consume hooks rule (st.heard hooks) = (.ok st.token, (st.passed rule).heard hooks) := by
  have hrest (st : ParseState) :
      (⟨(st.heard hooks).rest.tail, (st.heard hooks).last, (st.heard hooks).created,
        (st.heard hooks).log⟩ : ParseState) =
      (⟨st.rest.tail, st.last, st.created, st.log⟩ : ParseState).heard hooks := rfl
  simp only [consume, Effect.bind_apply, current_heard, note_heard, Effect.modify_apply, hrest]
  rfl

/-- A listener is told what would have happened anyway, if the current token has been created. -/
theorem tell_heard {st : ParseState} (hst : st.looked = st) (step : Token → Step)
    (hstep : ∀ t, (step t).heard hooks = hooks.parser) :
    tell hooks step (st.heard hooks) =
      (.ok (), (st.looked.noted (step st.token)).heard hooks) := by
  cases hp : hooks.parser with
  | true =>
    have hheard : (step st.token).heard hooks = true := (hstep _).trans hp
    simp only [tell, hp, if_true, Effect.bind_apply, current_heard, record_heard _ _ hheard]
  | false =>
    have hheard : (step st.token).heard hooks = false := (hstep _).trans hp
    rw [hst, ParseState.heard_noted_of_not_heard _ hheard]
    simp [tell, hp]

/-- A parser to which all steps are told, and the same one with another past and to which only some
are: they have the same outcome, which is no error of the lexer, and end in states that differ in the
past and in what is noted. -/
structure Hears {α : Type} (all : List Item) (f : ParseState → ParseState) (x y : Parse α) : Prop where
  seen : ∀ {st : ParseState}, st.Seen all → (x st).2.Seen all
  objects : ∀ {st : ParseState} {e : SyntaxError}, st.Seen all → (x st).1 = .error e →
    e.isLexical = false
  eq : ∀ {st : ParseState}, st.Seen all →
    y ((f st).heard hooks) = ((x st).1, (f (x st).2).heard hooks)

namespace Hears
variable {hooks} {all : List Item} {f : ParseState → ParseState} {α β : Type}

theorem pure (a : α) : Hears hooks all f (pure a) (pure a) where
  seen hst := hst
  objects _ he := by cases he
  eq _ := rfl

theorem throw {e : SyntaxError} (he : e.isLexical = false) :
    Hears hooks all f (throw e : Parse α) (throw e) where
  seen hst := hst
  objects _ heq := by cases heq; exact he
  eq _ := rfl

theorem bind {x y : Parse α} {k l : α → Parse β} (hx : Hears hooks all f x y)
    (hk : ∀ a, Hears hooks all f (k a) (l a)) : Hears hooks all f (x >>= k) (y >>= l) := by
  constructor
  · intro st hst
    have hseen := hx.seen hst
    rw [Effect.bind_apply]
    rcases hrun : x st with ⟨e | a, st'⟩
    · rwa [hrun] at hseen
    · rw [hrun] at hseen
      exact (hk a).seen hseen
  · intro st e hst he
    have hseen := hx.seen hst
    have hobjects := fun e => hx.objects (e := e) hst
    rw [Effect.bind_apply] at he
    rcases hrun : x st with ⟨e' | a, st'⟩
    · rw [hrun] at he hobjects
      cases he
      exact hobjects _ rfl
    · rw [hrun] at he hseen
      exact (hk a).objects hseen he
  · intro st hst
    have hseen := hx.seen hst
    rw [Effect.bind_apply, Effect.bind_apply, hx.eq hst]
    rcases hrun : x st with ⟨e | a, st'⟩
    · rfl
    · rw [hrun] at hseen
      exact (hk a).eq hseen

theorem ite {c : Prop} [Decidable c] {x y x' y' : Parse α} (h : Hears hooks all f x y)
    (h' : Hears hooks all f x' y') :
    Hears hooks all f (if c then x else x') (if c then y else y') := by
  split
  · exact h
  · exact h'

/-- What an outcome is used for may depend on the error not being one of the lexer. -/
theorem outcomeOf_bind {x y : Parse α} {k l : Except SyntaxError α → Parse β}
    (hx : Hears hooks all f x y) (hok : ∀ a, Hears hooks all f (k (.ok a)) (l (.ok a)))
    (herror : ∀ e, e.isLexical = false → Hears hooks all f (k (.error e)) (l (.error e))) :
    Hears hooks all f (outcomeOf x >>= k) (outcomeOf y >>= l) := by
  have hk {st : ParseState} (hst : st.Seen all) : Hears hooks all f (k (x st).1) (l (x st).1) := by
    cases hrun : (x st).1 with
    | ok a => exact hok a
    | error e => exact herror e (hx.objects hst hrun)
  constructor
  · intro st hst
    rw [Effect.bind_apply, outcomeOf_apply]
    exact (hk hst).seen (hx.seen hst)
  · intro st e hst he
    rw [Effect.bind_apply, outcomeOf_apply] at he
    exact (hk hst).objects (hx.seen hst) he
  · intro st hst
    rw [Effect.bind_apply, Effect.bind_apply, outcomeOf_apply, outcomeOf_apply, hx.eq hst]
    exact (hk hst).eq (hx.seen hst)

variable (hf : ParseState.Recast all f)
include hf

theorem record {e : SyntaxError} (he : e.isLexical = false) :
    Hears hooks all f (record (.fault e)) (record (.fault e)) where
  seen hst := hst.noted _
  objects _ heq := by cases heq
  eq {st} _ := by
    rw [record_heard hooks (f st) rfl, hf.noted st (by simpa [Step.ofParser] using he)]
    rfl

variable (hall : Token.Numbered 0 (all.map Item.token))
include hall

theorem current : Hears hooks all f (current .all) (current hooks) where
  seen hst := by
    rw [current_apply]
    exact hst.logged.seen_looked hall
  objects _ heq := by cases heq
  eq {st} hst := by
    rw [current_apply, current_heard, hf.token, hf.looked hst.logged]

theorem next : Hears hooks all f (next .all) (next hooks) where
  seen hst := by
    rw [next_apply]
    exact hst.peeked hall
  objects _ heq := by cases heq
  eq {st} hst := by
    rw [next_apply, next_heard, hf.ahead, hf.peeked hst.logged]

theorem consume (rule : Rule) : Hears hooks all f (consume .all rule) (consume hooks rule) where
  seen {st} hst := by
    rw [consume_apply]
    exact hst.logged.seen_passed hall rule
  objects {st} e _ heq := by
    rw [consume_apply] at heq
    cases heq
  eq {st} hst := by
    rw [consume_apply, consume_heard, hf.token, hf.passed rule hst.logged]

theorem expect (kind : TokenKind) (rule : Rule) :
    Hears hooks all f (expect .all kind rule) (expect hooks kind rule) :=
  (current hf hall).bind fun _ => .ite (consume hf hall rule) (throw rfl)

theorem mismatch (expected : Expected) :
    Hears hooks all f (mismatch .all expected : Parse α) (mismatch hooks expected) :=
  (current hf hall).bind fun _ => throw rfl

/-- A rule may also be entered before the current token was created, if the first thing that its
body does is to look at it. -/
theorem within_of_looking (rule : Rule) {x y : Parse α} (hx : Hears hooks all f x y)
    {st : ParseState} (hst : st.Logged all)
    (hlook : y ((f st).heard hooks) = y ((f st.looked).heard hooks)) :
    (Parse.within .all rule x st).2.Seen all ∧
      (∀ e, (Parse.within .all rule x st).1 = .error e → e.isLexical = false) ∧
      Parse.within hooks rule y ((f st).heard hooks) =
        ((Parse.within .all rule x st).1, (f (Parse.within .all rule x st).2).heard hooks) := by
  have hentered : (st.entered rule).Seen all := (hst.seen_looked hall).noted _
  have hseen := hx.seen hentered
  have hrecast : (f (x (st.entered rule)).2).looked = f (x (st.entered rule)).2 := by
    rw [hf.looked hseen.logged, hseen.looked]
  have hexit := tell_heard hooks hrecast (.exit rule) fun _ => rfl
  rw [hrecast, hf.token, hf.noted _ rfl] at hexit
  -- Without a listener the body starts where the rule is entered, and looks for itself.
  have henter : ∃ st', tell hooks (.enter rule) ((f st).heard hooks) = (.ok (), st') ∧
      y st' = y ((f (st.entered rule)).heard hooks) := by
    have hnoted : f (st.entered rule) = (f st.looked).noted (.enter rule st.token) :=
      (hf.noted _ rfl).symm
    rw [hnoted]
    cases hp : hooks.parser with
    | true =>
      refine ⟨_, ?_, rfl⟩
      simp only [tell, hp, if_true, Effect.bind_apply, current_heard, hf.token, hf.looked hst]
      exact record_heard hooks _ hp
    | false =>
      refine ⟨(f st).heard hooks, by simp [tell, hp], ?_⟩
      rw [hlook, ParseState.heard_noted_of_not_heard hooks (s := .enter rule st.token) hp]
  obtain ⟨st', htell, hbody⟩ := henter
  have hobjects := fun e => hx.objects (e := e) hentered
  rw [within_apply]
  refine ⟨(hseen.logged.seen_looked hall).noted _, hobjects, ?_⟩
  rw [ParseState.exited, hseen.looked]
  simp only [Parse.within, Effect.bind_apply, htell, outcomeOf_apply, hbody, hx.eq hentered, hexit]
  rcases (x (st.entered rule)).1 with e | a <;> rfl

theorem within (rule : Rule) {x y : Parse α} (hx : Hears hooks all f x y) :
    Hears hooks all f (within .all rule x) (within hooks rule y) := by
  have hst {st : ParseState} (hst : st.Seen all) :=
    hx.within_of_looking hf hall rule hst.logged (by rw [hst.looked])
  exact ⟨fun h => (hst h).1, fun h => (hst h).2.1 _, fun h => (hst h).2.2⟩

end Hears
end Parse

/-! ## The grammar -/

namespace Grammar
open Parse

variable (hooks : TraceFlags) {all : List Item} {f : ParseState → ParseState}
  (hf : ParseState.Recast all f) (hall : Token.Numbered 0 (all.map Item.token))
include hf hall

theorem hears_expr (fuel : Nat) :
    (∀ level, Hears hooks all f (expr .all fuel level) (expr hooks fuel level)) ∧
    (∀ level left, Hears hooks all f (climb .all fuel level left) (climb hooks fuel level left)) ∧
    Hears hooks all f (unary .all fuel) (unary hooks fuel) ∧
    Hears hooks all f (primary .all fuel) (primary hooks fuel) := by
  induction fuel with
  | zero =>
    exact ⟨fun _ => .mismatch hf hall _, fun _ left => .pure left, .mismatch hf hall _,
      .mismatch hf hall _⟩
  | succ fuel ih =>
    obtain ⟨hexpr, hclimb, hunary, hprimary⟩ := ih
    refine ⟨fun level => ?_, fun level left => ?_, ?_, ?_⟩
    · rw [expr, expr]
      exact .within hf hall .expr (hunary.bind fun left => hclimb level left)
    · rw [climb, climb]
      refine (Hears.current hf hall).bind fun t => .ite ?_ ?_
      · refine (Hears.consume hf hall .expr).bind fun question => (hexpr 0).bind fun thenExpr => ?_
        refine (Hears.expect hf hall .colon .expr).bind fun colon => ?_
        exact (hexpr ternaryLevel).bind fun elseExpr => hclimb level _
      · cases BinaryOp.ofToken? t.kind with
        | none => exact .pure left
        | some op =>
          refine .ite (.pure left) ?_
          refine (Hears.consume hf hall .expr).bind fun sign => ?_
          exact (hexpr (op.precedence + 1)).bind fun right => hclimb level _
    · rw [unary, unary]
      refine (Hears.current hf hall).bind fun t => ?_
      cases UnaryOp.ofToken? t.kind with
      | none => exact hprimary
      | some op =>
        refine (Hears.consume hf hall .expr).bind fun sign => hunary.bind fun operand => ?_
        exact .pure _
    · rw [primary, primary]
      refine .within hf hall .primary ((Hears.current hf hall).bind fun t => ?_)
      cases t.kind with
      | number | string | yes | no | identifier =>
        exact (Hears.consume hf hall .primary).bind fun u => .pure _
      | openParen =>
        refine (Hears.consume hf hall .primary).bind fun opening => (hexpr 0).bind fun inner => ?_
        exact (Hears.expect hf hall .closeParen .primary).bind fun closing => .pure _
      | eof => exact .mismatch hf hall _
      | _ =>
        refine (Hears.next hf hall).bind fun u => .ite ?_ (.mismatch hf hall _)
        refine (Hears.record hf rfl).bind fun _ => ?_
        exact (Hears.consume hf hall .primary).bind fun _ => hprimary

theorem hears_moreArgs (fuel : Nat) :
    Hears hooks all f (moreArgs .all fuel) (moreArgs hooks fuel) := by
  induction fuel with
  | zero => exact .pure []
  | succ fuel ih =>
    have hargs : Hears hooks all f
        (do let arg ← expr .all fuel 0; return arg :: (← moreArgs .all fuel))
        (do let arg ← expr hooks fuel 0; return arg :: (← moreArgs hooks fuel)) :=
      ((hears_expr hooks hf hall fuel).1 0).bind fun arg => ih.bind fun args => .pure _
    rw [moreArgs, moreArgs]
    refine (Hears.current hf hall).bind fun t => .ite (.pure []) (.ite ?_ hargs)
    exact (Hears.next hf hall).bind fun u => .ite (.pure []) hargs

theorem hears_synchronize (fuel line : Nat) (closing : TokenKind) (rule : Rule) :
    Hears hooks all f (synchronize .all fuel line closing rule)
      (synchronize hooks fuel line closing rule) := by
  induction fuel with
  | zero => exact .pure ()
  | succ fuel ih =>
    rw [synchronize, synchronize]
    refine (Hears.current hf hall).bind fun t => .ite (.pure ()) (.ite (.pure ()) ?_)
    exact (Hears.consume hf hall rule).bind fun _ => ih

theorem hears_stmts (fuel : Nat) :
    (∀ closing rule,
      Hears hooks all f (stmts .all fuel closing rule) (stmts hooks fuel closing rule)) ∧
    Hears hooks all f (stmt .all fuel) (stmt hooks fuel) ∧
    (∀ kind, Hears hooks all f (inspection .all fuel kind) (inspection hooks fuel kind)) := by
  induction fuel with
  | zero => exact ⟨fun _ _ => .pure [], .mismatch hf hall _, fun _ => .mismatch hf hall _⟩
  | succ fuel ih =>
    obtain ⟨hstmts, hstmt, hinspection⟩ := ih
    have hexpr := (hears_expr hooks hf hall fuel).1 0
    refine ⟨fun closing rule => ?_, ?_, fun kind => ?_⟩
    · rw [stmts, stmts]
      refine (Hears.current hf hall).bind fun t => .ite (.pure []) (.ite ?_ ?_)
      · refine (Hears.record hf rfl).bind fun _ => ?_
        exact (Hears.consume hf hall rule).bind fun _ => hstmts closing rule
      · refine hstmt.outcomeOf_bind (fun s => ?_) fun e he => ?_
        · exact (hstmts closing rule).bind fun ss => .pure _
        · refine (Hears.record hf he).bind fun _ => ?_
          refine (hears_synchronize hooks hf hall fuel e.pos.line closing rule).bind fun _ => ?_
          exact hstmts closing rule
    · rw [stmt, stmt]
      refine .within hf hall .stmt ((Hears.current hf hall).bind fun t => ?_)
      cases t.kind with
      | identifier =>
        refine (Hears.next hf hall).bind fun u => .ite ?_ (hexpr.bind fun e => .pure _)
        refine (Hears.consume hf hall .stmt).bind fun name => ?_
        refine (Hears.expect hf hall .assign .stmt).bind fun equals => ?_
        exact hexpr.bind fun value => .pure _
      | print =>
        refine (Hears.consume hf hall .stmt).bind fun keyword => hexpr.bind fun arg => ?_
        exact (hears_moreArgs hooks hf hall fuel).bind fun more => .pure _
      | vars => exact (Hears.consume hf hall .stmt).bind fun keyword => .pure _
      | inspect kind => exact hinspection kind
      | _ => exact hexpr.bind fun e => .pure _
    · rw [inspection, inspection]
      refine .within hf hall .inspect ((Hears.consume hf hall .inspect).bind fun keyword => ?_)
      refine (Hears.current hf hall).bind fun t => ?_
      cases t.kind with
      | openBrace =>
        refine (Hears.consume hf hall .inspect).bind fun opening => ?_
        refine (hstmts .closeBrace .inspect).bind fun body => ?_
        exact (Hears.expect hf hall .closeBrace .inspect).bind fun closing => .pure _
      | inspect inner =>
        exact .ite (.mismatch hf hall _) ((hinspection inner).bind fun inner => .pure _)
      | _ => exact .mismatch hf hall _

/-- Reading a source begins with a look at its first token. -/
theorem source_recast (rule : Rule) (fuel : Nat) {st : ParseState} (hst : st.Logged all) :
    source hooks rule (fuel + 1) ((f st).heard hooks) =
      ((source .all rule (fuel + 1) st).1, (f (source .all rule (fuel + 1) st).2).heard hooks) := by
  have hlooked : (f st).looked = f st.looked := hf.looked hst
  have hagain : (f st.looked).looked = f st.looked := by
    rw [hf.looked (hst.looked hall), (hst.seen_looked hall).looked]
  have hstmts := (hears_stmts hooks hf hall (fuel + 1)).1 .eof rule
  rw [source, source]
  refine (Hears.within_of_looking hf hall rule ?_ hst ?_).2.2
  · have hrest : Hears hooks all f
        (do let ss ← stmts .all (fuel + 1) .eof rule; let _ ← consume .all rule; return ss)
        (do let ss ← stmts hooks (fuel + 1) .eof rule; let _ ← consume hooks rule; return ss) :=
      hstmts.bind fun ss => (Hears.consume hf hall rule).bind fun _ => .pure ss
    refine .ite ?_ hrest
    exact (Hears.current hf hall).bind fun t =>
      .ite ((Hears.record hf rfl).bind fun _ => hrest) hrest
  · split
    · simp only [Effect.bind_apply, current_heard, hf.token, ParseState.token_looked, hlooked, hagain]
    · simp only [stmts, Effect.bind_apply, current_heard, hf.token, ParseState.token_looked, hlooked,
        hagain]

omit hf in
/-- Who listens to less of the reading of a source hears less of it. -/
theorem source_heard (rule : Rule) (fuel : Nat) {st : ParseState} (hst : st.Logged all) :
    source hooks rule (fuel + 1) (st.heard hooks) =
      ((source .all rule (fuel + 1) st).1, (source .all rule (fuel + 1) st).2.heard hooks) :=
  source_recast hooks (ParseState.recast_id all) hall rule fuel hst

end Grammar

/-! ## Sources -/

namespace Parser

/-- Who listens to less hears less of the same parse. -/
theorem readSource_heard (rule : Rule) (t : Text) (hooks : TraceFlags) :
    ((ofText t).readSource rule hooks).1 =
      { ((ofText t).readSource rule).1 with
        log := ((ofText t).readSource rule).1.log.filter (Step.heard hooks) } := by
  have hsource := Grammar.source_heard hooks (Lexed.numbered_ofText t) rule
    (4 * (Word.group [] (ofText t).lexed.items).1.length + 7) (logged_unread t)
  rw [show (ofText t).unread.heard hooks = (ofText t).unread from rfl] at hsource
  simp only [unread] at hsource
  simp only [readSource, Grammar.fuelFor, hsource, ParseState.heard, ← List.filter_reverse,
    Step.faults_filter_heard]
  rfl

end Parser

section
variable (t : Text) (hooks : TraceFlags)

/-- Listening changes neither the statements that are read nor the errors that are found, nor the
order in which they are. -/
theorem parseEntry_heard :
    (parseEntry t hooks).program = (parseEntry t).program ∧
      (parseEntry t hooks).errors = (parseEntry t).errors ∧
      Step.traces hooks (parseEntry t hooks).log = Step.traces hooks (parseEntry t).log := by
  have h : parseEntry t hooks =
      { parseEntry t with log := (parseEntry t).log.filter (Step.heard hooks) } :=
    Parser.readSource_heard .entry t hooks
  rw [h]
  exact ⟨rfl, rfl, Step.traces_filter_heard hooks _⟩

theorem parseProgram_heard :
    (parseProgram t hooks).program = (parseProgram t).program ∧
      (parseProgram t hooks).errors = (parseProgram t).errors ∧
      Step.traces hooks (parseProgram t hooks).log = Step.traces hooks (parseProgram t).log := by
  have h : parseProgram t hooks =
      { parseProgram t with log := (parseProgram t).log.filter (Step.heard hooks) } :=
    Parser.readSource_heard .program t hooks
  rw [h]
  exact ⟨rfl, rfl, Step.traces_filter_heard hooks _⟩

end

/-! ## Interpreters and sessions -/

/-- A source is run as if everything were noted while it is read. -/
theorem Interpreter.runSource_eq (source : Text) (i : Interpreter) :
    i.runSource source =
      let parsed := parseProgram source
      let i := i.trace parsed.log
      if parsed.errors.isEmpty then
        let (outcome, i) := i.run parsed.program
        (outcome, i.reset)
      else
        (.error (.syntaxErrors parsed.errors),
          i.reportAll (parsed.errors.map SyntaxError.text)) := by
  obtain ⟨hprogram, herrors, htraces⟩ :=
    parseProgram_heard source i.machine.tracing.toTraceFlags
  simp only [runSource, trace, hprogram, herrors, htraces]

/-- An entry is taken as if everything were noted while it is read. -/
theorem Session.enter_eq (text : Text) (s : Session) :
    s.enter text =
      let parsed := parseEntry text
      let s := { s with interpreter := s.interpreter.trace parsed.log }
      if parsed.errors.isEmpty then
        let (_, interpreter) := s.interpreter.run parsed.program
        { s with buffer := [], interpreter := interpreter.reset }
      else if SyntaxError.incomplete parsed.errors then
        if isBlankProgram parsed.program then { s with buffer := [] }
        else
          { s with buffer := text }.log
            ("incomplete input, " ++ Text.ofNat parsed.errors.length ++ " syntax errors")
      else
        { s with buffer := [],
                 interpreter := s.interpreter.reportAll (parsed.errors.map SyntaxError.text) } := by
  obtain ⟨hprogram, herrors, htraces⟩ :=
    parseEntry_heard text s.interpreter.machine.tracing.toTraceFlags
  simp only [enter, Interpreter.trace, hprogram, herrors, htraces]

end Reckoner
