import Mathlib.Data.List.Forall2
import Reckoner.Proofs.Moving
import Reckoner.Text.Space

/-!
# The lines of a source

A source may be read at once or line by line. If every line is an entry on its own, a line and the
terminator behind it are that entry again, and the lines together are read as tokens that differ from
those of the single lines in their places, and in what stands in front of the first token of a line.
-/
namespace Reckoner

/-! ## What is read is separated -/

namespace Stmt

theorem headKind_tokensOf_ne_assign {ss : List Stmt} (h : FormedAll ss) {after : List Token}
    (hafter : Token.headKind after ≠ .assign) :
    Token.headKind (tokensOf ss ++ after) ≠ .assign := by
  cases ss with
  | nil => exact hafter
  | cons s ss =>
    have hstarts := h.1.startsStmt_first
    rw [tokensOf, List.append_assoc, headKind_tokens]
    intro ha
    simp [ha, TokenKind.startsStmt, TokenKind.startsExpr] at hstarts

/-- An expression statement begins an expression, whatever comes after it. -/
theorem beginExpr_of_formed {e : Expr} (h : e.Formed) {after : List Token}
    (hafter : Token.headKind after ≠ .assign) : Token.beginExpr (e.tokens ++ after) = true := by
  have htail := h.headKind_tail_ne_assign hafter
  obtain ⟨ts, hts⟩ := e.exists_tokens_eq_cons
  rw [hts, List.cons_append] at htail ⊢
  rw [List.tail_cons] at htail
  cases hrest : ts ++ after with
  | nil => exact h.startsExpr_first
  | cons u us =>
    rw [hrest, Token.headKind_cons] at htail
    simp [Token.beginExpr, h.startsExpr_first, htail]

/-- A statement that could not have gone on does not run into the next one. -/
theorem Maximal.mayPrecede {s next : Stmt} {ss : List Stmt} {after : List Token}
    (h : s.Maximal (tokensOf (next :: ss) ++ after)) (hn : next.Formed) (hss : FormedAll ss)
    (hafter : Token.headKind after ≠ .assign) : s.MayPrecede next := by
  have hcontinue : Token.continueExpr (tokensOf (next :: ss) ++ after) =
      next.first.kind.continuesExpr := by
    obtain ⟨ts, hts⟩ := next.exists_tokens_eq_cons
    simp [tokensOf, hts, Token.continueExpr]
  refine ⟨fun hend hminus => ?_, fun hprint hstarts => ?_⟩
  · have hfalse : next.first.kind.continuesExpr = false := by
      rw [← hcontinue]
      cases s with
      | assign | expr => exact h
      | print => exact h.1
      | _ => simp [endsInExpr] at hend
    rw [hminus] at hfalse
    exact absurd hfalse (by decide)
  · have hbegin : Token.beginExpr (tokensOf (next :: ss) ++ after) = false := by
      cases s with
      | print => exact h.2
      | _ => simp [isPrint] at hprint
    cases next with
    | assign => rfl
    | expr e =>
      have hrest := headKind_tokensOf_ne_assign hss hafter
      rw [tokensOf, List.append_assoc, tokens, beginExpr_of_formed hn hrest] at hbegin
      cases hbegin
    | print keyword => simp [first, hn.1, TokenKind.startsExpr] at hstarts
    | vars keyword => simp [first, show keyword.kind = _ from hn, TokenKind.startsExpr] at hstarts
    | block kind keyword => simp [first, hn.1, TokenKind.startsExpr] at hstarts
    | wrap kind keyword => simp [first, hn.1, TokenKind.startsExpr] at hstarts

end Stmt

open ParseState

/-- Nothing in a result runs into what follows it there, if no fault was found. -/
def Goal.KeepsApart :
    {p : Phrase} → Goal p → ParseState → Except SyntaxError p.Tree → ParseState → Prop
  | _, moreArgs, st, .ok es, st' => Step.faults st'.log = [] → ¬st.token.kind.Extends 0 →
      ∀ e ∈ es, e.first.kind ≠ .minus
  | _, stmts closing _, _, .ok ss, st' => Step.faults st'.log = [] → closing ≠ .assign →
      Stmt.SeparatedAll ss
  | _, stmt, _, .ok s, st' | _, inspection _, _, .ok s, st' => Step.faults st'.log = [] →
      s.Separated
  | _, _, _, _, _ => True

theorem ParseState.headKind_upcoming (st : ParseState) :
    Token.headKind st.upcoming = st.token.kind := by
  cases h : st.rest with
  | nil => simp [upcoming, h, token_of_rest_eq_nil h]
  | cons w ws => simp [upcoming, h, token_of_rest_eq_cons h]

/-- An expression begins with the token that it was read from. -/
theorem Reads.first_expr {level : Nat} {st st' : ParseState} {e : Expr}
    (h : Reads (.expr level) st (.ok e) st') (hend : st.Ends) (hf : Step.faults st'.log = []) :
    e.first = st.token := by
  obtain ⟨ts, hts, htakes⟩ := h.consumes hend
  obtain ⟨ws, hrest, -, hall⟩ := htakes.words
  obtain ⟨us, hus⟩ := e.exists_tokens_eq_cons
  have htokens : e.first :: us = ws.map Word.token := by
    rw [← hus, ← hall hf]
    exact hts
  obtain ⟨w, ws', rfl, hw, -⟩ := List.map_eq_cons_iff.mp htokens.symm
  rw [← hw, ParseState.token_of_rest_eq_cons hrest]

/-- Everything that is read without a fault is separated from what follows it. -/
theorem Reads.keepsApart {p : Phrase} {g : Goal p} {st st' : ParseState}
    {o : Except SyntaxError p.Tree} (h : Reads g st o st') (hend : st.Ends) :
    g.KeepsApart st o st' := by
  induction h with
  | argsStop _ | argsAssign _ _ => exact fun _ _ => by simp
  | @arg st st₁ st₂ arg o hs ha h hm _ ihm =>
    have hend₁ := (h.consumes hend.probed).reaches.ends hend.probed
    have hr₂ := (hm.consumes hend₁).reaches
    cases o with
    | error e => trivial
    | ok es =>
      intro hf hext
      have hf₁ := hr₂.faults_eq_nil hf
      obtain ⟨-, -, hext₁⟩ := h.sound hend.probed hf₁ (Nat.zero_le _)
      refine List.forall_mem_cons.mpr ⟨fun hminus => hext ?_, ihm hend₁ hf hext₁⟩
      have hfirst := h.first_expr hend.probed hf₁
      rw [ParseState.token_probed] at hfirst
      rw [← hfirst, hminus]
      exact .inr ⟨.arith .sub, rfl, Nat.zero_le _⟩
  | stmtsDone _ => exact fun _ _ => trivial
  | @extraneous closing rule st st₁ o _ _ hm _ =>
    cases o with
    | error e => trivial
    | ok ss =>
      intro hf
      exact absurd hf (Reads.faults_ne_nil_of_extraneous hend hm)
  | @recover closing rule st st₁ st₂ st₃ e o _ _ hst hsk hm _ _ =>
    cases o with
    | error e => trivial
    | ok ss =>
      intro hf
      exact absurd hf (Reads.faults_ne_nil_of_recover hend hst hsk hm)
  | @stmts closing rule st st₁ st₂ s o hd hs hst hm ihs ihm =>
    have hend₁ := (hst.consumes hend.looked).reaches.ends hend.looked
    have hr₂ := (hm.consumes hend₁).reaches
    have hall := Reads.stmts hd hs hst hm
    cases o with
    | error e => trivial
    | ok ss =>
      intro hf hclosing
      obtain ⟨hformed, hmaximal, hlast⟩ := hall.sound hend hf
      refine ⟨ihs hend.looked (hr₂.faults_eq_nil hf), fun next hnext => ?_, ihm hend₁ hf hclosing⟩
      cases ss with
      | nil => cases hnext
      | cons next' ss =>
        obtain rfl : next' = next := by simpa using hnext
        refine hmaximal.1.mayPrecede hformed.2.1 hformed.2.2 fun ha => ?_
        rw [headKind_upcoming] at ha
        rcases hlast with hlast | hlast
        · exact hclosing (hlast.symm.trans ha)
        · exact absurd (hlast.symm.trans ha) (by decide)
  | @assign _ _ o | @exprStmt _ _ o =>
    cases o with
    | error e => trivial
    | ok e => exact fun _ => trivial
  | @print st st₁ st₂ arg o hk h hm _ ihm =>
    have hend₁ := (h.consumes hend.entered.looked.passed).reaches.ends hend.entered.looked.passed
    have hr₂ := (hm.consumes hend₁).reaches
    cases o with
    | error e => trivial
    | ok es =>
      intro hf
      have hf₂ := ((Reaches.refl st₂).exited .stmt).faults_eq_nil hf
      obtain ⟨-, -, hext⟩ :=
        h.sound hend.entered.looked.passed (hr₂.faults_eq_nil hf₂) (Nat.zero_le _)
      exact ihm hend₁ hf₂ hext
  | vars _ => exact fun _ => trivial
  | @inspect st st₁ kind o _ _ ih =>
    cases o with
    | error e => trivial
    | ok s =>
      exact fun hf => ih hend.entered.looked (((Reaches.refl st₁).exited .stmt).faults_eq_nil hf)
  | @block st st₁ kind body _ _ _ ih =>
    intro hf
    have hf₁ := (((Reaches.refl st₁).looked.passed .inspect).exited .inspect).faults_eq_nil hf
    exact ih hend.entered.passed.looked.passed hf₁ (by decide)
  | @wrap st st₁ kind inner o _ _ _ ih =>
    cases o with
    | error e => trivial
    | ok s =>
      exact fun hf => ih hend.entered.passed.looked
        (((Reaches.refl st₁).exited .inspect).faults_eq_nil hf)
  | _ => trivial

namespace Parser

theorem separatedAll_readSource (rule : Rule) (t : Text)
    (herrors : ((ofText t).readSource rule).1.errors = []) :
    Stmt.SeparatedAll ((ofText t).readSource rule).1.program.stmts := by
  have hend := ends_start_ofText rule t
  obtain ⟨ss, st, hread, hprogram, hlog⟩ := exists_reads hend
  have hclosed : Reaches st (st.closed rule) := ((Reaches.refl st).passed rule).exited rule
  have hf : Step.faults st.log = [] :=
    hclosed.faults_eq_nil (List.reverse_eq_nil_iff.mp (hlog.symm.trans herrors))
  rw [hprogram]
  exact hread.keepsApart hend hf (by decide)

/-- What is read without a syntax error is read again from every text with the same tokens. -/
theorem readSource_of_same_tokens {rule : Rule} {t t' : Text} {us : List Token}
    (herrors : ((ofText t).readSource rule).1.errors = []) (h : t'.Splits us)
    (hus : us.filter (!·.hidden) = (Lexed.ofText t).visible)
    (hentry : rule = .entry → ((ofText t).readSource rule).1.program.stmts ≠ []) :
    ((ofText t').readSource rule).1.errors = [] ∧
      Stmt.unplacedAll ((ofText t').readSource rule).1.program.stmts =
        Stmt.unplacedAll ((ofText t).readSource rule).1.program.stmts := by
  obtain ⟨htokens, hformed, -⟩ := readSource_sound rule t herrors
  exact readSource_of_splits hformed (separatedAll_readSource rule t herrors) h
    (hus.trans htokens.symm) hentry

/-- An entry that is read without a syntax error has a token. -/
theorem visible_ne_nil_of_entry {t : Text} (herrors : (parseEntry t).errors = []) :
    (Lexed.ofText t).visible ≠ [] := by
  intro hnil
  have hend := ends_start_ofText .entry t
  obtain ⟨ss, st, hread, -, hlog⟩ := exists_reads hend
  have hclosed : Reaches st (st.closed .entry) := ((Reaches.refl st).passed .entry).exited .entry
  have hreaches := (hread.consumes hend).reaches.trans hclosed
  have hrest : (Word.group [] (ofText t).lexed.items).1 = [] := by
    have := map_token_rest_start .entry (ofText t)
    rw [lexed_ofText, hnil] at this
    simpa [start] using this
  -- An entry without a token is reported when it is opened.
  have hkind := hend
  rw [ParseState.Ends, last_start] at hkind
  rw [start, ParseState.opened, if_pos rfl, if_pos] at hreaches
  · exact hreaches.faults_ne_nil (List.reverse_eq_nil_iff.mp (hlog.symm.trans herrors))
  · rw [ParseState.token_of_rest_eq_nil hrest]
    exact hkind

theorem stmts_ne_nil_of_entry {t : Text} (herrors : (parseEntry t).errors = []) :
    (parseEntry t).program.stmts ≠ [] := by
  obtain ⟨htokens, -⟩ := readSource_sound .entry t herrors
  intro hnil
  have : Stmt.tokensOf (parseEntry t).program.stmts = (Lexed.ofText t).visible := htokens
  rw [hnil] at this
  exact visible_ne_nil_of_entry herrors this.symm

end Parser

/-! ## Texts in a row -/

namespace Layout

/-- One layout after another. -/
def append (l l' : Layout) : Layout :=
  ⟨l.words ++ (l'.pad l.trailing).words, (l'.pad l.trailing).trailing⟩

theorem pad_append (t : Text) (l l' : Layout) : (l.append l').pad t = (l.pad t).append l' := by
  obtain ⟨_ | _, trailing⟩ := l
  · exact pad_pad t trailing l'
  · rfl

/-- Tokens in a row show one after the other. -/
theorem of_append (ts us : List Token) : of (ts ++ us) = (of ts).append (of us) := by
  induction ts with
  | nil => simp [of, append]
  | cons t ts ih =>
    rw [List.cons_append, of, of, ih]
    split
    · exact pad_append t.text (of ts) (of us)
    · rfl

/-- Hidden tokens only show as text. -/
theorem of_hidden {ts : List Token} (h : ∀ t ∈ ts, t.hidden = true) :
    of ts = ⟨[], sourceText ts⟩ := by
  induction ts with
  | nil => rfl
  | cons t ts ih =>
    rw [List.forall_mem_cons] at h
    rw [of_cons_of_hidden h.1, ih h.2, sourceText_cons]
    rfl

/-- Tokens show with what stands in front of them. -/
theorem words_of_laid {lead : Token → List Token} (hlead : ∀ t, ∀ u ∈ lead t, u.hidden = true)
    {ts : List Token} (h : ∀ t ∈ ts, t.hidden = false) {us : List Token}
    (hus : ∀ u ∈ us, u.hidden = true) :
    (of (Token.laid lead ts ++ us)).words = ts.map fun t => (sourceText (lead t), t) := by
  induction ts with
  | nil => rw [Token.laid_nil, List.nil_append, of_hidden hus]; rfl
  | cons t ts ih =>
    rw [List.forall_mem_cons] at h
    rw [Token.laid_cons, List.append_assoc, List.cons_append, of_append, of_hidden (hlead t), of,
      if_neg (by simp [h.1]), List.map_cons, ← ih h.2]
    simp [append, pad]

end Layout

namespace Lexed

/-- The text right in front of a token of a source. -/
def gap (l : Lexed) (u : Token) : Text := sourceText (Token.lead l.tokens u)

/-- The tokens of a source that are not hidden, without their places and with the text in front of
them. -/
def words (l : Lexed) : List (Text × Token) := l.visible.map fun u => (l.gap u, u.unplaced)

variable {t : Text}

/-- What shows of a source that is split into some tokens. -/
theorem words_of_splits {ts : List Token} (h : t.Splits ts) :
    (ofText t).words = (Layout.of (ts.map Token.unplaced)).words := by
  have hlaid := Token.laid_lead (numbered_items t)
  have hvisible : ∀ u ∈ (ofText t).visible, u.hidden = false := fun u hu => by
    simpa using (List.mem_filter.mp hu).2
  have hof : (Layout.of ((ofText t).items.map Item.token)).words =
      (ofText t).visible.map fun u =>
        (sourceText (Token.lead ((ofText t).items.map Item.token) u), u) := by
    conv_lhs => rw [← hlaid]
    exact Layout.words_of_laid (fun _ _ => Token.hidden_of_mem_lead) hvisible fun _ =>
      List.mem_rtakeWhile_imp
  rw [← h.layout, ← unplaced_tokens h.closed, Layout.of_map_unplaced, hof, List.map_map, words]
  refine List.map_congr_left fun u hu => ?_
  have := Token.index_mem_numbered (numbered_items t) (List.mem_filter.mp hu).1
  rw [gap, tokens, all, List.map_append, Token.lead_append (by omega)]
  rfl

/-- A source without a fault is made up of its tokens. -/
theorem sourceText_items (h : ∀ i ∈ (ofText t).all, i.faults = []) :
    sourceText ((ofText t).items.map Item.token) = t := by
  have htext (ts : List Token) : sourceText (ts.map Token.unplaced) = sourceText ts := by
    rw [sourceText, List.flatMap_map]
    rfl
  rw [← htext, unplaced_tokens (closed_lexemes h), sourceText, List.flatMap_map]
  exact flatMap_text_lexemes t

end Lexed

/-! ## Lines in a row -/

/-- The terminator of a line ends every token. -/
theorem Token.endsBefore_newline (t : Token) (rest : Text) :
    t.EndsBefore (Text.newline :: rest) := by
  have hnumeral : Lexeme.isNumeral 10 = false := by decide
  have hword : Lexeme.isWordByte 10 = false := by decide
  obtain ⟨kind, text, literal, pos, index⟩ := t
  cases kind <;> simp [EndsBefore, Text.newline, hnumeral, hword]

/-- The terminator of a line, as a token. -/
def Token.terminator : Token := .made .blank [Text.newline]

theorem Token.written_terminator : terminator.Written :=
  ⟨by decide, List.forall_mem_singleton.mpr (by decide)⟩

/-- A line is split into its tokens, and so is what follows it. -/
theorem Text.Splits.line {line rest : Text} {us : List Token}
    (hline : ∀ i ∈ (Lexed.ofText line).all, i.faults = []) (h : rest.Splits us) :
    (line.line ++ rest).Splits
      ((Lexed.ofText line).items.map Item.token ++ Token.terminator :: us) := by
  obtain ⟨hwritten, hchain⟩ := Lexed.written_of_faults hline
  have hrest := h.blanks Token.written_terminator rfl
  have := hrest.append hwritten hchain fun u _ => u.endsBefore_newline rest
  rw [Lexed.sourceText_items hline] at this
  simpa [Text.line, Token.terminator, Token.made] using this

section
variable {line : Text} (h : (parseEntry line).errors = [])
include h

theorem splits_line : line.line.Splits
    ((Lexed.ofText line).items.map Item.token ++ [Token.terminator]) := by
  have := Text.Splits.nil.line (Parser.faults_eq_nil .entry line h)
  rwa [List.append_nil] at this

/-- An entry and the terminator of its line are the same entry. -/
theorem parseEntry_line : (parseEntry line.line).errors = [] ∧
    Stmt.unplacedAll (parseEntry line.line).program.stmts =
      Stmt.unplacedAll (parseEntry line).program.stmts := by
  refine Parser.readSource_of_same_tokens h (splits_line h) ?_ fun _ =>
    Parser.stmts_ne_nil_of_entry h
  rw [List.filter_append, List.filter_cons_of_neg (by decide), List.filter_nil, List.append_nil]
  rfl

theorem words_line : (Lexed.ofText line.line).words = (Lexed.ofText line).words := by
  have hline := Lexed.splits_of_faults (Parser.faults_eq_nil .entry line h)
  rw [Lexed.words_of_splits (splits_line h), Lexed.words_of_splits hline, List.map_append,
    Layout.of_append]
  exact List.append_nil _

end

/-- Words are the same, but for the text in front of the first of them. -/
def Layout.SameAfterFirst (ws ws' : List (Text × Token)) : Prop :=
  ws.map Prod.snd = ws'.map Prod.snd ∧ ws.tail = ws'.tail

theorem Layout.sameAfterFirst_pad (t : Text) (l : Layout) :
    SameAfterFirst l.words (l.pad t).words := by
  obtain ⟨_ | _, _⟩ := l <;> exact ⟨rfl, rfl⟩

/-- What shows of lines in a row is what shows of the lines, but for the text in front of them. -/
theorem Text.splits_join {lines : List Text}
    (h : ∀ line ∈ lines, ∀ i ∈ (Lexed.ofText line).all, i.faults = []) :
    ∃ ts, (Text.join [Text.newline] lines).Splits ts ∧
      ∀ t, ∃ wss, ((Layout.of (ts.map Token.unplaced)).pad t).words = wss.flatten ∧
        List.Forall₂ (fun line => Layout.SameAfterFirst (Lexed.ofText line).words) lines wss := by
  induction lines with
  | nil => exact ⟨[], .nil, fun t => ⟨[], rfl, .nil⟩⟩
  | cons line lines ih =>
    rw [List.forall_mem_cons] at h
    have hline := Lexed.splits_of_faults h.1
    have hpad (t : Text) := Layout.sameAfterFirst_pad t
      (Layout.of (((Lexed.ofText line).items.map Item.token).map Token.unplaced))
    rw [← Lexed.words_of_splits hline] at hpad
    cases lines with
    | nil =>
      refine ⟨_, hline, fun t => ⟨[_], (List.append_nil _).symm, ?_⟩⟩
      exact .cons (hpad t) .nil
    | cons next lines =>
      obtain ⟨ts, hsplits, hwords⟩ := ih h.2
      refine ⟨_, by simpa [Text.join, Text.line] using hsplits.line h.1, fun t => ?_⟩
      -- In front of the next line stand the end of this one and its terminator.
      rw [List.map_append, List.map_cons, Layout.of_append, Layout.pad_append,
        Layout.of_cons_of_hidden rfl, Layout.append, Layout.pad_pad]
      obtain ⟨wss, hflatten, hall⟩ := hwords _
      exact ⟨_ :: wss, by rw [hflatten, List.flatten_cons], .cons (hpad t) hall⟩

/-! ## The statements of the lines -/

deriving instance DecidableEq for Expr

namespace Stmt

mutual

/-- Whether two statements are the same. -/
def decEq : (s s' : Stmt) → Decidable (s = s')
  | assign n q v, assign n' q' v' =>
    decidable_of_iff (n = n' ∧ q = q' ∧ v = v') (by rw [assign.injEq])
  | print k e es, print k' e' es' =>
    decidable_of_iff (k = k' ∧ e = e' ∧ es = es') (by rw [print.injEq])
  | expr e, expr e' => decidable_of_iff (e = e') (by rw [expr.injEq])
  | vars k, vars k' => decidable_of_iff (k = k') (by rw [vars.injEq])
  | block kind k o ss c, block kind' k' o' ss' c' =>
    have := decEqAll ss ss'
    decidable_of_iff (kind = kind' ∧ k = k' ∧ o = o' ∧ ss = ss' ∧ c = c') (by rw [block.injEq])
  | wrap kind k s, wrap kind' k' s' =>
    have := decEq s s'
    decidable_of_iff (kind = kind' ∧ k = k' ∧ s = s') (by rw [wrap.injEq])
  | assign .., print .. | assign .., expr _ | assign .., vars _ | assign .., block ..
  | assign .., wrap .. | print .., assign .. | print .., expr _ | print .., vars _
  | print .., block .. | print .., wrap .. | expr _, assign .. | expr _, print ..
  | expr _, vars _ | expr _, block .. | expr _, wrap .. | vars _, assign .. | vars _, print ..
  | vars _, expr _ | vars _, block .. | vars _, wrap .. | block .., assign .. | block .., print ..
  | block .., expr _ | block .., vars _ | block .., wrap .. | wrap .., assign ..
  | wrap .., print .. | wrap .., expr _ | wrap .., vars _ | wrap .., block .. => isFalse nofun

/-- Whether two lists of statements are the same. -/
def decEqAll : (ss ss' : List Stmt) → Decidable (ss = ss')
  | [], [] => isTrue rfl
  | s :: ss, s' :: ss' =>
    have := decEq s s'
    have := decEqAll ss ss'
    decidable_of_iff (s = s' ∧ ss = ss') (by rw [List.cons.injEq])
  | [], _ :: _ | _ :: _, [] => isFalse nofun

end

instance : DecidableEq Stmt := decEq

theorem unplacedAll_eq_map (ss : List Stmt) : unplacedAll ss = ss.map unplaced := by
  induction ss with
  | nil => rfl
  | cons s ss ih => rw [unplacedAll, ih, List.map_cons]

theorem tokensOf_append (ss ss' : List Stmt) :
    tokensOf (ss ++ ss') = tokensOf ss ++ tokensOf ss' := by
  induction ss with
  | nil => rfl
  | cons s ss ih => rw [List.cons_append, tokensOf, tokensOf, ih, List.append_assoc]

/-- Some statements of a source are those of a line on its own: only their tokens stand elsewhere,
with the same text in front of each but the first. -/
def Carries (source line : Text) (ss : List Stmt) : Prop :=
  ∃ f, Token.IsMove f ∧ ss = mapAll f (parseEntry line.line).program.stmts ∧
    ∀ u ∈ (tokensOf (parseEntry line.line).program.stmts).tail,
      (Lexed.ofText source).gap (f u) = (Lexed.ofText line.line).gap u

theorem carries_of_sameAfterFirst {source line : Text} {ss : List Stmt}
    (herrors : (parseEntry line).errors = [])
    (hss : unplacedAll ss = unplacedAll (parseEntry line).program.stmts)
    (hwords : Layout.SameAfterFirst (Lexed.ofText line).words
      ((tokensOf ss).map fun u => ((Lexed.ofText source).gap u, u.unplaced))) :
    Carries source line ss := by
  obtain ⟨hline, hstmts⟩ := parseEntry_line herrors
  have htokens : tokensOf (parseEntry line.line).program.stmts = (Lexed.ofText line.line).visible :=
    (Parser.readSource_sound .entry line.line hline).1
  rw [← words_line herrors, Lexed.words, ← htokens] at hwords
  obtain ⟨hsame, hgaps⟩ := hwords
  have hnodup : (tokensOf (parseEntry line.line).program.stmts).Nodup := by
    rw [htokens]
    refine (Lexed.ordered_visible line.line).imp fun hlt heq => ?_
    rw [heq] at hlt
    exact Nat.lt_irrefl _ hlt
  rw [List.map_map, List.map_map] at hsame
  obtain ⟨f, hf, hmoved⟩ := Token.exists_isMove hnodup hsame.symm
  refine ⟨f, hf, eq_mapAll (hss.trans hstmts.symm) hmoved, fun u hu => ?_⟩
  rw [hmoved, ← List.map_tail, ← List.map_tail, ← List.map_tail, List.map_map] at hgaps
  exact (congrArg Prod.fst (List.map_inj_left.mp hgaps u hu)).symm

theorem exists_carries {source : Text} {lines : List Text} {wss : List (List (Text × Token))}
    (hwords : List.Forall₂ (fun line => Layout.SameAfterFirst (Lexed.ofText line).words) lines wss)
    (hlines : ∀ line ∈ lines, (parseEntry line).errors = []) {ss : List Stmt}
    (hss : unplacedAll ss = lines.flatMap fun line => unplacedAll (parseEntry line).program.stmts)
    (htokens : ((tokensOf ss).map fun u => ((Lexed.ofText source).gap u, u.unplaced)) =
      wss.flatten) :
    ∃ chunks, ss = chunks.flatten ∧ List.Forall₂ (Carries source) lines chunks := by
  induction hwords generalizing ss with
  | nil =>
    obtain rfl : ss = [] := by simpa [unplacedAll_eq_map] using hss
    exact ⟨[], rfl, .nil⟩
  | @cons line ws lines wss hhead _ ih =>
    rw [List.forall_mem_cons] at hlines
    rw [List.flatMap_cons, unplacedAll_eq_map ss, List.map_eq_append_iff] at hss
    obtain ⟨chunk, rest, rfl, hchunk, hrest⟩ := hss
    rw [← unplacedAll_eq_map] at hchunk hrest
    have hlength : (tokensOf chunk).length = ws.length := by
      have hvisible : tokensOf (parseEntry line).program.stmts = (Lexed.ofText line).visible :=
        (Parser.readSource_sound .entry line hlines.1).1
      have hsame := congrArg List.length hhead.1
      rw [List.length_map, List.length_map, Lexed.words, List.length_map, ← hvisible] at hsame
      rw [length_tokensOf_of_unplacedAll_eq hchunk, hsame]
    rw [tokensOf_append, List.map_append, List.flatten_cons] at htokens
    obtain ⟨hfirst, hlater⟩ := List.append_inj htokens (by rw [List.length_map, hlength])
    obtain ⟨chunks, rfl, hall⟩ := ih hlines.2 hrest hlater
    rw [← hfirst] at hhead
    exact ⟨chunk :: chunks, rfl, .cons (carries_of_sameAfterFirst hlines.1 hchunk hhead) hall⟩

/-- If the lines of a source are entries, and the source is read as the statements of them all, it
is made up of the statements of the lines. -/
theorem exists_carries_join {lines : List Text}
    (hlines : ∀ line ∈ lines, (parseEntry line).errors = [])
    (herrors : (parseProgram (Text.join [Text.newline] lines)).errors = [])
    (hstmts : unplacedAll (parseProgram (Text.join [Text.newline] lines)).program.stmts =
      lines.flatMap fun line => unplacedAll (parseEntry line).program.stmts) :
    ∃ chunks, (parseProgram (Text.join [Text.newline] lines)).program.stmts = chunks.flatten ∧
      List.Forall₂ (Carries (Text.join [Text.newline] lines)) lines chunks := by
  obtain ⟨ts, hsplits, hwords⟩ :=
    Text.splits_join fun line hline => Parser.faults_eq_nil .entry line (hlines line hline)
  obtain ⟨wss, hflatten, hall⟩ := hwords []
  refine exists_carries hall hlines hstmts ?_
  have htokens : tokensOf (parseProgram (Text.join [Text.newline] lines)).program.stmts =
      (Lexed.ofText (Text.join [Text.newline] lines)).visible :=
    (Parser.readSource_sound .program _ herrors).1
  rw [htokens, ← hflatten, Layout.pad_nil, ← Lexed.words_of_splits hsplits]
  rfl

theorem subset_tokensOf {s : Stmt} {ss : List Stmt} (h : s ∈ ss) : s.tokens ⊆ tokensOf ss := by
  obtain ⟨before, after, rfl⟩ := List.append_of_mem h
  intro u hu
  rw [tokensOf_append, tokensOf, List.mem_append, List.mem_append]
  exact .inr (.inl hu)

/-- Only the first token of the first statement is the first of them all. -/
theorem mem_tail_tokensOf {s : Stmt} {ss : List Stmt} (h : s ∈ ss) {u : Token}
    (hu : u ∈ s.tokens.tail) : u ∈ (tokensOf ss).tail := by
  cases ss with
  | nil => cases h
  | cons s' ss =>
    obtain ⟨ts, hts⟩ := s'.exists_tokens_eq_cons
    rw [tokensOf, hts, List.cons_append, List.tail_cons, List.mem_append]
    rcases List.mem_cons.mp h with rfl | h
    · rw [hts] at hu
      exact .inl hu
    · exact .inr (subset_tokensOf h (List.mem_of_mem_tail hu))

theorem mem_partsOf {s : Stmt} {ss : List Stmt} (h : s ∈ ss) : s ∈ partsOf ss := by
  induction ss with
  | nil => cases h
  | cons s' ss ih =>
    rw [partsOf, List.mem_append]
    rcases List.mem_cons.mp h with rfl | h
    · exact .inl (by cases s <;> simp [parts])
    · exact .inr (ih h)

/-- A moved block is refactored to the same text, if the text between its tokens is the same. -/
theorem simplified_map (rule rule' : Rule) {t t' : Text}
    (ht : ((Parser.ofText t).readSource rule).1.errors = [])
    (ht' : ((Parser.ofText t').readSource rule').1.errors = []) {f : Token → Token}
    (hf : Token.IsMove f) {kind : Inspection} {keyword opening closing : Token} {body : List Stmt}
    (hs : block kind keyword opening body closing ∈
      partsOf ((Parser.ofText t).readSource rule).1.program.stmts)
    (hs' : (block kind keyword opening body closing).map f ∈
      partsOf ((Parser.ofText t').readSource rule').1.program.stmts)
    (hgap : ∀ u ∈ tokensOf body ++ [closing],
      (Lexed.ofText t').gap (f u) = (Lexed.ofText t).gap u) :
    ((block kind keyword opening body closing).map f).simplified (Lexed.ofText t').tokens =
      (block kind keyword opening body closing).simplified (Lexed.ofText t).tokens := by
  rw [List.forall_mem_append, List.forall_mem_singleton] at hgap
  have hbody := sourceText_laidAll_map hf hgap.1
  rw [(simplified_readSource rule ht hs).1]
  rw [map] at hs' ⊢
  rw [(simplified_readSource rule' ht' hs').1, sourceText_append, sourceText_append, hbody]
  exact congrArg (fun text => Except.ok (_ ++ text)) hgap.2

end Stmt

/-! ## Lines that are entries -/

namespace Text

/-- What is dropped is made up of the parts. -/
theorem exists_dropWithin (parts : List Text) (fuel : Nat) (t : Text) :
    ∃ ps : List Text, (∀ p ∈ ps, p ∈ parts) ∧ t = ps.flatten ++ dropWithin parts fuel t := by
  induction fuel generalizing t with
  | zero => exact ⟨[], by simp, rfl⟩
  | succ fuel ih =>
    rw [dropWithin]
    split
    · next part hpart =>
      obtain ⟨rest, rfl⟩ : part <+: t := by simpa using List.find?_some hpart
      rw [List.drop_left]
      obtain ⟨ps, hps, hrest⟩ := ih rest
      refine ⟨part :: ps, List.forall_mem_cons.mpr ⟨List.mem_of_find?_eq_some hpart, hps⟩, ?_⟩
      rw [List.flatten_cons, List.append_assoc, ← hrest]
    · exact ⟨[], by simp, rfl⟩

theorem mem_dropWithin {parts : List Text} {b : UInt8} (hb : ∀ part ∈ parts, b ∉ part) {t : Text}
    (h : b ∈ t) (fuel : Nat) : b ∈ dropWithin parts fuel t := by
  obtain ⟨ps, hps, ht⟩ := exists_dropWithin parts fuel t
  rw [ht, List.mem_append, List.mem_flatten] at h
  exact h.resolve_left fun ⟨part, hpart, hmem⟩ => hb part (hps part hpart) hmem

/-- Only white space is trimmed. -/
theorem mem_trimSpace {b : UInt8} (hb : ∀ part ∈ spaces, b ∉ part) {t : Text} (h : b ∈ t) :
    b ∈ trimSpace t := by
  have hreverse : ∀ part ∈ spaces.map List.reverse, b ∉ part := by
    intro part hpart
    obtain ⟨space, hspace, rfl⟩ := List.mem_map.mp hpart
    simpa using hb space hspace
  rw [trimSpace, trimSpaceEnd, List.mem_reverse]
  refine mem_dropWithin hreverse ?_ _
  rw [List.mem_reverse]
  exact mem_dropWithin hb h _

theorem trimBlankEnd_line (t : Text) : t.line.trimBlankEnd = t.trimBlankEnd := by
  simp [trimBlankEnd, trimEndWhile, line, isBlank]

end Text

/-- No token but a blank begins with a byte of white space. -/
theorem Token.Spelled.exists_byte {t : Token} (h : t.Spelled) :
    ∃ b ∈ t.text, ∀ part ∈ Text.spaces, b ∉ part := by
  have hspaces : ∀ b ∈ Text.spaces.flatten, Text.isBlank b = true ∨
      (Lexeme.IsSign b ∧ Lexeme.single? b = none ∧ b ≠ Text.byte '/' ∧
        (b ≠ Text.byte '&' ∧ b ≠ Text.byte '|') ∧
        (b ≠ Text.byte '=' ∧ b ≠ Text.byte '!' ∧ b ≠ Text.byte '<' ∧ b ≠ Text.byte '>')) := by
    decide +kernel
  obtain ⟨b, bs, htext, hscan⟩ := h.exists_scan t.endsBefore_nil
  obtain ⟨c, cs, htext', hblank⟩ := h.exists_text_eq_cons
  obtain ⟨rfl, rfl⟩ : b = c ∧ bs = cs := by simpa [htext] using htext'
  refine ⟨b, by simp [htext], fun part hpart hb => ?_⟩
  rcases hspaces b (List.mem_flatten.mpr ⟨part, hpart, hb⟩) with hb | ⟨hsign, hone, hslash, hne⟩
  · rw [hblank] at hb
    cases hb
  -- The lexer finds no token at such a byte.
  · rw [Lexeme.scan_sign hsign (.inl hslash)] at hscan
    have hnone : (Lexeme.scanOperator b (bs ++ [])).1.kind = none := by
      cases bs with
      | nil => exact hone
      | cons c cs => simp [Lexeme.scanOperator, Lexeme.double?_of_not_equality hne.1 hne.2 c, hone]
    rw [hscan] at hnone
    cases hnone

theorem trimSpace_line_ne_nil {line : Text} (h : (parseEntry line).errors = []) :
    Text.trimSpace line.line ≠ [] := by
  have hfaults := Parser.faults_eq_nil .entry line h
  obtain ⟨u, us, hvisible⟩ := List.exists_cons_of_ne_nil (Parser.visible_ne_nil_of_entry h)
  have hu : u ∈ (Lexed.ofText line).visible := hvisible ▸ List.mem_cons_self
  obtain ⟨b, hb, hspace⟩ := ((Lexed.legible_visible hfaults).spelled u hu).exists_byte
  have hmem : b ∈ line := by
    rw [← Lexed.sourceText_items hfaults]
    exact List.mem_flatMap.mpr ⟨u, (List.mem_filter.mp hu).1, hb⟩
  have := Text.mem_trimSpace hspace (List.mem_append_left [Text.newline] hmem)
  exact List.ne_nil_of_mem this

end Reckoner
