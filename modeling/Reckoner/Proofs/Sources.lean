import Reckoner.Parser
import Reckoner.Proofs.Running
import Reckoner.Proofs.Simplifying

/-!
# From a text to its statements

The lexer numbers its tokens in source order and only the last one is the end of input. The parser
sees those of them that are not hidden. `Parser.exists_reads` puts the two together: reading a
source is reading a list of statements by the rules, starting from all its words.
-/
namespace Reckoner

/-! ## Tokens -/

namespace TokenKind

theorem ofWord_ne_eof (word : Text) : ofWord word ≠ .eof := by
  unfold ofWord
  split
  · next k h =>
    have := List.mem_of_find?_eq_some h
    rintro rfl
    simp at this
  · split <;> simp

end TokenKind

namespace Lexeme

theorem ite_ne {c : Prop} [Decidable c] {j k l : Option TokenKind} (hj : j ≠ l) (hk : k ≠ l) :
    (if c then j else k) ≠ l := by
  split
  · exact hj
  · exact hk

theorem single?_ne_eof (b : UInt8) : single? b ≠ some .eof := by
  unfold single?
  repeat' apply ite_ne
  all_goals simp

theorem double?_ne_eof (b c : UInt8) : double? b c ≠ some .eof := by
  unfold double?
  repeat' apply ite_ne
  all_goals simp

theorem kind_scanOperator_ne_eof (b : UInt8) (bs : Text) :
    (scanOperator b bs).1.kind ≠ some .eof := by
  unfold scanOperator
  split
  · split
    · next h => exact fun he => double?_ne_eof _ _ (h.trans he)
    · exact single?_ne_eof b
  · exact single?_ne_eof b

theorem kind_scan_ne_eof (b : UInt8) (bs : Text) : (scan b bs).1.kind ≠ some .eof := by
  unfold scan
  repeat' split
  all_goals simp [TokenKind.ofWord_ne_eof, kind_scanOperator_ne_eof]

end Lexeme

/-- No lexeme is the end of input. -/
theorem kind_ne_eof_of_mem_lexemesWithin {fuel : Nat} {t : Text} {l : Lexeme}
    (h : l ∈ lexemesWithin fuel t) : l.kind ≠ some .eof := by
  fun_induction lexemesWithin fuel t with
  | case1 | case2 => simp at h
  | case3 fuel b bs lexeme rest hscan ih =>
    rcases List.mem_cons.mp h with rfl | h
    · have hkind := Lexeme.kind_scan_ne_eof b bs
      rwa [hscan] at hkind
    · exact ih h

namespace Lexed

theorem kind_last_locate (pos : Position) (index : Nat) (faults : List SyntaxError)
    (ls : List Lexeme) : (locate pos index faults ls).last.token.kind = .eof := by
  fun_induction locate pos index faults ls with
  | case1 => rfl
  | case2 _ _ _ _ _ _ _ ih => exact ih
  | case3 _ _ _ _ _ _ _ _ _ _ ih => exact ih

theorem kind_ne_eof_of_mem_locate {pos : Position} {index : Nat} {faults : List SyntaxError}
    {ls : List Lexeme} (hl : ∀ l ∈ ls, l.kind ≠ some .eof) {i : Item}
    (hi : i ∈ (locate pos index faults ls).items) : i.token.kind ≠ .eof := by
  fun_induction locate pos index faults ls with
  | case1 => simp at hi
  | case2 _ _ _ _ _ _ _ ih => exact ih (fun l h => hl l (List.mem_cons_of_mem _ h)) hi
  | case3 _ _ _ l _ kind hkind _ _ _ ih =>
    rcases List.mem_cons.mp hi with rfl | hi
    · intro he
      exact hl l List.mem_cons_self (hkind.trans (congrArg some he))
    · exact ih (fun l h => hl l (List.mem_cons_of_mem _ h)) hi

/-- The tokens are numbered in source order, from a given number on. -/
theorem ordered_locate (pos : Position) (index : Nat) (faults : List SyntaxError)
    (ls : List Lexeme) :
    (∀ i ∈ (locate pos index faults ls).items, index ≤ i.token.index) ∧
      Token.Ordered ((locate pos index faults ls).items.map Item.token) := by
  fun_induction locate pos index faults ls with
  | case1 => simp [Token.Ordered]
  | case2 _ _ _ _ _ _ _ ih => exact ih
  | case3 _ index _ _ _ _ _ _ token _ ih =>
    obtain ⟨hle, ho⟩ := ih
    refine ⟨fun i hi => ?_, List.pairwise_cons.mpr ⟨fun t ht => ?_, ho⟩⟩
    · rcases List.mem_cons.mp hi with rfl | hi
      · exact Nat.le_refl _
      · exact Nat.le_of_succ_le (hle i hi)
    · obtain ⟨i, hi, rfl⟩ := List.mem_map.mp ht
      exact hle i hi

/-- The tokens are numbered without gaps, the end of input with them. -/
theorem numbered_locate (pos : Position) (index : Nat) (faults : List SyntaxError)
    (ls : List Lexeme) : Token.Numbered index (locate pos index faults ls).tokens := by
  fun_induction locate pos index faults ls with
  | case1 => exact ⟨rfl, trivial⟩
  | case2 _ _ _ _ _ _ _ ih => exact ih
  | case3 _ _ _ _ _ _ _ _ _ _ ih => exact ⟨rfl, ih⟩

theorem numbered_ofText (t : Text) : Token.Numbered 0 (ofText t).tokens :=
  numbered_locate {} 0 [] (lexemes t)

/-- Every token stands at its own number. -/
theorem getElem?_tokens_ofText {t : Text} {u : Token} (h : u ∈ (ofText t).tokens) :
    (ofText t).tokens[u.index]? = some u := by
  obtain ⟨k, hk⟩ := List.mem_iff_getElem?.mp h
  have hindex := Token.index_of_numbered (numbered_ofText t) hk
  rw [Nat.zero_add] at hindex
  rw [hindex]
  exact hk

theorem ordered_tokens_ofText (t : Text) : Token.Ordered (ofText t).tokens := by
  refine List.pairwise_iff_getElem.mpr fun i j hi hj hlt => ?_
  have hfirst := Token.index_of_numbered (numbered_ofText t) (List.getElem?_eq_getElem hi)
  have hsecond := Token.index_of_numbered (numbered_ofText t) (List.getElem?_eq_getElem hj)
  omega

theorem kind_last_ofText (t : Text) : (ofText t).last.token.kind = .eof :=
  kind_last_locate {} 0 [] (lexemes t)

theorem kind_ne_eof_of_mem_ofText {t : Text} {i : Item} (hi : i ∈ (ofText t).items) :
    i.token.kind ≠ .eof :=
  kind_ne_eof_of_mem_locate (fun _ h => kind_ne_eof_of_mem_lexemesWithin h) hi

theorem ordered_ofText (t : Text) : Token.Ordered ((ofText t).items.map Item.token) :=
  (ordered_locate {} 0 [] (lexemes t)).2

end Lexed

/-! ## Words -/

namespace Word

/-- The words are the tokens that are not hidden. -/
theorem map_token_group (lead is : List Item) :
    (group lead is).1.map token = (is.map Item.token).filter (!·.hidden) := by
  fun_induction group lead is with
  | case1 => rfl
  | case2 lead i is hi ih => simp [ih, hi]
  | case3 lead i is hi words trailing hg ih =>
    rw [hg] at ih
    simp [ih, hi, token]

/-- Grouping keeps all items. -/
theorem flatMap_items_group (lead is : List Item) :
    (group lead is).1.flatMap items ++ (group lead is).2 = lead ++ is := by
  fun_induction group lead is with
  | case1 => simp
  | case2 lead i is hi ih => simp [ih]
  | case3 lead i is hi words trailing hg ih =>
    rw [hg] at ih
    simp [ih, items]

end Word

/-- The tokens that the parser sees, without the end of input. -/
def Lexed.visible (l : Lexed) : List Token := (l.items.map Item.token).filter (!·.hidden)

namespace Lexed

theorem kind_ne_eof_of_mem_visible {t : Text} {u : Token} (h : u ∈ (ofText t).visible) :
    u.kind ≠ .eof := by
  obtain ⟨i, hi, rfl⟩ := List.mem_map.mp (List.mem_filter.mp h).1
  exact kind_ne_eof_of_mem_ofText hi

theorem mem_tokens_of_mem_visible {l : Lexed} {u : Token} (h : u ∈ l.visible) : u ∈ l.tokens := by
  rw [tokens, all, List.map_append]
  exact List.mem_append_left _ (List.mem_filter.mp h).1

theorem ordered_visible (t : Text) : Token.Ordered (ofText t).visible :=
  (ordered_ofText t).filter _

end Lexed

/-! ## Sources -/

namespace ParseState

/-- The state after a source was opened: an entry has to hold a statement. -/
def opened (rule : Rule) (st : ParseState) : ParseState :=
  if rule = .entry then
    if st.token.kind = .eof then
      (st.entered rule).looked.noted (.fault (.mismatched st.token .statement))
    else (st.entered rule).looked
  else st.entered rule

@[simp] theorem rest_opened (rule : Rule) (st : ParseState) :
    (st.opened rule).rest = st.rest := by
  unfold opened
  split
  · split <;> simp
  · simp

@[simp] theorem last_opened (rule : Rule) (st : ParseState) :
    (st.opened rule).last = st.last := by
  unfold opened
  split
  · split <;> simp
  · simp

/-- The state after a source was read. -/
def closed (rule : Rule) (st : ParseState) : ParseState := (st.passed rule).exited rule

end ParseState

theorem Grammar.source_apply (rule : Rule) (fuel : Nat) (st : ParseState) :
    Grammar.source .all rule fuel st =
      match Grammar.stmts .all fuel .eof rule (st.opened rule) with
      | (.ok ss, st') => (.ok ss, st'.closed rule)
      | (.error e, st') => (.error e, st'.exited rule) := by
  by_cases hr : rule = .entry
  · by_cases hk : st.token.kind = .eof
    · simp only [Grammar.source, ParseState.opened, ParseState.closed, hr, hk, Parse.within_apply,
        ParseState.token_entered, if_true, Effect.bind_apply, Parse.current_apply,
        Parse.record_apply]
      rcases Grammar.stmts .all fuel .eof .entry _ with ⟨_ | _, _⟩ <;> simp
    · simp only [Grammar.source, ParseState.opened, ParseState.closed, hr, hk, Parse.within_apply,
        ParseState.token_entered, if_true, if_false, Effect.bind_apply, Parse.current_apply,
        Effect.pure_apply]
      rcases Grammar.stmts .all fuel .eof .entry _ with ⟨_ | _, _⟩ <;> simp
  · simp only [Grammar.source, ParseState.opened, ParseState.closed, hr, Parse.within_apply,
      if_false, Effect.bind_apply, Effect.pure_apply]
    rcases Grammar.stmts .all fuel .eof rule _ with ⟨_ | _, _⟩ <;> simp

/-- Reading a source is reading a list of statements, and always gives one. More fuel than the
parser gives itself makes no difference. -/
theorem Grammar.exists_reads_source {rule : Rule} {st : ParseState} (hend : (st.opened rule).Ends) :
    ∃ ss st', Reads (.stmts .eof rule) (st.opened rule) (.ok ss) st' ∧
      ∀ fuel, Grammar.fuelFor st.rest.length ≤ fuel →
        Grammar.source .all rule fuel st = (.ok ss, st'.closed rule) := by
  have hneed : ∀ fuel, Grammar.fuelFor st.rest.length ≤ fuel →
      (Goal.stmts .eof rule).need (st.opened rule) ≤ fuel := by
    intro fuel hfuel
    simp only [Grammar.fuelFor, Goal.need, Goal.cost, ParseState.rest_opened] at hfuel ⊢
    omega
  obtain ⟨o, st', hread⟩ :=
    canRead _ (Goal.stmts .eof rule) (st.opened rule) hend (hneed _ (Nat.le_refl _))
  obtain ⟨ss, rfl⟩ := hread.recovers
  refine ⟨ss, st', hread, fun fuel hfuel => ?_⟩
  have hrun := hread.run_eq hend fuel (hneed fuel hfuel)
  rw [Goal.run] at hrun
  rw [Grammar.source_apply, hrun]

namespace Parser

theorem lexed_ofText (t : Text) : (ofText t).lexed = Lexed.ofText t := by
  unfold ofText
  cases h : (Lexed.ofText t).items <;> simp [h]

/-- The state in which the statements of a source are read. -/
def start (rule : Rule) (p : Parser) : ParseState :=
  ParseState.opened rule
    { rest := (Word.group [] p.lexed.items).1,
      last := ⟨(Word.group [] p.lexed.items).2, p.lexed.last⟩, created := p.created }

theorem map_token_rest_start (rule : Rule) (p : Parser) :
    (p.start rule).rest.map Word.token = p.lexed.visible := by
  simp [start, Word.map_token_group, Lexed.visible]

theorem last_start (rule : Rule) (p : Parser) :
    (p.start rule).last.token = p.lexed.last.token := by
  simp [start, Word.token]

theorem ends_start_ofText (rule : Rule) (t : Text) : ((ofText t).start rule).Ends := by
  rw [ParseState.Ends, last_start, lexed_ofText]
  exact Lexed.kind_last_ofText t

/-- What the parser looks at comes from the source. -/
theorem mem_all_of_mem_items {rule : Rule} {p : Parser} {w : Word} {i : Item}
    (hw : w ∈ (p.start rule).last :: (p.start rule).rest) (hi : i ∈ w.items) :
    i ∈ p.lexed.all := by
  rw [start, ParseState.last_opened, ParseState.rest_opened, List.mem_cons] at hw
  have hitems : _ = p.lexed.items := Word.flatMap_items_group [] p.lexed.items
  rw [Lexed.all, ← hitems, List.append_assoc]
  rcases hw with rfl | hw
  · exact List.mem_append_right _ hi
  · exact List.mem_append_left _ (List.mem_flatMap.mpr ⟨w, hw, hi⟩)

/-- Reading a source is reading a list of statements, and always gives one. -/
theorem exists_reads {rule : Rule} {p : Parser} (hend : (p.start rule).Ends) :
    ∃ ss st, Reads (.stmts .eof rule) (p.start rule) (.ok ss) st ∧
      (p.readSource rule).1.program = ⟨ss, p.tokens⟩ ∧
      (p.readSource rule).1.errors = (Step.faults (st.closed rule).log).reverse := by
  obtain ⟨ss, st, hread, hsource⟩ := Grammar.exists_reads_source hend
  have hrun := hsource _ (Nat.le_refl _)
  refine ⟨ss, st, hread, ?_, ?_⟩
  · simp only [readSource, hrun]
  · simp only [readSource, hrun]
    exact List.filterMap_reverse

/-- A source is read to its end. -/
theorem rest_eq_nil_of_reads {rule : Rule} {t : Text} {o : Except SyntaxError (List Stmt)}
    {st : ParseState} (h : Reads (.stmts .eof rule) ((ofText t).start rule) o st) :
    st.rest = [] := by
  have hk : st.token.kind = .eof := h.stops.elim id id
  have hreaches := (h.consumes (ends_start_ofText rule t)).reaches
  cases hr : st.rest with
  | nil => rfl
  | cons w ws =>
    have hw : w ∈ ((ofText t).start rule).rest := hreaches.rest.subset (hr ▸ List.mem_cons_self)
    have hmem : w.token ∈ (Lexed.ofText t).visible := by
      rw [← lexed_ofText, ← map_token_rest_start rule]
      exact List.mem_map_of_mem hw
    rw [ParseState.token_of_rest_eq_cons hr] at hk
    exact absurd hk (Lexed.kind_ne_eof_of_mem_visible hmem)

/-- The statements of a source hold tokens that the parser sees, in source order, whether or not it
has syntax errors. -/
theorem tokensOf_readSource_sublist (rule : Rule) (t : Text) :
    (Stmt.tokensOf ((ofText t).readSource rule).1.program.stmts).Sublist
      (Lexed.ofText t).visible := by
  have hend := ends_start_ofText rule t
  obtain ⟨ss, st, hread, hprogram, -⟩ := exists_reads hend
  obtain ⟨ts, hts, htaken⟩ := hread.consumes hend
  obtain ⟨ws, hws, hsub, -⟩ := htaken.words
  have htokens : Stmt.tokensOf ss = ts := hts
  rw [hprogram, htokens, ← lexed_ofText, ← map_token_rest_start rule, hws, List.map_append]
  exact hsub.trans (List.sublist_append_left _ _)

/-- The tokens of the statements of a source are numbered in order. -/
theorem ordered_readSource (rule : Rule) (t : Text) :
    Token.Ordered (Stmt.tokensOf ((ofText t).readSource rule).1.program.stmts) :=
  (Lexed.ordered_visible t).sublist (tokensOf_readSource_sublist rule t)

/-- A program keeps all tokens of its source. -/
theorem tokens_readSource (rule : Rule) (t : Text) :
    ((ofText t).readSource rule).1.program.tokens = (Lexed.ofText t).tokens := by
  obtain ⟨ss, st, -, hprogram, -⟩ := exists_reads (ends_start_ofText rule t)
  rw [hprogram, tokens, lexed_ofText]

/-- The tokens of the statements of a source stand at their numbers among all its tokens. -/
theorem getElem?_tokens_readSource (rule : Rule) (t : Text) {u : Token}
    (h : u ∈ Stmt.tokensOf ((ofText t).readSource rule).1.program.stmts) :
    ((ofText t).readSource rule).1.program.tokens[u.index]? = some u := by
  have hvisible := (tokensOf_readSource_sublist rule t).subset h
  rw [tokens_readSource]
  exact Lexed.getElem?_tokens_ofText (Lexed.mem_tokens_of_mem_visible hvisible)

end Parser
end Reckoner
