import Reckoner.Proofs.Entries

/-!
# Layout does not matter

Blanks, line ends and comments only keep tokens apart. Two sources without a faulty token that show
the same words, each of the same kind and written in the same way, are both read without a syntax
error or both with one. If there is none, they are read as the same tree: `parse_of_same_words`.

The content of a string follows from how it is written, so that kind and text determine a token up
to its place. The rest of the argument moves the tokens of one source to where those of the other
stand, and reads what is moved.
-/
namespace Reckoner

open Lexeme

/-! ## Words -/

/-- What a text between quotation marks stands for is unique. -/
theorem Lexeme.Quotes.content_unique {quote : UInt8} {body content content' : Text}
    (h : Quotes quote body content) (h' : Quotes quote body content') : content' = content := by
  induction h generalizing content' with
  | nil =>
    cases h'
    rfl
  | plain hq hs _ ih =>
    cases h' with
    | plain _ _ h' => rw [ih h']
    | escaped _ => exact absurd rfl hs
  | escaped _ ih =>
    cases h' with
    | plain _ hs _ => exact absurd rfl hs
    | escaped h' => rw [ih h']

/-- What a reader sees of a token. -/
def Token.word (t : Token) : TokenKind × Text := (t.kind, t.text)

/-- A token is known by its word, up to its place. -/
theorem Token.Spelled.unplaced_eq {t u : Token} (ht : t.Spelled) (hu : u.Spelled)
    (h : t.word = u.word) : t.unplaced = u.unplaced := by
  obtain ⟨hkind, htext⟩ := Prod.mk.injEq .. ▸ h
  have hliteral : t.literal = u.literal := by
    unfold Spelled at ht hu
    rw [← hkind, ← htext] at hu
    cases hk : t.kind with
    | string =>
      simp only [hk] at ht hu
      obtain ⟨quote, body, -, hbody, hquotes⟩ := ht
      obtain ⟨quote', body', -, hbody', hquotes'⟩ := hu
      obtain ⟨rfl, hsame⟩ := List.cons.inj (hbody.symm.trans hbody')
      obtain rfl := List.append_cancel_right hsame
      exact hquotes'.content_unique hquotes
    | _ =>
      -- Only strings stand for anything else than what is written.
      simp only [hk] at ht hu
      simp [ht, hu]
  simp only [unplaced, hkind, htext, hliteral]

namespace Lexed
variable {t t' : Text}

theorem forall_faults_eq_nil (h : (ofText t).faults = []) : ∀ i ∈ (ofText t).all, i.faults = [] :=
  List.flatMap_eq_nil_iff.mp h

theorem spelled_of_mem_visible (h : (ofText t).faults = []) :
    ∀ u ∈ (ofText t).visible, u.Spelled := by
  intro u hu
  obtain ⟨hmem, hv⟩ := List.mem_filter.mp hu
  exact ((written_of_faults (forall_faults_eq_nil h)).1 u hmem).spelled (by simpa using hv)

/-- Sources with the same words have the same tokens, up to their places. -/
theorem unplaced_visible (ht : (ofText t).faults = []) (ht' : (ofText t').faults = [])
    (h : (ofText t).visible.map Token.word = (ofText t').visible.map Token.word) :
    (ofText t).visible.map Token.unplaced = (ofText t').visible.map Token.unplaced := by
  have hsp := spelled_of_mem_visible ht
  have hsp' := spelled_of_mem_visible ht'
  generalize (ofText t).visible = us at h hsp ⊢
  generalize (ofText t').visible = us' at h hsp' ⊢
  induction us generalizing us' with
  | nil =>
    obtain rfl : us' = [] := by simpa using h
    rfl
  | cons u us ih =>
    obtain ⟨u', us', rfl, hword, hwords⟩ := List.map_eq_cons_iff.mp h.symm
    rw [List.forall_mem_cons] at hsp hsp'
    rw [List.map_cons, List.map_cons, hsp.1.unplaced_eq hsp'.1 hword.symm,
      ih hsp.2 us' hwords.symm hsp'.2]

end Lexed

/-! ## Moving the words of one source into the layout of another -/

/-- The tokens of a source that are not hidden can be exchanged for others that differ in their
places only. -/
theorem Token.exists_filter_eq {ts vs : List Token}
    (h : (ts.filter (!·.hidden)).map Token.unplaced = vs.map Token.unplaced) :
    ∃ us : List Token,
      us.map Token.unplaced = ts.map Token.unplaced ∧ us.filter (!·.hidden) = vs := by
  induction ts generalizing vs with
  | nil =>
    obtain rfl : vs = [] := by simpa [eq_comm] using h
    exact ⟨[], rfl, rfl⟩
  | cons t ts ih =>
    by_cases hv : t.hidden = true
    · rw [List.filter_cons_of_neg (by simp [hv])] at h
      obtain ⟨us, hus, hfilter⟩ := ih h
      refine ⟨t :: us, by rw [List.map_cons, List.map_cons, hus], ?_⟩
      rw [List.filter_cons_of_neg (by simp [hv]), hfilter]
    · rw [List.filter_cons_of_pos (by simp [hv]), List.map_cons] at h
      obtain ⟨v, vs, rfl, hvt, hvs⟩ := List.map_eq_cons_iff.mp h.symm
      obtain ⟨us, hus, hfilter⟩ := ih hvs.symm
      have hvisible : v.hidden = false := by
        rw [hidden, kind_of_unplaced_eq hvt]
        exact Bool.eq_false_iff.mpr hv
      refine ⟨v :: us, by rw [List.map_cons, List.map_cons, hus, hvt], ?_⟩
      rw [List.filter_cons_of_pos (by simp [hvisible]), hfilter]

/-- What is read without a syntax error is read from every source with the same words. -/
theorem Parser.readSource_of_same_words (rule : Rule) {t t' : Text}
    (ht : (Lexed.ofText t).faults = []) (ht' : (Lexed.ofText t').faults = [])
    (h : (Lexed.ofText t).visible.map Token.word = (Lexed.ofText t').visible.map Token.word)
    (herrors : ((ofText t).readSource rule).1.errors = []) :
    ((ofText t').readSource rule).1.errors = [] ∧
      Stmt.unplacedAll ((ofText t').readSource rule).1.program.stmts =
        Stmt.unplacedAll ((ofText t).readSource rule).1.program.stmts := by
  have hsplits := Lexed.splits_of_faults (Lexed.forall_faults_eq_nil ht')
  obtain ⟨us, hus, hfilter⟩ := Token.exists_filter_eq (Lexed.unplaced_visible ht ht' h).symm
  refine readSource_of_same_tokens herrors ⟨hsplits.closed, ?_⟩ hfilter ?_
  · rw [hsplits.layout, hus]
  · rintro rfl
    exact stmts_ne_nil_of_entry herrors

/-! ## Trees -/

theorem Expr.tree_unplaced (e : Expr) : e.unplaced.tree = e.tree := by
  induction e with
  | unary op _ _ ih => cases op <;> rw [unplaced, tree, tree, ih]
  | _ => simp_all [unplaced, tree, Token.unplaced, Token.literalRule]

mutual

theorem Stmt.tree_unplaced (s : Stmt) : s.unplaced.tree = s.tree := by
  match s with
  | assign _ _ _ => simp [unplaced, tree, Token.unplaced, Expr.tree_unplaced]
  | print _ _ _ => simp [unplaced, tree, Token.unplaced, Expr.tree_unplaced, Function.comp_def]
  | expr _ => simp [unplaced, tree, Expr.tree_unplaced]
  | vars _ => simp [unplaced, tree, Token.unplaced]
  | block _ _ _ body _ => simp [unplaced, tree, Token.unplaced, Stmt.trees_unplacedAll body]
  | wrap _ _ inner => simp [unplaced, tree, Token.unplaced, Stmt.tree_unplaced inner]

theorem Stmt.trees_unplacedAll (ss : List Stmt) : trees (unplacedAll ss) = trees ss := by
  match ss with
  | [] => rfl
  | s :: ss => simp [unplacedAll, trees, Stmt.tree_unplaced s, Stmt.trees_unplacedAll ss]

end

/-- Places do not show in a tree. -/
theorem Stmt.treeOf_of_unplacedAll_eq {ss ss' : List Stmt}
    (h : unplacedAll ss' = unplacedAll ss) : treeOf ss' = treeOf ss := by
  rw [treeOf, treeOf, ← trees_unplacedAll ss', h, trees_unplacedAll]

/-- The verdict on a source and its tree depend on its words only. -/
theorem Parser.errors_iff_and_treeOf_of_same_words (rule : Rule) {t t' : Text}
    (ht : (Lexed.ofText t).faults = []) (ht' : (Lexed.ofText t').faults = [])
    (h : (Lexed.ofText t).visible.map Token.word = (Lexed.ofText t').visible.map Token.word) :
    (((ofText t).readSource rule).1.errors = [] ↔ ((ofText t').readSource rule).1.errors = []) ∧
      (((ofText t).readSource rule).1.errors = [] →
        Stmt.treeOf ((ofText t').readSource rule).1.program.stmts =
          Stmt.treeOf ((ofText t).readSource rule).1.program.stmts) :=
  ⟨⟨fun herrors => (readSource_of_same_words rule ht ht' h herrors).1,
    fun herrors => (readSource_of_same_words rule ht' ht h.symm herrors).1⟩,
    fun herrors =>
      Stmt.treeOf_of_unplacedAll_eq (readSource_of_same_words rule ht ht' h herrors).2⟩

/-- Two sources without a faulty token whose visible tokens have the same kinds and texts, one after
the other, are both without a syntax error or both with one, whatever blanks, line ends and comments
stand between these tokens. If there is none, they have the same tree. This holds of programs and of
interactive entries. -/
theorem parse_of_same_words {t t' : Text}
    (ht : (Lexed.ofText t).faults = []) (ht' : (Lexed.ofText t').faults = [])
    (h : (Lexed.ofText t).visible.map Token.word =
      (Lexed.ofText t').visible.map Token.word) :
    (((parseProgram t).errors = [] ↔ (parseProgram t').errors = []) ∧
      ((parseProgram t).errors = [] →
        Stmt.treeOf (parseProgram t').program.stmts =
          Stmt.treeOf (parseProgram t).program.stmts)) ∧
    ((parseEntry t).errors = [] ↔ (parseEntry t').errors = []) ∧
      ((parseEntry t).errors = [] →
        Stmt.treeOf (parseEntry t').program.stmts =
          Stmt.treeOf (parseEntry t).program.stmts) :=
  ⟨Parser.errors_iff_and_treeOf_of_same_words .program ht ht' h,
    Parser.errors_iff_and_treeOf_of_same_words .entry ht ht' h⟩

theorem parse_of_same_words_spread :
    let t : Text := "x=-(1)print x 'it\\'s'tree\x7by\x7d"
    let t' : Text := "\n x // a sign\n = - ( 1 )\r\n\tprint\n\nx 'it\\'s' tree // y\n\x7b y \x7d //"
    (Lexed.ofText t).faults = [] ∧ (Lexed.ofText t').faults = [] ∧
      (parseProgram t').errors = [] ∧ (parseEntry t').errors = [] ∧
      Stmt.treeOf (parseProgram t').program.stmts = Stmt.treeOf (parseProgram t).program.stmts := by
  intro t t'
  have ht : (Lexed.ofText t).faults = [] := by decide +kernel
  have ht' : (Lexed.ofText t').faults = [] := by decide +kernel
  have herrors : (parseProgram t).errors = [] := by decide +kernel
  have hentry : (parseEntry t).errors = [] := by decide +kernel
  obtain ⟨⟨hiff, htree⟩, hiff', -⟩ := parse_of_same_words ht ht' (by decide +kernel)
  exact ⟨ht, ht', hiff.mp herrors, hiff'.mp hentry, htree herrors⟩

end Reckoner
