import Reckoner.Proofs.Entries
import Reckoner.Proofs.Extending

/-!
# Entries that go on

An interactive session reports an entry with syntax errors only if they are not the fault of its
end; otherwise it asks for another line. Both are right, with one exception. What is reported could
not have been completed: `parseEntry_append_of_rejected`. What is kept can be completed if no string
is open at its end: `exists_completion_of_incomplete`.

The exception is an open string. The lexer reports it as soon as the parser looks at it, which can
be before the parser objects to a token that no continuation takes back, and so the session goes on
asking: `exists_completion_iff_of_open` says when that happens.
-/
namespace Reckoner

open Lexeme

/-! ## Writing what is missing -/

/-- A token of a kind that occurs in fillings. -/
def TokenKind.filler (k : TokenKind) : Token :=
  match k.spelling? with
  | some s => .made k (Text.ofString s)
  | none => .made k "0"

theorem TokenKind.kind_filler (k : TokenKind) : k.filler.kind = k := by
  unfold filler
  split <;> rfl

theorem TokenKind.spelled_filler {k : TokenKind} (h : k.fills = true) : k.filler.Spelled := by
  cases k with
  | number => exact ⟨.inl ⟨rfl, by decide +kernel⟩, rfl⟩
  | openBrace | colon | closeParen | closeBrace => exact ⟨rfl, rfl⟩
  | _ => simp [fills] at h

theorem Lexed.kinds_eq_of_splits {t : Text} {us : List Token} (h : t.Splits us) :
    (ofText t).kinds = (us.filter (!·.hidden)).map Token.kind := by
  have hkind (ts : List Token) : (ts.map Token.unplaced).map Token.kind = ts.map Token.kind := by
    rw [List.map_map]
    rfl
  rw [kinds, ← hkind, h.lexed.2, hkind]

/-- Tokens that are missing at the end can be written on a new line. -/
theorem exists_errors_eq_nil {t : Text} {ks : List TokenKind}
    (hfaults : (Lexed.ofText t).faults = []) (hfills : ∀ k ∈ ks, k.fills = true)
    (hne : (Lexed.ofText t).kinds ++ ks ≠ [])
    (hp : Predicts [.stmts .eof] ((Lexed.ofText t).kinds ++ ks) [] []) :
    ∃ more, (parseEntry (t ++ more)).errors = [] := by
  have hspelled : ∀ u ∈ ks.map TokenKind.filler, u.Spelled := by
    intro u hu
    obtain ⟨k, hk, rfl⟩ := List.mem_map.mp hu
    exact TokenKind.spelled_filler (hfills k hk)
  obtain ⟨us, hsplits, hus⟩ := Token.splits_render hspelled
  rw [Lexed.faults, List.flatMap_eq_nil_iff] at hfaults
  have hline := hsplits.line hfaults
  have hkinds : (Lexed.ofText (t.line ++ Token.render (ks.map TokenKind.filler))).kinds =
      (Lexed.ofText t).kinds ++ ks := by
    rw [Lexed.kinds_eq_of_splits hline, List.filter_append, List.map_append,
      List.filter_cons_of_neg (by decide), hus, List.map_map]
    congr 1
    exact (List.map_congr_left fun k _ => k.kind_filler).trans (List.map_id ks)
  refine ⟨Text.newline :: Token.render (ks.map TokenKind.filler), ?_⟩
  have htext : t ++ Text.newline :: Token.render (ks.map TokenKind.filler) =
      t.line ++ Token.render (ks.map TokenKind.filler) := by simp [Text.line]
  rw [htext]
  refine (Parser.errors_eq_nil_iff .entry _).mpr ⟨?_, fun _ => hkinds ▸ hne, hkinds ▸ hp⟩
  rw [Lexed.faults, List.flatMap_eq_nil_iff]
  exact hline.lexed.1

/-! ## The first error -/

theorem SyntaxError.exists_of_incomplete {es : List SyntaxError} (h : incomplete es = true) :
    ∃ e es', es = e :: es' ∧ e.atEnd = true := by
  cases es with
  | nil => simp [incomplete] at h
  | cons e es => exact ⟨e, es, rfl, h⟩

/-- The errors of the lexer are the faults of the lexemes. -/
theorem mem_faultsFrom_of_isLexical {t : Text} {e : SyntaxError} (he : e ∈ (parseEntry t).errors)
    (hlex : e.isLexical = true) : e ∈ faultsFrom {} (lexemes t) := by
  rw [← Lexed.faults_ofText, ← Parser.filter_isLexical_errors .entry]
  exact List.mem_filter.mpr ⟨he, hlex⟩

theorem head?_filter_of_isLexical_eq_false {e : SyntaxError} {es : List SyntaxError}
    (h : e.isLexical = false) : ((e :: es).filter (!·.isLexical)).head? = some e := by
  rw [List.filter_cons_of_pos (by simp [h])]
  rfl

/-- A text that ends in a blank or within a string, and that a longer entry begins with, has only
tokens in it, and is objected to at its end only. -/
theorem viable_of_append {t more : Text} {ls : List Lexeme} {b : UInt8} {bs : Text}
    (hlast : lexemes t = ls ++ [(scan b bs).1]) (hrest : (scan b bs).2 = [])
    (hopen : StaysOpen b bs) (h : (parseEntry (t ++ more)).errors = []) :
    (∀ l ∈ lexemes t, l.kind.isSome = true) ∧
      ∀ e ∈ ((parseEntry t).errors.filter (!·.isLexical)).head?, e.atEnd = true := by
  obtain ⟨hfaults, -, hp⟩ := (Parser.errors_eq_nil_iff .entry (t ++ more)).mp h
  obtain ⟨hkinds, ks, hks⟩ := Lexed.kinds_append hlast hrest hopen hfaults
  rw [hks] at hp
  exact ⟨hkinds, fun e he => Parser.atEnd_of_predicts_append hp he⟩

/-- What is rejected at the end of a line could not have been completed: no continuation of it is
without syntax errors. -/
theorem parseEntry_append_of_rejected {t : Text} (hline : t.getLast? = some Text.newline)
    (herrors : (parseEntry t).errors ≠ [])
    (hfinal : SyntaxError.incomplete (parseEntry t).errors = false) (more : Text) :
    (parseEntry (t ++ more)).errors ≠ [] := by
  intro hmore
  have hne : t ≠ [] := by
    rintro rfl
    simp at hline
  obtain ⟨ls, b, bs, hlast, hrest, htext, -⟩ := exists_last_lexeme hne
  rw [htext, List.getLast?_append_of_ne_nil _ (List.cons_ne_nil b bs)] at hline
  obtain ⟨hkinds, hviable⟩ :=
    viable_of_append hlast hrest (staysOpen_of_newline hrest hline) hmore
  obtain ⟨e, es, hes⟩ := List.exists_cons_of_ne_nil herrors
  rw [hes] at hfinal hviable
  have hatEnd : e.atEnd = false := hfinal
  -- The first error is neither one of the lexer, since all is tokens, nor an objection.
  cases hlex : e.isLexical with
  | true =>
    have hmem := mem_faultsFrom_of_isLexical (hes ▸ List.mem_cons_self) hlex
    simp [atEnd_of_mem_faultsFrom hkinds hmem] at hatEnd
  | false =>
    simp [hviable e (head?_filter_of_isLexical_eq_false hlex)] at hatEnd

theorem parseEntry_append_of_rejected_spread :
    let t : Text := "tree \x7b a = (1 +\n2 * ) 3\n"
    t.getLast? = some Text.newline ∧ (parseEntry t).errors ≠ [] ∧
      SyntaxError.incomplete (parseEntry t).errors = false ∧
      ∀ more, (parseEntry (t ++ more)).errors ≠ [] := by
  intro t
  have hline : t.getLast? = some Text.newline := by decide +kernel
  have herrors : (parseEntry t).errors ≠ [] := by decide +kernel
  have hfinal : SyntaxError.incomplete (parseEntry t).errors = false := by decide +kernel
  exact ⟨hline, herrors, hfinal, parseEntry_append_of_rejected hline herrors hfinal⟩

/-- What is incomplete and not within a string can be completed. -/
theorem exists_completion_of_incomplete {t : Text} (hclosed : ∀ l ∈ lexemes t, l.closed = true)
    (h : SyntaxError.incomplete (parseEntry t).errors = true) :
    ∃ more, (parseEntry (t ++ more)).errors = [] := by
  obtain ⟨e, es, hes, hatEnd⟩ := SyntaxError.exists_of_incomplete h
  have hlex : e.isLexical = false := by
    rw [← Bool.not_eq_true]
    intro hlex
    have hmem := mem_faultsFrom_of_isLexical (hes ▸ List.mem_cons_self) hlex
    simp [atEnd_eq_false_of_mem_faultsFrom hclosed hmem] at hatEnd
  have hfaults := Parser.faults_eq_nil_of_atEnd .entry t hes hlex hatEnd
  have hviable : ∀ f ∈ ((parseEntry t).errors.filter (!·.isLexical)).head?, f.atEnd = true := by
    rw [hes, head?_filter_of_isLexical_eq_false hlex]
    rintro f ⟨rfl⟩
    exact hatEnd
  obtain ⟨ks, hfills, hne, hp⟩ := Parser.exists_predicts_append hviable
  exact exists_errors_eq_nil hfaults hfills hne hp

theorem exists_completion_of_incomplete_nested :
    let t : Text := "tree gui \x7b a = 1 < (2 ? 'x' : // so far"
    (∀ l ∈ lexemes t, l.closed = true) ∧
      SyntaxError.incomplete (parseEntry t).errors = true ∧
      ∃ more, (parseEntry (t ++ more)).errors = [] := by
  intro t
  have hclosed : ∀ l ∈ lexemes t, l.closed = true := by decide +kernel
  have h : SyntaxError.incomplete (parseEntry t).errors = true := by decide +kernel
  exact ⟨hclosed, h, exists_completion_of_incomplete hclosed h⟩

/-! ## Entries that end within a string -/

/-- Only the last lexeme of a text can be cut off, and it is a string. -/
theorem exists_open_string {t : Text} (h : ∃ l ∈ lexemes t, l.closed = false) :
    ∃ ls b bs, lexemes t = ls ++ [(scan b bs).1] ∧ (scan b bs).2 = [] ∧
      (∀ l ∈ ls, l.closed = true) ∧ isQuote b = true ∧ (scanString b bs).closed = false := by
  obtain ⟨l, hl, hunclosed⟩ := h
  have hne : t ≠ [] := by
    rintro rfl
    simp [lexemes_eq_nil_iff.mpr rfl] at hl
  obtain ⟨ls, b, bs, hlast, hrest, -, hclosed⟩ := exists_last_lexeme hne
  refine ⟨ls, b, bs, hlast, hrest, hclosed, ?_⟩
  rw [hlast, List.mem_append, List.mem_singleton] at hl
  rcases hl with hl | rfl
  · simp [hclosed l hl] at hunclosed
  · exact unclosed_scan hunclosed

/-- A text that ends within a string is objected to at its end only if it has a continuation without
syntax errors. -/
theorem atEnd_of_open {t more : Text} (hopen : ∃ l ∈ lexemes t, l.closed = false)
    (h : (parseEntry (t ++ more)).errors = []) :
    ∀ e ∈ ((parseEntry t).errors.filter (!·.isLexical)).head?, e.atEnd = true := by
  obtain ⟨ls, b, bs, hlast, hrest, -, hstring⟩ := exists_open_string hopen
  exact (viable_of_append hlast hrest (.inr hstring) h).2

/-- If a text that ends within a string is incomplete, then the lexer found nothing before its
end. -/
theorem atEnd_faultsFrom_of_incomplete {t : Text} (hopen : ∃ l ∈ lexemes t, l.closed = false)
    (h : SyntaxError.incomplete (parseEntry t).errors = true) :
    ∀ f ∈ (faultsFrom {} (lexemes t)).head?, f.atEnd = true := by
  obtain ⟨e, es, hes, hatEnd⟩ := SyntaxError.exists_of_incomplete h
  have hlex : e.isLexical = true := by
    rw [← Bool.not_eq_false]
    intro hlex
    obtain ⟨l, hl, hunclosed⟩ := hopen
    have hfaults := Parser.faults_eq_nil_of_atEnd .entry t hes hlex hatEnd
    simp [(Lexed.faults_eq_nil_iff.mp hfaults l hl).2] at hunclosed
  have hfilter := Parser.filter_isLexical_errors .entry t
  rw [show ((Parser.ofText t).readSource .entry).1.errors = e :: es from hes,
    List.filter_cons_of_pos hlex, Lexed.faults_ofText] at hfilter
  rw [← hfilter]
  rintro f ⟨rfl⟩
  exact hatEnd

/-- If a text that ends within a string is incomplete, then that string is all that is wrong with
its tokens. -/
theorem exists_closing_of_incomplete {t : Text} (hopen : ∃ l ∈ lexemes t, l.closed = false)
    (h : SyntaxError.incomplete (parseEntry t).errors = true) :
    ∃ closing, (Lexed.ofText (t ++ closing)).faults = [] ∧
      (Lexed.ofText (t ++ closing)).kinds = (Lexed.ofText t).kinds := by
  obtain ⟨ls, b, bs, hlast, hrest, hclosed, hquote, hunclosed⟩ := exists_open_string hopen
  have hkinds : ∀ l ∈ ls, l.kind.isSome = true := by
    have htext : ∀ l ∈ ls, l.text ≠ [] := by
      intro l hl
      exact text_ne_nil_of_mem_lexemesWithin (hlast ▸ List.mem_append_left _ hl)
    exact isSome_kind_of_atEnd htext hclosed (hlast ▸ atEnd_faultsFrom_of_incomplete hopen h)
  obtain ⟨closing, hclosing, hend⟩ := exists_closing hunclosed
  have hscan := scan_quote hquote (bs ++ closing)
  have hlonger : lexemes (t ++ closing) = ls ++ [(scan b (bs ++ closing)).1] := by
    rw [lexemes_append hlast hrest (StaysOpen.ne_point (.inr ⟨hquote, hunclosed⟩)),
      List.cons_append, lexemes_scan, lexemes_eq_nil_iff.mpr (by rw [hscan]; exact hend)]
  refine ⟨closing, ?_, ?_⟩
  · rw [Lexed.faults_eq_nil_iff, hlonger, hscan]
    intro l hl
    rcases List.mem_append.mp hl with hl | hl
    · exact ⟨hkinds l hl, hclosed l hl⟩
    · rw [List.mem_singleton.mp hl]
      exact ⟨rfl, hclosing⟩
  · rw [Lexed.kinds_ofText, Lexed.kinds_ofText, hlonger, hlast, kindsOf_append, kindsOf_append,
      hscan, scan_quote hquote bs]
    rfl

/-- What is incomplete and within a string can be completed if and only if the parser does not
object to a token before its end. -/
theorem exists_completion_iff_of_open {t : Text} (hopen : ∃ l ∈ lexemes t, l.closed = false)
    (h : SyntaxError.incomplete (parseEntry t).errors = true) :
    (∃ more, (parseEntry (t ++ more)).errors = []) ↔
      ∀ e ∈ ((parseEntry t).errors.filter (!·.isLexical)).head?, e.atEnd = true := by
  constructor
  · rintro ⟨more, hmore⟩
    exact atEnd_of_open hopen hmore
  · intro hviable
    obtain ⟨closing, hfaults, hkinds⟩ := exists_closing_of_incomplete hopen h
    obtain ⟨ks, hfills, hne, hp⟩ := Parser.exists_predicts_append hviable
    rw [← hkinds] at hne hp
    obtain ⟨more, hmore⟩ := exists_errors_eq_nil hfaults hfills hne hp
    exact ⟨closing ++ more, by rwa [← List.append_assoc]⟩

theorem exists_completion_iff_of_open_argument :
    let t : Text := "tree gui \x7b print(1 ? 'it\\'s"
    (∃ l ∈ lexemes t, l.closed = false) ∧
      SyntaxError.incomplete (parseEntry t).errors = true ∧
      ∃ more, (parseEntry (t ++ more)).errors = [] := by
  intro t
  have hopen : ∃ l ∈ lexemes t, l.closed = false := by decide +kernel
  have h : SyntaxError.incomplete (parseEntry t).errors = true := by decide +kernel
  exact ⟨hopen, h, (exists_completion_iff_of_open hopen h).mpr (by decide +kernel)⟩

/-- A keyword needs a block, so that a string after it is hopeless; it is kept all the same. -/
theorem incomplete_hopeless :
    let t : Text := "tree 'a"
    (∃ l ∈ lexemes t, l.closed = false) ∧
      SyntaxError.incomplete (parseEntry t).errors = true ∧
      ∀ more, (parseEntry (t ++ more)).errors ≠ [] := by
  intro t
  have hopen : ∃ l ∈ lexemes t, l.closed = false := by decide +kernel
  refine ⟨hopen, by decide +kernel, fun more hmore => ?_⟩
  have hfinal : ¬∀ e ∈ ((parseEntry t).errors.filter (!·.isLexical)).head?, e.atEnd = true := by
    decide +kernel
  exact hfinal (atEnd_of_open hopen hmore)

end Reckoner
