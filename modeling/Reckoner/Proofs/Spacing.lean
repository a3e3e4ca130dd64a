import Reckoner.Proofs.Layouts

/-!
# Single spaces

A single space between two words keeps them apart, whatever they are. So the words of a source without
a fault can always be laid out in this way: the lexer finds them again, each of the same kind, with
the same text and the same content, and no fault (`tokens_respaced`).

That a space ends every word takes care of what is on its right; on its left all depends on the word
alone. A list of tokens is found again if and only if each of them is spelled as its kind asks for:
`Token.spelled_iff_found`. This makes single spaces a normal form of sources. Writing it once more
changes nothing, two sources share it if and only if they have the same words, and it is read as the
same tree.
-/
namespace Reckoner

/-- The words of a source, with a single space between any two. -/
def Text.spaced (t : Text) : Text := Token.render (Lexed.ofText t).visible

/-! ## Words that are found again -/

namespace Token

@[simp] theorem spelled_unplaced (t : Token) : t.unplaced.Spelled ↔ t.Spelled := Iff.rfl

/-- Places are not written. -/
@[simp] theorem render_map_unplaced (ts : List Token) : render (ts.map unplaced) = render ts := by
  rw [render, render, List.map_map]
  rfl

theorem render_eq_of_unplaced {ts us : List Token} (h : ts.map unplaced = us.map unplaced) :
    render ts = render us := by
  rw [← render_map_unplaced ts, h, render_map_unplaced]

theorem map_word_of_unplaced {ts us : List Token} (h : ts.map unplaced = us.map unplaced) :
    ts.map word = us.map word := by
  have hwords := congrArg (List.map word) h
  rwa [List.map_map, List.map_map] at hwords

/-- The lexer finds tokens again that are written with single spaces between them, if each is
spelled as its kind asks for, and only then. -/
theorem spelled_iff_found {ts : List Token} :
    (∀ t ∈ ts, t.Spelled) ↔
      (Lexed.ofText (render ts)).faults = [] ∧
        (Lexed.ofText (render ts)).visible.map unplaced = ts.map unplaced := by
  constructor
  · intro hspelled
    obtain ⟨us, hsplits, hus⟩ := splits_render hspelled
    obtain ⟨hfaults, hfound⟩ := hsplits.lexed
    exact ⟨List.flatMap_eq_nil_iff.mpr hfaults, by rw [hfound, hus]⟩
  · rintro ⟨hfaults, hfound⟩ t ht
    have hmem : t.unplaced ∈ (Lexed.ofText (render ts)).visible.map unplaced :=
      hfound ▸ List.mem_map_of_mem ht
    obtain ⟨u, hu, hut⟩ := List.mem_map.mp hmem
    have hspelled : u.Spelled := Lexed.spelled_of_mem_visible hfaults u hu
    rwa [← spelled_unplaced, hut, spelled_unplaced] at hspelled

end Token

/-- Blanks and comments can be given up for single spaces. If a source has no recognition error, then
its words with a single space between any two make up a source that has none either, and the words
of that source are of the same kinds, with the same texts and contents, one after the other. -/
theorem tokens_respaced {t : Text} (h : (Lexed.ofText t).faults = []) :
    (Lexed.ofText t.spaced).faults = [] ∧
      (Lexed.ofText t.spaced).visible.map Token.unplaced =
        (Lexed.ofText t).visible.map Token.unplaced :=
  Token.spelled_iff_found.mp (Lexed.spelled_of_mem_visible h)

theorem tokens_respaced_crowded :
    let t : Text := "x=.5_.25//'\n/1_a!==PrInT'it\\'s//\"\\n'&&\"\""
    let words : Text := "x = .5_ .25 / 1_ a != = PrInT 'it\\'s//\"\\n' && \"\""
    (Lexed.ofText t).faults = [] ∧ t.spaced = words ∧ (Lexed.ofText words).faults = [] ∧
      (Lexed.ofText words).visible.map Token.unplaced =
        (Lexed.ofText t).visible.map Token.unplaced := by
  intro t words
  have h : (Lexed.ofText t).faults = [] := by decide +kernel
  have hwords : t.spaced = words := by decide +kernel
  exact ⟨h, hwords, hwords ▸ tokens_respaced h⟩

/-! ## A normal form -/

namespace Text
variable {t t' : Text}

theorem spaced_spaced (h : (Lexed.ofText t).faults = []) : t.spaced.spaced = t.spaced := by
  obtain ⟨-, hfound⟩ := Token.spelled_iff_found.mp (Lexed.spelled_of_mem_visible h)
  exact Token.render_eq_of_unplaced hfound

/-- Two sources have the same normal form if and only if they have the same words. -/
theorem spaced_eq_iff (ht : (Lexed.ofText t).faults = []) (ht' : (Lexed.ofText t').faults = []) :
    t.spaced = t'.spaced ↔
      (Lexed.ofText t).visible.map Token.word = (Lexed.ofText t').visible.map Token.word := by
  constructor
  · intro heq
    obtain ⟨-, hfound⟩ := Token.spelled_iff_found.mp (Lexed.spelled_of_mem_visible ht)
    obtain ⟨-, hfound'⟩ := Token.spelled_iff_found.mp (Lexed.spelled_of_mem_visible ht')
    rw [spaced, spaced] at heq
    rw [← heq] at hfound'
    exact Token.map_word_of_unplaced (hfound.symm.trans hfound')
  · intro hwords
    exact Token.render_eq_of_unplaced (Lexed.unplaced_visible ht ht' hwords)

/-- A source and its normal form are both without a syntax error or both with one. If there is none,
they have the same tree. -/
theorem readSource_spaced (rule : Rule) (h : (Lexed.ofText t).faults = []) :
    (((Parser.ofText t).readSource rule).1.errors = [] ↔
        ((Parser.ofText t.spaced).readSource rule).1.errors = []) ∧
      (((Parser.ofText t).readSource rule).1.errors = [] →
        Stmt.treeOf ((Parser.ofText t.spaced).readSource rule).1.program.stmts =
          Stmt.treeOf ((Parser.ofText t).readSource rule).1.program.stmts) := by
  obtain ⟨hfaults, hfound⟩ := Token.spelled_iff_found.mp (Lexed.spelled_of_mem_visible h)
  exact Parser.errors_iff_and_treeOf_of_same_words rule h hfaults
    (Token.map_word_of_unplaced hfound).symm

end Text
end Reckoner
