import Mathlib.Algebra.Group.Nat.Even
import Reckoner.Proofs.Positions

/-!
# The contents of strings

A backslash in a string takes the byte behind it along, and sheds itself only in front of a quotation
mark. So the backslashes that are kept stand in pairs where they meet a quotation mark, or the end of
the string, and this is all that is special about a content: `string_contents` says that every text
with this property can be written as a string, by a backslash in front of each quotation mark, and
that every string that is closed has such a content.

The property speaks of runs of backslashes that are as long as can be. `Text.paired` reads a text
from left to right, as the lexer does, and decides it.
-/
namespace Reckoner

open Lexeme

namespace Text

/-- Every run of backslashes, as long as it can be, that is followed by a quotation mark or by the
end of the text is of even length. -/
def EvenRuns (s : Text) : Prop :=
  ∀ (before : Text) (n : Nat) (after : Text), s = before ++ List.replicate n (byte '\\') ++ after →
    before.getLast? ≠ some (byte '\\') → (∀ b ∈ after.head?, isQuote b = true) → Even n

/-- A backslash in front of every quotation mark. -/
def escapeQuotes (s : Text) : Text := s.flatMap fun b => if isQuote b then [byte '\\', b] else [b]

/-- A text between two quotation marks. -/
def quotedBy (quote : UInt8) (s : Text) : Text := quote :: (escapeQuotes s ++ [quote])

/-- Whether every backslash has a byte behind it that it belongs to and that is no quotation mark. -/
def paired : Text → Bool
  | [] => true
  | b :: bs =>
    if b = byte '\\' then
      match bs with
      | [] => false
      | c :: cs => !isQuote c && paired cs
    else paired bs

/-! ## Runs of backslashes -/

section
variable {b c : UInt8} {bs cs : Text}

theorem paired_cons (hb : b ≠ byte '\\') (bs : Text) : paired (b :: bs) = paired bs := by
  rw [paired.eq_def]
  exact if_neg hb

theorem paired_pair (c : UInt8) (cs : Text) :
    paired (byte '\\' :: c :: cs) = (!isQuote c && paired cs) := by
  rw [paired.eq_def]
  exact if_pos rfl

theorem getLast?_cons_ne {before : Text} (hb : b ≠ byte '\\')
    (h : before.getLast? ≠ some (byte '\\')) : (b :: before).getLast? ≠ some (byte '\\') := by
  cases before with
  | nil => simpa using hb
  | cons c cs => rwa [List.getLast?_cons_cons]

theorem getLast?_ne_of_cons {before : Text} (h : (b :: before).getLast? ≠ some (byte '\\')) :
    before.getLast? ≠ some (byte '\\') := by
  cases before with
  | nil => simp
  | cons c cs => rwa [List.getLast?_cons_cons] at h

theorem evenRuns_nil : EvenRuns [] := by
  intro before n after htext _ _
  have hlength := congrArg List.length htext
  simp only [List.length_nil, List.length_append, List.length_replicate] at hlength
  have hzero : n = 0 := by omega
  rw [hzero]
  exact Even.zero

/-- No run goes on over another byte. -/
theorem evenRuns_cons (hb : b ≠ byte '\\') : EvenRuns (b :: bs) ↔ EvenRuns bs := by
  constructor
  · intro h before n after htext hlast hafter
    exact h (b :: before) n after (by rw [htext]; rfl) (getLast?_cons_ne hb hlast) hafter
  · intro h before n after htext hlast hafter
    cases before with
    | nil =>
      cases n with
      | zero => exact Even.zero
      | succ n => exact absurd (List.cons.inj htext).1 hb
    | cons c before =>
      exact h before n after (List.cons.inj htext).2 (getLast?_ne_of_cons hlast) hafter

/-- A backslash and a byte behind it that is no quotation mark can be left out. -/
theorem evenRuns_pair (hc : isQuote c = false) :
    EvenRuns (byte '\\' :: c :: cs) ↔ EvenRuns cs := by
  constructor
  · intro h before n after htext hlast hafter
    cases before with
    | nil =>
      by_cases hslash : c = byte '\\'
      · -- Two more backslashes in front make the run longer by an even number.
        have heven := h [] (n + 2) after (by rw [htext, hslash]; rfl) (by simp) hafter
        exact (Nat.even_add.mp heven).mpr (by decide)
      · refine h [byte '\\', c] n after (by rw [htext]; rfl) ?_ hafter
        simpa using hslash
    | cons d before =>
      refine h (byte '\\' :: c :: d :: before) n after (by rw [htext]; rfl) ?_ hafter
      rwa [List.getLast?_cons_cons, List.getLast?_cons_cons]
  · intro h before n after htext hlast hafter
    match before, n with
    | [], 0 => exact Even.zero
    | [], 1 =>
      obtain rfl : after = c :: cs := (List.cons.inj htext).2.symm
      exact absurd (hafter c rfl) (by simp [hc])
    | [], n + 2 =>
      have hcs : cs = List.replicate n (byte '\\') ++ after :=
        (List.cons.inj (List.cons.inj htext).2).2
      exact Nat.even_add.mpr ⟨fun _ => by decide, fun _ => h [] n after hcs (by simp) hafter⟩
    | [d], n =>
      obtain rfl : d = byte '\\' := (List.cons.inj htext).1.symm
      exact absurd rfl hlast
    | d :: e :: before, n =>
      have hcs := (List.cons.inj (List.cons.inj htext).2).2
      exact h before n after hcs (getLast?_ne_of_cons (getLast?_ne_of_cons hlast)) hafter

/-- A single backslash is a run of odd length. -/
theorem not_evenRuns_lone (bs : Text) (h : ∀ c ∈ bs.head?, isQuote c = true) :
    ¬EvenRuns (byte '\\' :: bs) := fun heven =>
  absurd (heven [] 1 bs rfl (by simp) h) (by decide)

end

theorem evenRuns_iff_paired (s : Text) : EvenRuns s ↔ paired s = true := by
  fun_induction paired s with
  | case1 => simp [evenRuns_nil]
  | case2 => simpa using not_evenRuns_lone [] (by simp)
  | case3 c cs ih =>
    cases hc : isQuote c with
    | true => simpa using not_evenRuns_lone (c :: cs) (by simp [hc])
    | false => rw [evenRuns_pair hc, ih, Bool.not_false, Bool.true_and]
  | case4 b bs hb ih => rw [evenRuns_cons hb, ih]

instance : DecidablePred EvenRuns := fun s => decidable_of_iff _ (evenRuns_iff_paired s).symm

end Text

open Text

/-! ## Strings -/

/-- A text without a single backslash in front of a quotation mark or the end is what its quoted form
stands for. -/
theorem Lexeme.quotes_escapeQuotes {quote : UInt8} (hquote : isQuote quote = true) {s : Text}
    (h : paired s = true) : Quotes quote (escapeQuotes s) s := by
  fun_induction paired s with
  | case1 => exact .nil
  | case2 => cases h
  | case3 c cs ih =>
    rw [Bool.and_eq_true, Bool.not_eq_true'] at h
    have hpair := Quotes.escaped (c := c) (ih h.2)
    rw [if_neg (by simp [h.1])] at hpair
    have hescape : escapeQuotes (byte '\\' :: c :: cs) = byte '\\' :: c :: escapeQuotes cs := by
      rw [escapeQuotes, List.flatMap_cons, List.flatMap_cons, if_neg (by decide),
        if_neg (by simp [h.1])]
      rfl
    rw [hescape]
    exact hpair
  | case4 b bs hb ih =>
    cases hmark : isQuote b with
    | true =>
      have hpair := Quotes.escaped (c := b) (ih h)
      rw [if_pos hmark] at hpair
      simpa [escapeQuotes, hmark] using hpair
    | false =>
      have hne : b ≠ quote := by
        rintro rfl
        simp [hmark] at hquote
      simpa [escapeQuotes, hmark] using Quotes.plain hne hb (ih h)

/-- What stands between two quotation marks has a content of this kind. -/
theorem Lexeme.Quotes.paired {quote : UInt8} {body content : Text} (h : Quotes quote body content) :
    Text.paired content = true := by
  induction h with
  | nil => rfl
  | plain _ hs _ ih => rwa [Text.paired_cons hs]
  | @escaped c _ _ _ ih =>
    cases hc : isQuote c with
    | true =>
      have hne : c ≠ byte '\\' := by
        rintro rfl
        exact absurd hc (by decide)
      rwa [if_pos rfl, List.singleton_append, Text.paired_cons hne]
    | false =>
      rwa [if_neg (by simp), List.cons_append, List.singleton_append, Text.paired_pair, hc]

/-- A string that is closed has a content of this kind. -/
theorem Lexeme.evenRuns_literal_scan {b : UInt8} {bs : Text}
    (hkind : (scan b bs).1.kind = some .string) (hclosed : (scan b bs).1.closed = true) :
    EvenRuns (scan b bs).1.literal := by
  have hwritten := (found_scan (by simp [hkind]) hclosed).1
  rw [Token.Written, Token.Spelled, show (scan b bs).1.token.kind = .string by simp [token, hkind]]
    at hwritten
  obtain ⟨quote, body, -, -, hquotes⟩ := hwritten
  exact (evenRuns_iff_paired _).mpr hquotes.paired

/-- A text in quotes is a string and nothing else. -/
theorem lexemes_quotedBy {quote : UInt8} (hquote : isQuote quote = true) {s : Text}
    (h : paired s = true) :
    lexemes (quotedBy quote s) =
      [{ kind := some .string, text := quotedBy quote s, literal := s }] := by
  have hscan := scan_string hquote (quotes_escapeQuotes hquote h) []
  rw [List.append_nil] at hscan
  rw [quotedBy, lexemes_cons hscan]
  rfl

/-- A text is what a string stands for if and only if its backslashes in front of quotation marks
and at its end stand in pairs. With a backslash in front of every quotation mark it can then be
written between marks of either kind, and the lexer takes this for one string, up to the end of
input, and finds no fault with it. Every string in a source that is not reported as cut off has such
a content, whatever stands around it. -/
theorem string_contents :
    (∀ (s : Text) (quote : UInt8), isQuote quote = true → EvenRuns s →
      Lexed.ofText (quotedBy quote s) =
        ⟨[⟨[], { kind := .string, text := quotedBy quote s, literal := s, pos := {}, index := 0 }⟩],
          ⟨[], { kind := .eof, pos := Position.advance {} (quotedBy quote s), index := 1 }⟩⟩) ∧
    ∀ (t : Text), ∀ u ∈ (Lexed.ofText t).tokens, u.kind = .string →
      .unclosed u.pos u.text ∉ (Lexed.ofText t).faults → EvenRuns u.literal := by
  refine ⟨fun s quote hquote hs => ?_, fun t u hu hkind hclosed => ?_⟩
  · rw [Lexed.ofText, lexemes_quotedBy hquote ((evenRuns_iff_paired s).mp hs)]
    rfl
  · obtain ⟨i, hi, rfl⟩ := List.mem_map.mp hu
    rcases List.mem_append.mp hi with hmem | hmem
    · obtain ⟨before, b, bs, -, -, hscan, hliteral, hcut⟩ :=
        Lexed.exists_scan_of_mem_locate {} 0 [] t hmem
      have hc : (scan b bs).1.closed = true := by
        by_contra hc
        exact hclosed (List.mem_flatMap.mpr ⟨i, hi, hcut (by simpa using hc)⟩)
      rw [hliteral]
      exact evenRuns_literal_scan (hkind ▸ hscan) hc
    · rw [List.mem_singleton.mp hmem, Lexed.kind_last_ofText] at hkind
      cases hkind

theorem string_contents_mixed :
    let s : Text := "it's\x0a\\\\\"\\n\\\\"
    EvenRuns s ∧ (Lexed.ofText (quotedBy (byte '"') s)).items.map (·.token.literal) = [s] ∧
      ∃ u ∈ (Lexed.ofText ("x '" ++ s ++ "' y")).tokens, u.kind = .string ∧
        u.literal = "it" ∧ EvenRuns u.literal := by
  intro s
  have hs : EvenRuns s := by decide +kernel
  refine ⟨hs, ?_, ?_⟩
  · rw [string_contents.1 s (byte '"') (by decide) hs]
    rfl
  · have hu : ∃ u ∈ (Lexed.ofText ("x '" ++ s ++ "' y")).tokens, u.kind = .string ∧
        u.literal = "it" ∧
        .unclosed u.pos u.text ∉ (Lexed.ofText ("x '" ++ s ++ "' y")).faults := by decide +kernel
    obtain ⟨u, hmem, hkind, hliteral, hclosed⟩ := hu
    exact ⟨u, hmem, hkind, hliteral, string_contents.2 _ u hmem hkind hclosed⟩

end Reckoner
