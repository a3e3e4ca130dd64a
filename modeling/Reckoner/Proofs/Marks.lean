import Reckoner.Proofs.Chunks
import Reckoner.Settings
import Mathlib.Data.List.DropRight

/-!
# Lines that ask for another one

A line that ends with the continuation mark is kept, without the mark, and nothing else happens. Which
mark that is can be set. The settings refuse a mark that is nothing but white space; a session trims
the blanks from the end of a line before it looks for the mark. So a mark that ends in a blank is
accepted and never found: `Session.feed_marked` says that every other mark works, on every line, and
that a line with such a mark is read like any other line.
-/
namespace Reckoner

/-! ## The end of a line -/

namespace Text
variable {s t : Text}

/-- The last byte is a blank. -/
def EndsBlank (t : Text) : Prop := ∃ b ∈ t.getLast?, isBlank b = true

instance (t : Text) : Decidable t.EndsBlank :=
  decidable_of_iff (t.getLast?.any isBlank = true) (by simp [EndsBlank, Option.any_eq_true])

theorem endsBlank_iff_getLast (h : t ≠ []) : t.EndsBlank ↔ isBlank (t.getLast h) = true := by
  simp [EndsBlank, List.getLast?_eq_some_getLast h]

theorem trimBlankEnd_eq_rdropWhile (t : Text) : t.trimBlankEnd = t.rdropWhile isBlank := rfl

theorem not_endsBlank_trimBlankEnd (t : Text) : ¬t.trimBlankEnd.EndsBlank := by
  by_cases hnil : t.trimBlankEnd = []
  · simp [hnil, EndsBlank]
  · rw [endsBlank_iff_getLast hnil]
    exact List.rdropWhile_last_not isBlank t hnil

theorem trimBlankEnd_eq_self (h : ¬t.EndsBlank) : t.trimBlankEnd = t := by
  rw [trimBlankEnd_eq_rdropWhile, List.rdropWhile_eq_self_iff]
  intro hne
  rwa [← endsBlank_iff_getLast hne]

/-- What comes last decides how a text ends. -/
theorem endsBlank_append_iff (ht : t ≠ []) : (s ++ t).EndsBlank ↔ t.EndsBlank := by
  rw [EndsBlank, List.getLast?_append_of_ne_nil _ ht, EndsBlank]

theorem dropSuffix?_append (start ending : Text) :
    dropSuffix? ending (start ++ ending) = some start := by
  simp [dropSuffix?]

theorem dropSuffix?_eq_none_iff {ending : Text} : dropSuffix? ending t = none ↔ ¬ending <:+ t := by
  simp [dropSuffix?]

/-- An ending in a blank is not found at the end of a trimmed text. -/
theorem dropSuffix?_trimBlankEnd_of_endsBlank {ending : Text} (h : ending.EndsBlank) (t : Text) :
    dropSuffix? ending t.trimBlankEnd = none := by
  rw [dropSuffix?_eq_none_iff]
  rintro ⟨start, hstart⟩
  have hne : ending ≠ [] := by
    rintro rfl
    simp [EndsBlank] at h
  apply not_endsBlank_trimBlankEnd t
  rwa [← hstart, endsBlank_append_iff hne]

end Text

/-! ## The marks that the settings accept -/

namespace Settings

/-- What the settings are checked for. -/
structure Accepted (c : Settings) : Prop where
  /-- The mark is not white space only. -/
  marked : Text.trimSpace c.continuation ≠ []
  /-- The prompts fit on one line. -/
  prompts : breaksLine (c.prompt ++ c.continuePrompt) = false

instance (c : Settings) : Decidable c.Accepted :=
  decidable_of_iff (Text.trimSpace c.continuation ≠ [] ∧
    breaksLine (c.prompt ++ c.continuePrompt) = false) ⟨fun h => ⟨h.1, h.2⟩, fun h => ⟨h.1, h.2⟩⟩

/-- The defaults are settings like any other. -/
theorem accepted_default : ({} : Settings).Accepted := by decide +kernel

theorem accepted_of_ofText {path t : Text} {c : Settings} (h : ofText path t = .ok c) :
    c.Accepted := by
  delta ofText at h
  split at h
  · exact absurd h (by simp)
  · split at h
    · exact absurd h (by simp)
    · split at h
      · exact absurd h (by simp)
      · next hmark hprompts =>
        obtain rfl := Except.ok.inj h
        exact ⟨hmark, by simpa using hprompts⟩

/-- Settings are checked before they are used. -/
theorem accepted_of_load {path : Text} {file : Except FileError Text} {c : Settings}
    (h : load path file = .ok c) : c.Accepted := by
  by_cases hpath : path = []
  · simp only [load, hpath, if_true] at h
    exact Except.ok.inj h ▸ accepted_default
  · simp only [load, hpath, if_false] at h
    cases file with
    | ok t => exact accepted_of_ofText h
    | error e =>
      cases e with
      | missing => exact Except.ok.inj h ▸ accepted_default
      | _ => exact absurd h (by simp)

variable {c : Settings}

theorem Accepted.continuation_ne_nil (h : c.Accepted) : c.continuation ≠ [] := by
  intro hnil
  apply h.marked
  rw [hnil]
  decide +kernel

/-- An accepted mark is the one that a session looks for. -/
theorem Accepted.continuation_sessionOptions (h : c.Accepted) :
    c.sessionOptions.continuation = c.continuation := by
  simp [sessionOptions, SessionOptions.orDefault, h.continuation_ne_nil]

end Settings

/-! ## What becomes of a marked line -/

namespace Session
variable {s : Session}

/-- What was offered is forgotten or kept as it is. -/
theorem buffer_offered (text : Text) (s : Session) :
    (s.offered text).buffer = [] ∨ (s.offered text).buffer = text := by
  rw [offered, enter_eq]
  dsimp only [log]
  split_ifs <;> simp [write]

/-- A session that has nothing pending keeps a line with its mark, if that mark does not end in a
blank. -/
theorem feed_append_mark (hempty : s.buffer = []) {line : Text}
    (hmark : ¬(line ++ s.options.continuation).EndsBlank)
    (hquit : Text.trimSpace (line ++ s.options.continuation) ≠ Text.ofString "quit") :
    s.feed (line ++ s.options.continuation) = (false, { s with buffer := line }) := by
  have hfound : Text.dropSuffix? s.options.continuation
      (s.buffer ++ (line ++ s.options.continuation).line).trimBlankEnd = some line := by
    rw [hempty, List.nil_append, Text.trimBlankEnd_line, Text.trimBlankEnd_eq_self hmark,
      Text.dropSuffix?_append]
  rw [feed, if_neg hquit]
  dsimp only
  rw [hfound]

theorem feed_fst {line : Text} (hquit : Text.trimSpace line ≠ Text.ofString "quit") :
    (s.feed line).1 = false := by
  rw [feed, if_neg hquit]
  dsimp only
  split
  · rfl
  · split <;> rfl

/-- A mark that ends in a blank is not found. -/
theorem feed_of_endsBlank (hmark : s.options.continuation.EndsBlank) {line : Text}
    (hquit : Text.trimSpace line ≠ Text.ofString "quit") :
    s.feed line = (false, s.offered (s.buffer ++ line.line)) :=
  Prod.ext (feed_fst hquit)
    (feed_eq_offered hquit (Text.dropSuffix?_trimBlankEnd_of_endsBlank hmark _))

/-- Whatever the settings, a line with an accepted mark that does not end in a blank is kept without
the mark, and nothing is read, run or reported. With a mark that ends in a blank, the line is read
together with the mark, and what is kept, if anything is, is not the line without it. -/
theorem feed_marked {c : Settings} (hc : c.Accepted)
    (hmark : s.options.continuation = c.sessionOptions.continuation) (hempty : s.buffer = [])
    (line : Text) (hquit : Text.trimSpace (line ++ c.continuation) ≠ Text.ofString "quit") :
    (¬c.continuation.EndsBlank →
      s.feed (line ++ c.continuation) = (false, { s with buffer := line })) ∧
    (c.continuation.EndsBlank →
      s.feed (line ++ c.continuation) = (false, s.offered (line ++ c.continuation).line) ∧
      (line ≠ [] → (s.feed (line ++ c.continuation)).2.buffer ≠ line)) := by
  rw [hc.continuation_sessionOptions] at hmark
  rw [← hmark] at hquit ⊢
  constructor
  · intro hends
    refine feed_append_mark hempty ?_ hquit
    rwa [Text.endsBlank_append_iff (hmark ▸ hc.continuation_ne_nil)]
  · intro hends
    have hfeed := feed_of_endsBlank (s := s) hends hquit
    rw [hempty, List.nil_append] at hfeed
    refine ⟨hfeed, fun hline hkept => ?_⟩
    rw [hfeed] at hkept
    rcases buffer_offered (line ++ s.options.continuation).line s with h | h
    · exact hline (hkept.symm.trans h)
    · have hlength := congrArg List.length (hkept.symm.trans h)
      simp [Text.line] at hlength

/-- A mark that ends in a no-break space, which the settings would trim, works; one that ends in a
space does not. -/
theorem feed_marked_spaces :
    (⟨{ continuation := [92, 194, 160] }, {}, [], false⟩ : Session).feed
        (Text.ofString "1 " ++ [92, 194, 160]) =
      (false, ⟨{ continuation := [92, 194, 160] }, {}, Text.ofString "1 ", false⟩) ∧
    (⟨{ continuation := "\\ " }, {}, [], false⟩ : Session).feed (Text.ofString "1 \\ ") =
      (false, (⟨{ continuation := "\\ " }, {}, [], false⟩ : Session).offered
        (Text.ofString "1 \\ ").line) :=
  ⟨(feed_marked (c := { continuation := [92, 194, 160] }) (by decide +kernel) (by decide +kernel) rfl
      "1 " (by decide +kernel)).1 (by decide +kernel),
    ((feed_marked (c := { continuation := "\\ " }) (by decide +kernel) (by decide +kernel) rfl
      "1 " (by decide +kernel)).2 (by decide +kernel)).1⟩

/-- A mark of a backslash and a space is accepted, and a line that ends with it is reported instead of
being kept. -/
theorem marked_line_reported :
    ∃ c : Settings, c.Accepted ∧
      Text.trimSpace (Text.ofString "1 " ++ c.continuation) ≠ Text.ofString "quit" ∧
      ∃ s : Session, s.options = c.sessionOptions ∧ s.buffer = [] ∧ s.transcript = [] ∧
        (s.feed (Text.ofString "1 " ++ c.continuation)).2.buffer = [] ∧
        (s.feed (Text.ofString "1 " ++ c.continuation)).2.transcript.diagnostics =
          Text.line "line 1:2 token recognition error at: '\\'" :=
  ⟨{ continuation := "\\ " }, by decide +kernel, by decide +kernel,
    ⟨Settings.sessionOptions { continuation := "\\ " }, { color := false }, [], false⟩, rfl, rfl, rfl,
    by decide +kernel, by decide +kernel⟩

end Session
end Reckoner
