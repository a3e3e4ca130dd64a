import Reckoner.Proofs.Agreement
import Reckoner.Proofs.Tracing

/-!
# Lines and chunks

A session reads what is pending again with every line that it takes. Input is neither lost,
repeated nor divided otherwise by this: `Session.fed_chunks` says that the lines fall into chunks,
each of which could have been fed at once, and lines that are still pending, of which every
beginning is incomplete.

The two sessions are carried side by side. They read the same texts, only that the one fed line by
line has read every beginning of a chunk as well, which has left nothing but an empty trace. A
chunk must not be taken for the command to quit because of the white space around it: if several
lines together are trimmed to a word, then one of them is.
-/
namespace Reckoner

/-! ## Trimming lines that are joined -/

namespace Text

/-- Where no part begins with another one, all parts in a row are dropped. -/
theorem dropWithin_flatten {parts : List Text}
    (hfree : ∀ p ∈ parts, ∀ q ∈ parts, p <+: q → p = q) {ps : List Text} (hps : ∀ p ∈ ps, p ∈ parts)
    {t : Text} (ht : ∀ p ∈ parts, ¬p <+: t) {fuel : Nat} (hfuel : ps.length ≤ fuel) :
    dropWithin parts fuel (ps.flatten ++ t) = t := by
  induction ps generalizing fuel with
  | nil =>
    cases fuel with
    | zero => rfl
    | succ fuel =>
      have hnone : parts.find? (·.isPrefixOf t) = none := by simpa using ht
      rw [List.flatten_nil, List.nil_append, dropWithin, hnone]
  | cons p ps ih =>
    obtain ⟨fuel, rfl⟩ : ∃ n, fuel = n + 1 := ⟨fuel - 1, by simp at hfuel; omega⟩
    rw [List.forall_mem_cons] at hps
    have hp : p <+: (p :: ps).flatten ++ t := by
      rw [List.flatten_cons, List.append_assoc]
      exact List.prefix_append _ _
    rw [dropWithin]
    split
    · next part hpart =>
      have hmem := List.mem_of_find?_eq_some hpart
      have hprefix : part <+: (p :: ps).flatten ++ t := by simpa using List.find?_some hpart
      obtain rfl : part = p := by
        rcases List.prefix_or_prefix_of_prefix hprefix hp with h | h
        · exact hfree _ hmem _ hps.1 h
        · exact (hfree _ hps.1 _ hmem h).symm
      rw [List.flatten_cons, List.append_assoc, List.drop_left]
      exact ih hps.2 (by simpa using hfuel)
    · next hnone =>
      exact absurd (by simp) (List.find?_eq_none.mp hnone p hps.1)

theorem length_le_length_flatten {ps : List Text} (h : ∀ p ∈ ps, p ≠ []) :
    ps.length ≤ ps.flatten.length := by
  induction ps with
  | nil => simp
  | cons p ps ih =>
    rw [List.forall_mem_cons] at h
    have := List.length_pos_iff.mpr h.1
    have := ih h.2
    simp only [List.flatten_cons, List.length_append, List.length_cons]
    omega

theorem exists_trimSpace (t : Text) :
    ∃ ps qs : List Text, (∀ p ∈ ps, p ∈ spaces) ∧ (∀ q ∈ qs, q ∈ spaces) ∧
      t = ps.flatten ++ (trimSpace t ++ qs.flatten) := by
  obtain ⟨ps, hps, hstart⟩ := exists_dropWithin spaces t.length t
  obtain ⟨qs, hqs, hend⟩ := exists_dropWithin (spaces.map List.reverse) (trimSpaceStart t).length
    (trimSpaceStart t).reverse
  refine ⟨ps, (qs.map List.reverse).reverse, hps, fun q hq => ?_, ?_⟩
  · obtain ⟨r, hr, rfl⟩ := List.mem_map.mp (List.mem_reverse.mp hq)
    obtain ⟨space, hspace, rfl⟩ := List.mem_map.mp (hqs r hr)
    rwa [List.reverse_reverse]
  · have hreverse := congrArg List.reverse hend
    rw [List.reverse_reverse, List.reverse_append, List.reverse_flatten] at hreverse
    exact hstart.trans (congrArg _ hreverse)

/-- A word that white space neither begins nor ends. -/
structure IsBare (word : Text) : Prop where
  start : ∀ space ∈ spaces, ∀ rest, ¬space <+: word ++ rest
  stop : ∀ space ∈ spaces, ¬space <:+ word
  newline : newline ∉ word

theorem trimSpace_eq_of_isBare {word : Text} (h : word.IsBare) {ps qs : List Text}
    (hps : ∀ p ∈ ps, p ∈ spaces) (hqs : ∀ q ∈ qs, q ∈ spaces) :
    trimSpace (ps.flatten ++ (word ++ qs.flatten)) = word := by
  have hne : ∀ space ∈ spaces, space ≠ [] := by decide +kernel
  have hfree : ∀ p ∈ spaces, ∀ q ∈ spaces, p <+: q → p = q := by decide +kernel
  have hfree' : ∀ p ∈ spaces.map List.reverse, ∀ q ∈ spaces.map List.reverse,
      p <+: q → p = q := by decide +kernel
  have hstart : trimSpaceStart (ps.flatten ++ (word ++ qs.flatten)) = word ++ qs.flatten := by
    refine dropWithin_flatten hfree hps (fun space hspace => h.start space hspace _) ?_
    have := length_le_length_flatten fun p hp => hne p (hps p hp)
    rw [List.length_append]
    omega
  rw [trimSpace, hstart, trimSpaceEnd, List.reverse_append, List.reverse_flatten,
    dropWithin_flatten hfree' ?_ ?_ ?_, List.reverse_reverse]
  · intro q hq
    obtain ⟨r, hr, rfl⟩ := List.mem_map.mp (List.mem_reverse.mp hq)
    exact List.mem_map_of_mem (hqs r hr)
  · intro p hp
    obtain ⟨space, hspace, rfl⟩ := List.mem_map.mp hp
    rw [List.reverse_prefix]
    exact h.stop space hspace
  · have := length_le_length_flatten fun q hq => hne q (hqs q hq)
    simp only [List.length_reverse, List.length_map, List.length_append]
    omega

/-- White space is cut at a line feed into white space. -/
theorem exists_of_flatten_eq {ps : List Text} (hps : ∀ p ∈ ps, p ∈ spaces) {a b : Text}
    (h : ps.flatten = a ++ newline :: b) :
    ∃ as bs : List Text, (∀ p ∈ as, p ∈ spaces) ∧ (∀ p ∈ bs, p ∈ spaces) ∧
      a = as.flatten ∧ b = bs.flatten := by
  have hnewline : ∀ space ∈ spaces, newline ∈ space → space = [newline] := by decide +kernel
  induction ps generalizing a with
  | nil => simp at h
  | cons p ps ih =>
    rw [List.forall_mem_cons] at hps
    rw [List.flatten_cons] at h
    rcases List.append_eq_append_iff.mp h with ⟨a', rfl, hrest⟩ | ⟨d, hp, hrest⟩
    · obtain ⟨as, bs, has, hbs, rfl, hb⟩ := ih hps.2 hrest
      exact ⟨p :: as, bs, List.forall_mem_cons.mpr ⟨hps.1, has⟩, hbs, rfl, hb⟩
    · cases d with
      | nil =>
        obtain ⟨as, bs, has, hbs, ha, hb⟩ := ih hps.2 (a := []) hrest.symm
        refine ⟨[p], bs, by simpa using hps.1, hbs, by simpa using hp.symm, hb⟩
      | cons c d =>
        obtain ⟨rfl, hb⟩ := List.cons.inj hrest
        have hone := hnewline p hps.1 (hp ▸ by simp)
        rw [hone] at hp
        obtain ⟨rfl, rfl⟩ : a = [] ∧ d = [] := by
          rcases List.singleton_eq_append_iff.mp hp with ⟨ha, hd⟩ | ⟨ha, hd⟩
          · simpa [ha] using hd
          · simp at hd
        exact ⟨[], ps, by simp, hps.2, rfl, hb⟩

/-- If lines together are trimmed to a word, then one of them is.
-/
theorem exists_trimSpace_eq {word : Text} (hword : word.IsBare) {lines : List Text}
    (hne : lines ≠ []) (h : trimSpace (join [newline] lines) = word) :
    ∃ line ∈ lines, trimSpace line = word := by
  induction lines with
  | nil => exact absurd rfl hne
  | cons line lines ih =>
    cases lines with
    | nil => exact ⟨line, List.mem_cons_self, h⟩
    | cons next lines =>
      have hjoin : join [newline] (line :: next :: lines) =
          line ++ newline :: join [newline] (next :: lines) := by simp [join]
      obtain ⟨ps, qs, hps, hqs, htext⟩ := exists_trimSpace (join [newline] (line :: next :: lines))
      rw [h, hjoin] at htext
      -- The first line feed between the lines is white space before the word or after it.
      rcases List.append_eq_append_iff.mp htext with ⟨d, hd, hrest⟩ | ⟨d, hline, hrest⟩
      · cases d with
        | nil =>
          have hspace : [newline] <+: word ++ qs.flatten := ⟨_, hrest⟩
          exact absurd hspace (hword.start _ (by decide +kernel) _)
        | cons b d =>
          obtain ⟨rfl, htail⟩ := List.cons.inj hrest
          obtain ⟨-, bs, -, hbs, -, rfl⟩ := exists_of_flatten_eq hps hd
          have htrim : trimSpace (join [newline] (next :: lines)) = word := by
            rw [htail]
            exact trimSpace_eq_of_isBare hword hbs hqs
          obtain ⟨line', hline', htrim⟩ := ih (List.cons_ne_nil _ _) htrim
          exact ⟨line', List.mem_cons_of_mem _ hline', htrim⟩
      · refine ⟨line, List.mem_cons_self, ?_⟩
        rcases List.append_eq_append_iff.mp hrest with ⟨e, rfl, hqs'⟩ | ⟨e, hword', hcut⟩
        · obtain ⟨as, -, has, -, rfl, -⟩ := exists_of_flatten_eq hqs hqs'
          exact hline ▸ trimSpace_eq_of_isBare hword hps has
        · cases e with
          | nil =>
            rw [List.append_nil] at hword'
            subst hword'
            have htrim := trimSpace_eq_of_isBare hword hps (List.forall_mem_nil (· ∈ spaces))
            rwa [List.flatten_nil, List.append_nil, ← hline] at htrim
          | cons b e =>
            obtain ⟨rfl, -⟩ := List.cons.inj hcut
            exact absurd (hword' ▸ by simp) hword.newline

/-- The command to quit has white space at neither end. -/
theorem isBare_quit : IsBare (ofString "quit") where
  start := by
    have hhead : ∀ space ∈ spaces, ∃ b ∈ space.head?, b ≠ 113 := by decide +kernel
    rintro space hspace rest ⟨t, ht⟩
    obtain ⟨b, hb, hne⟩ := hhead space hspace
    obtain ⟨bs, rfl⟩ := List.head?_eq_some_iff.mp hb
    exact hne (List.cons.inj ht).1
  stop := by decide +kernel
  newline := by decide +kernel

/-- Lines that are joined, with a line feed after the last one too. -/
theorem line_join {lines : List Text} (h : lines ≠ []) :
    (join [newline] lines).line = lines.flatMap line := by
  induction lines with
  | nil => exact absurd rfl h
  | cons t lines ih =>
    cases lines with
    | nil => simp [join]
    | cons next lines =>
      have hjoin : join [newline] (t :: next :: lines) =
          t ++ newline :: join [newline] (next :: lines) := by simp [join]
      rw [hjoin, List.flatMap_cons, ← ih (List.cons_ne_nil _ _)]
      simp [line]

end Text

/-! ## Sessions side by side, of which one has lines pending -/

/-- Nothing is traced, and what is empty does not count. -/
def Comparison.quiet : Comparison where
  keep e := !e.text.isEmpty
  here := {}
  there := {}
  debug := rfl
  unseen log := by rw [Step.traces_off]; rfl
  unseen' log := by rw [Step.traces_off]; rfl

namespace Session

/-- The session when a text was offered to it: blank text is forgotten, any other is entered. -/
def offered (text : Text) (s : Session) : Session :=
  if Text.trimSpace text = [] then { s with buffer := [] } else s.enter text

/-- A line is input: it neither ends the session nor asks for another line, and what is read with
it mentions no setting. -/
def TakesInput (line : Text) (s : Session) : Prop :=
  Text.trimSpace line ≠ Text.ofString "quit" ∧
    Text.dropSuffix? s.options.continuation (s.buffer ++ line.line).trimBlankEnd = none ∧
    s.ReadsUnreserved line

instance (line : Text) (s : Session) : Decidable (s.TakesInput line) :=
  inferInstanceAs (Decidable (_ ∧ _ ∧ _))

section
variable {s s' : Session}

theorem feed_eq_offered {line : Text} (hquit : Text.trimSpace line ≠ Text.ofString "quit")
    (hmark : Text.dropSuffix? s.options.continuation (s.buffer ++ line.line).trimBlankEnd = none) :
    (s.feed line).2 = s.offered (s.buffer ++ line.line) := by
  simp only [feed, if_neg hquit, hmark, offered]
  split <;> rfl

/-- An entry that stays pending is incomplete, and nothing has happened but that it was read. -/
theorem enter_of_pending {text : Text} (hlogging : s.logging = false)
    (h : (s.enter text).buffer ≠ []) :
    SyntaxError.incomplete (parseEntry text).errors = true ∧
      s.enter text =
        { s with interpreter := s.interpreter.trace (parseEntry text).log, buffer := text } := by
  rw [enter_eq] at h ⊢
  dsimp only at h ⊢
  cases hok : (parseEntry text).errors.isEmpty with
  | true => simp [hok] at h
  | false =>
    cases hincomplete : SyntaxError.incomplete (parseEntry text).errors with
    | false => simp [hok, hincomplete] at h
    | true =>
      cases hblank : isBlankProgram (parseEntry text).program with
      | true => simp [hok, hincomplete, hblank] at h
      | false => simp [log, hlogging]

theorem logging_offered (text : Text) : (s.offered text).logging = s.logging := by
  rw [offered, enter_eq]
  dsimp only [log]
  split_ifs <;> rfl

theorem offered_of_pending {text : Text} (hlogging : s.logging = false)
    (h : (s.offered text).buffer ≠ []) :
    SyntaxError.incomplete (parseEntry text).errors = true ∧
      s.offered text =
        { s with interpreter := s.interpreter.trace (parseEntry text).log, buffer := text } := by
  rw [offered] at h ⊢
  split at h
  · exact absurd rfl h
  · next hblank =>
    rw [if_neg hblank]
    exact enter_of_pending hlogging h

namespace Twins
variable {c : Comparison} (h : s.Twins c s')
include h

theorem offered {text : Text}
    (hfree : Text.trimSpace text ≠ [] → Unreserved (Lexed.ofText text).tokens) :
    (s.offered text).Twins c (s'.offered text) ∧
      (s'.offered text).buffer = (s.offered text).buffer := by
  rw [Session.offered, Session.offered]
  by_cases hblank : Text.trimSpace text = []
  · rw [if_pos hblank, if_pos hblank]
    exact ⟨⟨h.options, h.logging, h.interpreter⟩, rfl⟩
  · rw [if_neg hblank, if_neg hblank]
    exact h.enter (hfree hblank)

/-- A text that only one of the sessions reads leaves a trace that does not count. -/
theorem trace_left (log : List Step) (text : Text) :
    Twins c { s with interpreter := s.interpreter.trace log, buffer := text } s' where
  options := h.options
  logging := h.logging
  interpreter :=
    { h.interpreter with
      machine := h.interpreter.machine.wrote_left (by
        have hunseen := c.unseen log
        rw [← h.interpreter.machine.here] at hunseen
        simp [hunseen]) }

end Twins

/-- The first session has some lines pending, which the second one has not been fed. -/
structure Holding (rest : List Text) (s s' : Session) : Prop where
  twins : s.Twins .quiet s'
  logging : s.logging = false
  buffer : s.buffer = rest.flatMap Text.line
  idle : s'.buffer = []
  stays : ∀ line ∈ rest, Text.trimSpace line ≠ Text.ofString "quit"
  incomplete : ∀ first, first ≠ [] → first <+: rest →
    SyntaxError.incomplete (parseEntry (first.flatMap Text.line)).errors = true

namespace Holding
variable {rest : List Text}

theorem of_idle (h : s.Twins .quiet s') (hlogging : s.logging = false) (hbuffer : s.buffer = [])
    (hidle : s'.buffer = []) : Holding [] s s' where
  twins := h
  logging := hlogging
  buffer := hbuffer
  idle := hidle
  stays := List.forall_mem_nil _
  incomplete _ hne hprefix := absurd (List.prefix_nil.mp hprefix) hne

/-- A line that is taken either completes a chunk, which the second session is then fed, or stays
pending with the lines before it. -/
theorem feed {line : Text} (h : Holding rest s s') (hline : s.TakesInput line) :
    Holding [] (s.feed line).2 (s'.feed (Text.join [Text.newline] (rest ++ [line]))).2 ∨
      Holding (rest ++ [line]) (s.feed line).2 s' := by
  obtain ⟨hquit, hmark, hfree⟩ := hline
  have hne : rest ++ [line] ≠ [] := List.append_ne_nil_of_right_ne_nil _ (List.cons_ne_nil _ _)
  have htext : s.buffer ++ line.line = (rest ++ [line]).flatMap Text.line := by
    rw [h.buffer, List.flatMap_append, List.flatMap_singleton]
  have hstays : ∀ l ∈ rest ++ [line], Text.trimSpace l ≠ Text.ofString "quit" := by
    simpa [or_imp, forall_and] using ⟨h.stays, hquit⟩
  have hfree' : Text.trimSpace (s.buffer ++ line.line) ≠ [] →
      Unreserved (Lexed.ofText (s.buffer ++ line.line)).tokens :=
    fun hblank => hfree _ (by simp [reads?, hquit, hmark, hblank])
  rw [feed_eq_offered hquit hmark]
  by_cases hbuffer : (s.offered (s.buffer ++ line.line)).buffer = []
  · left
    have hchunk : s'.buffer ++ (Text.join [Text.newline] (rest ++ [line])).line =
        s.buffer ++ line.line := by
      rw [h.idle, Text.line_join hne, htext, List.nil_append]
    have hfeed : (s'.feed (Text.join [Text.newline] (rest ++ [line]))).2 =
        s'.offered (s.buffer ++ line.line) := by
      rw [feed_eq_offered, hchunk]
      · intro hjoined
        obtain ⟨l, hl, htrim⟩ := Text.exists_trimSpace_eq Text.isBare_quit hne hjoined
        exact hstays l hl htrim
      · rw [hchunk, h.twins.options, hmark]
    obtain ⟨htwins, hsame⟩ := h.twins.offered hfree'
    rw [hfeed]
    exact .of_idle htwins ((logging_offered _).trans h.logging) hbuffer (hsame.trans hbuffer)
  · right
    obtain ⟨hincomplete, heq⟩ := offered_of_pending h.logging hbuffer
    rw [heq]
    refine ⟨h.twins.trace_left _ _, h.logging, htext, h.idle, hstays, ?_⟩
    intro first hfirst hprefix
    rcases List.prefix_concat_iff.mp hprefix with rfl | hprefix
    · rwa [← htext]
    · exact h.incomplete first hfirst hprefix

/-- Lines that are taken fall into chunks, which the second session is fed, and lines that stay
pending. -/
theorem fed {lines : List Text} (h : Holding rest s s') (hlines : Along TakesInput lines s) :
    ∃ (chunks : List (List Text)) (rest' : List Text),
      rest ++ lines = chunks.flatten ++ rest' ∧ (∀ chunk ∈ chunks, chunk ≠ []) ∧
      Holding rest' (s.fed lines) (s'.fed (chunks.map (Text.join [Text.newline]))) := by
  induction lines generalizing rest s s' with
  | nil => exact ⟨[], rest, by simp, by simp, h⟩
  | cons line lines ih =>
    rcases h.feed hlines.1 with hnext | hnext
    · obtain ⟨chunks, rest', hsplit, hne, hfed⟩ := ih hnext hlines.2
      refine ⟨(rest ++ [line]) :: chunks, rest', ?_, ?_, hfed⟩
      · rw [List.flatten_cons, List.append_assoc, ← hsplit]
        simp
      · exact List.forall_mem_cons.mpr ⟨by simp, hne⟩
    · obtain ⟨chunks, rest', hsplit, hne, hfed⟩ := ih hnext hlines.2
      exact ⟨chunks, rest', by rw [← hsplit]; simp, hne, hfed⟩

end Holding
end

/-- Lines fed to a quiet session, none of which ends it or asks for another one or is read with the
name of a setting, fall into chunks and lines that are left. The session is as if each chunk had
been fed at once, as far as variables, declared types and what was written are concerned. The lines
that are left are pending, and every beginning of them is incomplete. -/
theorem fed_chunks (options : SessionOptions) (color : Bool) {lines : List Text}
    (hlines : Along TakesInput lines (fresh options {} color false)) :
    ∃ (chunks : List (List Text)) (rest : List Text),
      lines = chunks.flatten ++ rest ∧ (∀ chunk ∈ chunks, chunk ≠ []) ∧
      let ran := (fresh options {} color false).fed lines
      let ran' := (fresh options {} color false).fed (chunks.map (Text.join [Text.newline]))
      ran'.vars = ran.vars ∧ ran'.types = ran.types ∧
        ran'.transcript.output = ran.transcript.output ∧
        ran'.transcript.diagnostics = ran.transcript.diagnostics ∧
        ran'.buffer = [] ∧ ran.buffer = rest.flatMap Text.line ∧
        ∀ first, first ≠ [] → first <+: rest →
          SyntaxError.incomplete (parseEntry (first.flatMap Text.line)).errors = true := by
  have hstart : Holding [] (fresh options {} color false) (fresh options {} color false) :=
    .of_idle ⟨rfl, rfl, rfl, rfl, rfl, rfl, rfl, rfl, rfl⟩ rfl rfl rfl
  obtain ⟨chunks, rest, hsplit, hne, hfed⟩ := hstart.fed hlines
  have hempty (e : Entry) (h : Comparison.quiet.keep e = false) : e.text = [] := by
    simpa [Comparison.quiet] using h
  exact ⟨chunks, rest, hsplit, hne, hfed.twins.interpreter.machine.vars,
    congrArg Checker.types hfed.twins.interpreter.checker,
    hfed.twins.select_eq fun e h => .inr (hempty e h),
    hfed.twins.select_eq fun e h => .inr (hempty e h), hfed.idle, hfed.buffer, hfed.incomplete⟩

theorem fed_chunks_open :
    let lines : List Text :=
      ["x = 'a", "b' // c", "", "y = (1 +", "// d", " x)", "z = )", "tree \x7b", " quits", "("]
    let ran := (fresh {} {} false false).fed lines
    Along TakesInput lines (fresh {} {} false false) ∧
      ∃ (chunks : List (List Text)) (rest : List Text),
        lines = chunks.flatten ++ rest ∧ (∀ chunk ∈ chunks, chunk ≠ []) ∧
        let ran' := (fresh {} {} false false).fed (chunks.map (Text.join [Text.newline]))
        ran'.vars = ran.vars ∧ ran'.transcript.diagnostics = ran.transcript.diagnostics ∧
          ran.buffer = rest.flatMap Text.line := by
  intro lines ran
  have hlines : Along TakesInput lines (fresh {} {} false false) := by decide +kernel
  obtain ⟨chunks, rest, hsplit, hne, hvars, -, -, hdiagnostics, -, hbuffer, -⟩ :=
    fed_chunks {} false hlines
  exact ⟨hlines, chunks, rest, hsplit, hne, hvars, hdiagnostics, hbuffer⟩

end Session
end Reckoner
