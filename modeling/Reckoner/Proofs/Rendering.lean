import Reckoner.Proofs.Lossless
import Reckoner.Proofs.Refactoring

/-!
# Rendering comes to an end

Tokens are written from left to right, and a replacement goes on with the token behind its range.
`Edit.Writes` follows this loop until it ends, without a bound on its steps, and tells what is
written of the tokens from what edits add. Edits that are resolved never lead into the range of a
replacement or back, so that the loop ends, and it leaves out exactly the tokens that a replacement
covers: `Edit.exists_writes`.

In particular each block of a source can be simplified, also if the source has syntax errors:
`exists_simplified_of_mem_partsOf`.
-/
namespace Reckoner

/-! ## Ranges of tokens -/

section
variable (tokens : List Token) {i k last : Int}

theorem tokenRange_eq (hi : 0 ≤ i) :
    tokenRange tokens i last = (tokens.drop i.toNat).take (last + 1 - i).toNat := by
  have hcount : (last + 1).toNat - i.toNat = (last + 1 - i).toNat := by omega
  rw [tokenRange, List.drop_take, hcount]

theorem tokenRange_of_lt (hi : 0 ≤ i) (h : last < i) : tokenRange tokens i last = [] := by
  have hcount : (last + 1 - i).toNat = 0 := by omega
  rw [tokenRange_eq tokens hi, hcount, List.take_zero]

/-- A range can be cut in two. -/
theorem tokenRange_append (hi : 0 ≤ i) (hk : i ≤ k) (hlast : k ≤ last + 1) :
    tokenRange tokens i last = tokenRange tokens i (k - 1) ++ tokenRange tokens k last := by
  have hcount : (last + 1 - i).toNat = (k - 1 + 1 - i).toNat + (last + 1 - k).toNat := by omega
  have hskip : k.toNat = i.toNat + (k - 1 + 1 - i).toNat := by omega
  rw [tokenRange_eq tokens hi, tokenRange_eq tokens hi, tokenRange_eq tokens (by omega), hcount,
    List.take_add, List.drop_drop, hskip]

theorem tokenRange_all (h : (tokens.length : Int) ≤ last + 1) :
    tokenRange tokens 0 last = tokens := by
  rw [tokenRange_eq tokens (Int.le_refl 0), Int.toNat_zero, List.drop_zero,
    List.take_of_length_le (by omega)]

theorem tokenRange_self (n : Nat) : tokenRange tokens n n = tokens[n]?.toList := by
  have hcount : ((n : Int) + 1 - n).toNat = 1 := by omega
  rw [tokenRange_eq tokens (Int.natCast_nonneg n), hcount, List.take_one, Int.toNat_natCast,
    List.head?_drop]

variable {tokens}

/-- Numbered tokens in a range are those with a number in it. -/
theorem index_of_mem_tokenRange (hn : Token.Numbered 0 tokens) {t : Token} (hi : 0 ≤ i)
    (ht : t ∈ tokenRange tokens i last) : i ≤ t.index ∧ t.index ≤ last := by
  rw [tokenRange_eq tokens hi] at ht
  obtain ⟨m, hm⟩ := List.mem_iff_getElem?.mp ht
  rw [List.getElem?_take] at hm
  split at hm
  · rw [List.getElem?_drop] at hm
    have hindex := Token.index_of_numbered hn hm
    omega
  · cases hm

end

/-! ## The loop -/

namespace Edit

/-- A piece of what is written: a token as it stands, or a text that an edit adds. -/
inductive Piece where
  | original (t : Token)
  | added (text : Text)
deriving DecidableEq, Repr

namespace Piece

def text : Piece → Text
  | original t => t.text
  | added text => text

/-- The token that is written. -/
def token? : Piece → Option Token
  | original t => some t
  | added _ => none

end Piece

/-- What is written of the token with a given number if no edit replaces it: the token, but nothing
for the end of input. -/
def own (tokens : List Token) (i : Int) : List Piece :=
  ((tokenRange tokens i i).filter (·.kind ≠ .eof)).map .original

/-- The loop over the tokens from a number on to `last`, with resolved edits applied, comes to an
end and writes some pieces. -/
inductive Writes (tokens : List Token) (ops : List Edit) (last : Int) :
    Int → List Piece → Prop where
  | done {i : Int} (h : last < i) : Writes tokens ops last i []
  | kept {i : Int} {pieces : List Piece} (h : i ≤ last) (hfind : find? ops i = none)
    (hnext : Writes tokens ops last (i + 1) pieces) :
    Writes tokens ops last i (own tokens i ++ pieces)
  | inserted {i j : Int} {text : Text} {pieces : List Piece} (h : i ≤ last)
    (hfind : find? ops i = some (insert j text)) (hnext : Writes tokens ops last (i + 1) pieces) :
    Writes tokens ops last i (.added text :: (own tokens i ++ pieces))
  | replaced {i : Int} {r : Replacement} {pieces : List Piece} (h : i ≤ last)
    (hfind : find? ops i = some (replace r))
    (hnext : Writes tokens ops last (r.last + 1) pieces) :
    Writes tokens ops last i (.added r.text :: pieces)

/-- The loop ends in one way only. -/
theorem Writes.unique {tokens : List Token} {ops : List Edit} {last i : Int}
    {pieces pieces' : List Piece} (h : Writes tokens ops last i pieces)
    (h' : Writes tokens ops last i pieces') : pieces = pieces' := by
  induction h generalizing pieces' with
  | done hlast =>
    cases h' with
    | done => rfl
    | kept hle | inserted hle | replaced hle => omega
  | kept hle hfind _ ih =>
    cases h' with
    | done hlast => omega
    | kept _ _ hnext => rw [ih hnext]
    | inserted _ hfind' | replaced _ hfind' => cases hfind.symm.trans hfind'
  | inserted hle hfind _ ih =>
    cases h' with
    | done hlast => omega
    | inserted _ hfind' hnext =>
      cases hfind.symm.trans hfind'
      rw [ih hnext]
    | kept _ hfind' | replaced _ hfind' => cases hfind.symm.trans hfind'
  | replaced hle hfind _ ih =>
    cases h' with
    | done hlast => omega
    | replaced _ hfind' hnext =>
      cases hfind.symm.trans hfind'
      rw [ih hnext]
    | kept _ hfind' | inserted _ hfind' => cases hfind.symm.trans hfind'

theorem Writes.iff_eq {tokens : List Token} {ops : List Edit} {last i : Int}
    {pieces pieces' : List Piece} (h : Writes tokens ops last i pieces) :
    Writes tokens ops last i pieces' ↔ pieces' = pieces :=
  ⟨fun h' => h'.unique h, fun heq => heq ▸ h⟩

section
variable {tokens : List Token} {ops : List Edit} {last : Int}

theorem text_own (hend : ∀ t ∈ tokens, t.kind = .eof → t.text = []) (i : Int) :
    (own tokens i).flatMap Piece.text = tokenText tokens i := by
  cases i with
  | ofNat n =>
    have hrange : tokenRange tokens (Int.ofNat n) (Int.ofNat n) = tokens[n]?.toList :=
      tokenRange_self tokens n
    rw [own, hrange, tokenText]
    cases ht : tokens[n]? with
    | none => rfl
    | some t =>
      by_cases hk : t.kind = .eof
      · simp [hk, hend t (List.mem_of_getElem? ht) hk]
      · simp [hk, Piece.text]
  | negSucc n =>
    have hcount : (Int.negSucc n + 1).toNat = 0 := by omega
    rw [own, tokenRange, hcount]
    rfl

/-- As many steps as there are tokens are enough for the loop. -/
theorem Writes.renderFrom_eq (hend : ∀ t ∈ tokens, t.kind = .eof → t.text = []) {start : Int}
    (hp : ∀ d ∈ ops, d.Proper start) {i : Int} {pieces : List Piece}
    (h : Writes tokens ops last i pieces) {fuel : Nat} (hfuel : (last + 1 - i).toNat ≤ fuel) :
    renderFrom tokens ops last fuel i = pieces.flatMap Piece.text := by
  induction h generalizing fuel with
  | done hlast => cases fuel <;> simp [renderFrom, hlast]
  | @kept i pieces hle hfind _ ih =>
    obtain ⟨fuel, rfl⟩ := Nat.exists_eq_succ_of_ne_zero (n := fuel) (by omega)
    rw [renderFrom, if_neg (by omega), hfind, List.flatMap_append, text_own hend,
      ih (by omega)]
  | @inserted i j text pieces hle hfind _ ih =>
    obtain ⟨fuel, rfl⟩ := Nat.exists_eq_succ_of_ne_zero (n := fuel) (by omega)
    rw [renderFrom, if_neg (by omega), hfind, List.flatMap_cons, List.flatMap_append,
      text_own hend, ih (by omega), ← List.append_assoc]
    rfl
  | @replaced i r pieces hle hfind _ ih =>
    obtain ⟨fuel, rfl⟩ := Nat.exists_eq_succ_of_ne_zero (n := fuel) (by omega)
    obtain ⟨hmem, hindex⟩ := mem_of_find? hfind
    have hproper := hp _ hmem
    simp only [Proper] at hproper
    simp only [index] at hindex
    have hmax : max (i + 1) (r.last + 1) = r.last + 1 := by omega
    rw [renderFrom, if_neg (by omega), hfind]
    simp only [hmax]
    rw [ih (by omega)]
    rfl

/-! ## Resolved edits -/

/-- A replacement takes in all tokens of its range. -/
def Covers (i : Int) : Edit → Prop
  | insert _ _ => False
  | replace r => r.first ≤ i ∧ i ≤ r.last

instance decidableCovers (i : Int) : DecidablePred (Covers i)
  | insert _ _ => inferInstanceAs (Decidable False)
  | replace r => inferInstanceAs (Decidable (r.first ≤ i ∧ i ≤ r.last))

theorem Covers.touches {i : Int} {d : Edit} (h : d.Covers i) : d.Touches i := by
  cases d with
  | insert j text => exact h.elim
  | replace r =>
    simp only [Covers] at h
    simp only [Touches]
    omega

/-- One of some edits covers a token number. -/
def Covered (edits : List Edit) (i : Int) : Prop := ∃ d ∈ edits, d.Covers i

instance decidableCovered (edits : List Edit) : DecidablePred (Covered edits) :=
  fun i => inferInstanceAs (Decidable (∃ d ∈ edits, d.Covers i))

/-- A token is left as it stands. -/
def Spares (edits : List Edit) (t : Token) : Prop := t.kind ≠ .eof ∧ ¬Covered edits t.index

instance decidableSpares (edits : List Edit) : DecidablePred (Spares edits) :=
  fun t => inferInstanceAs (Decidable (t.kind ≠ .eof ∧ ¬Covered edits t.index))

/-- A token that no edit covers is the next one that is left. -/
theorem filter_spares_of_not_covers (hn : Token.Numbered 0 tokens) {i : Int} (hi : 0 ≤ i)
    (hle : i ≤ last) (hnone : ¬Covered ops i) :
    (tokenRange tokens i last).filter (Spares ops) =
      (own tokens i).filterMap Piece.token? ++
        (tokenRange tokens (i + 1) last).filter (Spares ops) := by
  have hself : i + 1 - 1 = i := by omega
  have hspares : ∀ t ∈ tokenRange tokens i i,
      decide (Spares ops t) = decide (t.kind ≠ .eof) := by
    intro t ht
    obtain ⟨hge, hle⟩ := index_of_mem_tokenRange hn hi ht
    have hindex : (t.index : Int) = i := by omega
    simp only [Spares, hindex, and_iff_left hnone]
  have hown : (own tokens i).filterMap Piece.token? =
      (tokenRange tokens i i).filter (·.kind ≠ .eof) := by
    rw [own, List.filterMap_map]
    exact List.filterMap_some
  rw [tokenRange_append tokens hi (k := i + 1) (by omega) (by omega), List.filter_append, hself,
    List.filter_congr hspares, hown]

/-- No token of a replacement is left. -/
theorem filter_spares_of_replace (hn : Token.Numbered 0 tokens) {r : Replacement}
    (hr : replace r ∈ ops) (hfirst : 0 ≤ r.first) (hle : r.first ≤ r.last) :
    (tokenRange tokens r.first last).filter (Spares ops) =
      (tokenRange tokens (r.last + 1) last).filter (Spares ops) := by
  have hcovered : ∀ {k : Int}, k ≤ r.last →
      (tokenRange tokens r.first k).filter (Spares ops) = [] := by
    intro k hk
    refine List.filter_eq_nil_iff.mpr fun t ht hspares => ?_
    obtain ⟨hge, hlast⟩ := index_of_mem_tokenRange hn hfirst ht
    exact (of_decide_eq_true hspares).2 ⟨_, hr, hge, by omega⟩
  by_cases hlast : r.last ≤ last
  · rw [tokenRange_append tokens hfirst (k := r.last + 1) (by omega) (by omega),
      List.filter_append, hcovered (by omega), List.nil_append]
  · rw [hcovered (by omega), tokenRange_of_lt tokens (by omega) (by omega), List.filter_nil]

/-- If the edits are resolved, the loop comes to an end, unless it begins inside a replacement, and
the tokens that it writes are those that no edit covers, in order. -/
theorem exists_writes {start : Int} (hs : ops.Pairwise Separate) (hp : ∀ d ∈ ops, d.Proper start)
    (hn : Token.Numbered 0 tokens) {i : Int} (hi : 0 ≤ i) (hb : Between ops i) :
    ∃ pieces, Writes tokens ops last i pieces ∧
      pieces.filterMap Piece.token? = (tokenRange tokens i last).filter (Spares ops) := by
  -- Each step leaves fewer tokens to be looked at.
  generalize hcount : (last + 1 - i).toNat = n
  induction n using Nat.strong_induction_on generalizing i with
  | _ n ih =>
    by_cases hlast : last < i
    · exact ⟨[], .done hlast, by rw [tokenRange_of_lt tokens hi hlast]; rfl⟩
    · cases hfind : find? ops i with
      | none =>
        have hindex := index_ne_of_find? hfind
        have hnone : ¬Covered ops i := fun ⟨d, hd, hcov⟩ =>
          hb.not_touches hindex d hd hcov.touches
        obtain ⟨pieces, hwrites, htokens⟩ :=
          ih _ (by omega) (i := i + 1) (by omega) (hb.succ fun r hr => hindex _ hr) rfl
        refine ⟨_, .kept (by omega) hfind hwrites, ?_⟩
        rw [List.filterMap_append, htokens,
          filter_spares_of_not_covers hn hi (by omega) hnone]
      | some d =>
        obtain ⟨hmem, hindex⟩ := mem_of_find? hfind
        have ht : d.Touches i := hindex ▸ d.touches_index
        cases d with
        | insert j text =>
          have hnone : ¬Covered ops i := by
            intro ⟨d, hd, hcov⟩
            cases eq_of_touches hs hmem hd ht hcov.touches
            exact hcov
          have hfirst : ∀ r, replace r ∈ ops → r.first ≠ i := by
            intro r hr hri
            cases eq_of_touches hs hmem hr ht (.inl hri)
          obtain ⟨pieces, hwrites, htokens⟩ :=
            ih _ (by omega) (i := i + 1) (by omega) (hb.succ hfirst) rfl
          refine ⟨_, .inserted (by omega) hfind hwrites, ?_⟩
          rw [List.filterMap_cons_none rfl, List.filterMap_append, htokens,
            filter_spares_of_not_covers hn hi (by omega) hnone]
        | replace r =>
          obtain rfl : r.first = i := hindex
          have hproper := hp _ hmem
          simp only [Proper] at hproper
          obtain ⟨pieces, hwrites, htokens⟩ :=
            ih _ (by omega) (i := r.last + 1) (by omega) (between_last hs hp hmem) rfl
          refine ⟨_, .replaced (by omega) hfind hwrites, ?_⟩
          rw [List.filterMap_cons_none rfl, htokens, filter_spares_of_replace hn hmem hi hproper.2]

/-- Rendering writes what the loop writes. -/
theorem render_of_writes (hend : ∀ t ∈ tokens, t.kind = .eof → t.text = []) {edits : List Edit}
    {first : Int} (hp : ∀ d ∈ ops, d.Proper first) (hreduce : reduce edits = .ok ops)
    {pieces : List Piece} (h : Writes tokens ops last first pieces) :
    render tokens edits first last = .ok (pieces.flatMap Piece.text) := by
  simp only [render, hreduce, Effect.ok_bind, Effect.pure_eq_ok]
  rw [h.renderFrom_eq hend hp (Nat.le_refl _)]

end

/-- Edits that nest are resolved. -/
theorem reduce_of_nests {edits : List Edit} {start : Int} (hp : ∀ d ∈ edits, d.Proper start)
    (hn : edits.Pairwise Nests) :
    ∃ ops, reduce edits = .ok ops ∧ ops.Pairwise Separate ∧ ∀ d ∈ ops, d.Proper start := by
  obtain ⟨out, hout, hclear, hproper, -⟩ :=
    @reduceReplacements_spec start [] edits hp .nil (by simp) hn
  obtain ⟨hs, hproper', -⟩ := @reduceInsertions_spec start [] out hproper .nil (by simp) hclear
  refine ⟨reduceInsertions [] out, ?_, hs, hproper'⟩
  simp only [reduce, hout, Effect.ok_bind, Effect.pure_eq_ok]

end Edit

/-! ## Blocks -/

namespace Stmt
variable {kind : Inspection} {keyword opening closing : Token} {body : List Stmt}

/-- What a block holds comes before its closing brace. -/
theorem index_lt_closing (h : Token.Ordered (block kind keyword opening body closing).tokens)
    {t : Token} (ht : t ∈ tokensOf body) : t.index < closing.index := by
  simp only [tokens] at h
  exact (List.pairwise_append.mp h).2.2 t (by simp [ht]) closing (by simp)

/-- The edits of a block stay between its braces. -/
theorem within_contentInterval (h : Token.Ordered (block kind keyword opening body closing).tokens)
    {r : Replacement} (hr : .replace r ∈ simplificationsOf body) :
    opening.index + 1 ≤ r.first ∧ r.first ≤ r.last ∧ r.last ≤ (closing.index : Int) - 1 := by
  have ho : Token.Ordered (tokensOf body) :=
    h.sublist (tokensOf_sublist_block kind keyword opening body closing)
  obtain ⟨hle, ⟨t, ht, hfirst⟩, u, hu, hlast⟩ := (simplificationsOf_settled body ho).among _ hr
  have hopening := index_lt_of_mem_block h ht
  have hclosing := index_lt_closing h hu
  omega

end Stmt

/-- The end of input has no text. -/
theorem Lexed.text_eq_nil_of_eof {t : Text} {u : Token} (hu : u ∈ (ofText t).tokens)
    (hk : u.kind = .eof) : u.text = [] := by
  rw [tokens, all, List.map_append, List.mem_append] at hu
  rcases hu with hu | hu
  · obtain ⟨i, hi, rfl⟩ := List.mem_map.mp hu
    exact absurd hk (kind_ne_eof_of_mem_ofText hi)
  · obtain rfl := List.mem_singleton.mp hu
    exact (last_locate_lexemes {} 0 [] t).1

/-- Simplifying a block never fails, whatever the source is and whether it is read with or without
syntax errors. The replacements that are recorded for the block cover at least one token each and
stay between its braces, and of two of them the earlier one lies inside the later one or they have
no token in common. So they can be resolved, and the loop that renders the block comes to an end. -/
theorem exists_simplified_of_mem_partsOf (rule : Rule) (t : Text) {kind : Inspection}
    {keyword opening closing : Token} {body : List Stmt}
    (h : .block kind keyword opening body closing ∈
      Stmt.partsOf ((Parser.ofText t).readSource rule).1.program.stmts) :
    let tokens := ((Parser.ofText t).readSource rule).1.program.tokens
    let s := Stmt.block kind keyword opening body closing
    let edits := Stmt.simplificationsOf body
    (∀ r, .replace r ∈ edits →
      s.contentInterval.1 ≤ r.first ∧ r.first ≤ r.last ∧ r.last ≤ s.contentInterval.2) ∧
    edits.Pairwise Edit.Nests ∧
    ∃ ops pieces, Edit.reduce edits = .ok ops ∧
      Edit.Writes tokens ops s.contentInterval.2 s.contentInterval.1 pieces ∧
      s.simplified tokens = .ok (pieces.flatMap Edit.Piece.text) := by
  intro tokens s edits
  have htokens : tokens = (Lexed.ofText t).tokens := Parser.tokens_readSource rule t
  have hordered : Token.Ordered s.tokens :=
    (Parser.ordered_readSource rule t).sublist (Stmt.infix_of_mem_partsOf h).sublist
  have hnests : edits.Pairwise Edit.Nests := (Stmt.simplificationsOf_settled body
    (hordered.sublist (Stmt.tokensOf_sublist_block kind keyword opening body closing))).nests
  have hwithin : ∀ r, .replace r ∈ edits → s.contentInterval.1 ≤ r.first ∧ r.first ≤ r.last ∧
      r.last ≤ s.contentInterval.2 := fun r hr => Stmt.within_contentInterval hordered hr
  have hproper : ∀ d ∈ edits, d.Proper s.contentInterval.1 :=
    Edit.proper_of_replace fun r hr => ⟨(hwithin r hr).1, (hwithin r hr).2.1⟩
  refine ⟨hwithin, hnests, ?_⟩
  obtain ⟨ops, hreduce, hseparate, hops⟩ := Edit.reduce_of_nests hproper hnests
  have hnumbered : Token.Numbered 0 tokens := htokens ▸ Lexed.numbered_ofText t
  have hfirst : 0 ≤ s.contentInterval.1 := Int.le_add_one (Int.natCast_nonneg _)
  obtain ⟨pieces, hwrites⟩ :
      ∃ pieces, Edit.Writes tokens ops s.contentInterval.2 s.contentInterval.1 pieces := by
    obtain ⟨pieces, hwrites, -⟩ := Edit.exists_writes hseparate hops hnumbered hfirst
      (Edit.between_of_proper hops)
    exact ⟨pieces, hwrites⟩
  refine ⟨ops, pieces, hreduce, hwrites, ?_⟩
  exact Edit.render_of_writes
    (htokens ▸ fun u hu hk => Lexed.text_eq_nil_of_eof hu hk) hops hreduce hwrites

theorem exists_simplified_of_mem_partsOf_recovered :
    let t : Text := "refactor\x7ba = = 0 + 1 * b == true )\x7d print"
    ∃ keyword opening body closing ops pieces,
      ((Parser.ofText t).readSource .program).1.errors ≠ [] ∧
      ((Parser.ofText t).readSource .program).1.program.stmts =
        [.block .refactor keyword opening body closing] ∧
      (Stmt.simplificationsOf body).length = 3 ∧
      Edit.reduce (Stmt.simplificationsOf body) = .ok ops ∧
      Edit.Writes ((Parser.ofText t).readSource .program).1.program.tokens ops
        ((closing.index : Int) - 1) (opening.index + 1) pieces ∧
      pieces.flatMap Edit.Piece.text = "a = = b  )" := by
  intro t
  have herrors : ((Parser.ofText t).readSource .program).1.errors ≠ [] := by decide +kernel
  have hshape : ∃ body ∈ Stmt.refactored? ((Parser.ofText t).readSource .program).1.program.stmts,
      (Stmt.simplificationsOf body).length = 3 := by decide +kernel
  have htexts : ((Parser.ofText t).readSource .program).1.program.stmts.map
      (·.simplified ((Parser.ofText t).readSource .program).1.program.tokens) =
        [.ok "a = = b  )"] := by decide +kernel
  obtain ⟨body, hbody, hlength⟩ := hshape
  obtain ⟨keyword, opening, closing, hstmts⟩ := Stmt.exists_of_refactored? hbody
  have hblock : .block .refactor keyword opening body closing ∈
      Stmt.partsOf ((Parser.ofText t).readSource .program).1.program.stmts := by
    rw [hstmts]
    exact List.mem_cons_self
  obtain ⟨-, -, ops, pieces, hreduce, hwrites, htext⟩ :=
    exists_simplified_of_mem_partsOf .program t hblock
  rw [hstmts, List.map_singleton, htext] at htexts
  exact ⟨keyword, opening, body, closing, ops, pieces, herrors, hstmts, hlength, hreduce, hwrites,
    by simpa using htexts⟩

end Reckoner
