import Reckoner.Proofs.Lossless

/-!
# Tokens on demand or all at once

A stream takes tokens off its source when it is asked for one that it does not have, and each way of
asking makes it take a different number of them. Nobody can tell from the answers: after any calls,
in any order, `reflects_after` says that a stream answers as one that took everything at first, that
it has taken a beginning of all tokens, and that it never gives one back.
-/
namespace Reckoner

/-- Numbered tokens in a range are those with a number in it. -/
theorem tokenRange_eq_filter {tokens : List Token} (hn : Token.Numbered 0 tokens)
    (first last : Int) :
    tokenRange tokens first last = tokens.filter fun t => first ≤ t.index ∧ t.index ≤ last := by
  suffices h : ∀ n, Token.Numbered n tokens →
      (tokens.take ((last + 1).toNat - n)).drop (first.toNat - n) =
        tokens.filter fun t => first ≤ t.index ∧ t.index ≤ last from h 0 hn
  clear hn
  induction tokens with
  | nil => simp
  | cons t ts ih =>
    rintro n ⟨rfl, hts⟩
    rw [List.filter_cons, ← ih _ hts]
    by_cases hlast : (t.index : Int) ≤ last
    · have htake : (last + 1).toNat - t.index = (last + 1).toNat - (t.index + 1) + 1 := by omega
      rw [htake, List.take_succ_cons]
      by_cases hfirst : first ≤ t.index
      · have hdrop : first.toNat - t.index = 0 := by omega
        have hdrop' : first.toNat - (t.index + 1) = 0 := by omega
        simp [hdrop, hdrop', hfirst, hlast]
      · have hdrop : first.toNat - t.index = first.toNat - (t.index + 1) + 1 := by omega
        simp [hdrop, hfirst]
    · have htake : (last + 1).toNat - t.index = 0 := by omega
      have htake' : (last + 1).toNat - (t.index + 1) = 0 := by omega
      simp [htake, htake', hlast]

namespace TokenStream

/-- A question about the tokens of a source. -/
inductive Access where
  | get (i : Nat)
  | range (first last : Int)
  | text (first last : Int)

namespace Access

/-- What a question is answered with. -/
def Answer : Access → Type
  | get _ => Token
  | range _ _ => List Token
  | text _ _ => Text

/-- The answer of a stream, and the stream with the tokens that it has taken for it. -/
def run : (a : Access) → TokenStream → a.Answer × TokenStream
  | get i, s => s.get i
  | range first last, s => s.range first last
  | text first last, s => s.text first last

/-- The answer that is right if these are all tokens: the token of the number or else the last one,
the tokens with a number in the range, or the source text of these. -/
def among (tokens : List Token) : (a : Access) → a.Answer
  | get i => (tokens[min i (tokens.length - 1)]?).getD default
  | range first last => tokens.filter fun t => first ≤ t.index ∧ t.index ≤ last
  | text first last => sourceText (tokens.filter fun t => first ≤ t.index ∧ t.index ≤ last)

end Access

/-- What can be asked of a stream. -/
inductive Call where
  | access (a : Access)
  | fill
  | size

/-- The stream after a call. -/
def Call.run : Call → TokenStream → TokenStream
  | access a, s => (a.run s).2
  | fill, s => s.fill
  | size, s => s

/-- The stream after some calls. -/
def after (calls : List Call) (s : TokenStream) : TokenStream := calls.foldl (fun s c => c.run s) s

/-! ## One call -/

namespace Takes
variable {s : TokenStream} {all : List Token}

theorem begins (h : s.Takes all) : s.tokens <+: all := by
  have htaken : s.tokens = all.take (s.tokens.length + 0) := (h.pulls 0).2
  rw [htaken]
  exact List.take_prefix _ _

theorem ensure (h : s.Takes all) (n : Nat) :
    (s.ensure n).Takes all ∧ (s.ensure n).tokens = all.take (max s.size n) := by
  have hcount : s.tokens.length + (n - s.size) = max s.size n := by
    rw [size]
    omega
  rw [TokenStream.ensure, ← hcount]
  exact h.pulls (n - s.size)

/-- Whatever has been taken, there are at most as many other tokens as bytes, and the end of
input. -/
theorem fill (h : s.Takes all) : s.fill.Takes all ∧ s.fill.tokens = all := by
  obtain ⟨htakes, htokens⟩ := h.pulls (s.cursor.rest.length + 1)
  refine ⟨htakes, htokens.trans (List.take_of_length_le ?_)⟩
  cases hdone : s.done with
  | true =>
    rw [← h.finished hdone]
    omega
  | false =>
    have hleft := Lexed.length_items_locate_le s.cursor.pos s.cursor.index [] s.cursor.rest
    rw [← h.going hdone, Cursor.left, Lexed.tokens, Lexed.all]
    simp only [List.length_append, List.length_map, List.length_singleton]
    omega

/-- A token that is not there yet is taken, and with it all in front of it. -/
theorem get_eq (h : s.Takes all) (i : Nat) :
    (s.get i).1 = (all[min i (all.length - 1)]?).getD default := by
  rw [TokenStream.get, (h.ensure (i + 1)).2]
  by_cases hi : i < all.length
  · have hmin : min i (all.length - 1) = i := by omega
    rw [hmin, List.getElem?_take_of_lt (by omega), List.getElem?_eq_getElem hi]
    rfl
  · have hmin : min i (all.length - 1) = all.length - 1 := by omega
    rw [hmin, List.take_of_length_le (by omega), List.getElem?_eq_none (by omega),
      Option.none_or, List.getLast?_eq_getElem?]

theorem range_eq (h : s.Takes all) (first last : Int) :
    (s.range first last).1 = tokenRange all first last := by
  have hle : (last + 1).toNat ≤ max s.size (last + 1).toNat := Nat.le_max_right _ _
  rw [TokenStream.range, (h.ensure _).2, tokenRange, tokenRange, List.take_take,
    Nat.min_eq_left hle]

theorem run_access (h : s.Takes all) (hn : Token.Numbered 0 all) (a : Access) :
    (a.run s).1 = a.among all := by
  cases a with
  | get i => exact h.get_eq i
  | range first last => exact (h.range_eq first last).trans (tokenRange_eq_filter hn first last)
  | text first last =>
    exact congrArg sourceText
      ((h.range_eq first last).trans (tokenRange_eq_filter hn first last))

/-- Every call takes some tokens, each in its turn, and gives none back. -/
theorem run (h : s.Takes all) (c : Call) : (c.run s).Takes all ∧ s.size ≤ (c.run s).size := by
  obtain ⟨n, hn⟩ : ∃ n, c.run s = TokenStream.pulls n s := by
    rcases c with (i | ⟨first, last⟩ | ⟨first, last⟩) | _ | _
    · exact ⟨i + 1 - s.size, rfl⟩
    · exact ⟨(last + 1).toNat - s.size, rfl⟩
    · exact ⟨(last + 1).toNat - s.size, rfl⟩
    · exact ⟨s.cursor.rest.length + 1, rfl⟩
    · exact ⟨0, rfl⟩
  obtain ⟨htakes, htokens⟩ := h.pulls n
  have hle := h.begins.length_le
  rw [hn]
  refine ⟨htakes, ?_⟩
  rw [size, size, htokens, List.length_take]
  exact Nat.le_min.mpr ⟨Nat.le_add_right _ _, hle⟩

theorem after (h : s.Takes all) (calls : List Call) : (after calls s).Takes all := by
  induction calls generalizing s with
  | nil => exact h
  | cons c calls ih => exact ih (h.run c).1

end Takes

/-! ## Any calls -/

/-- A stream answers as if it had taken all tokens of its source at first. -/
structure Reflects (s : TokenStream) (src : Text) : Prop where
  /-- Every answer is that of a stream which is filled before it is asked. -/
  eager : ∀ a : Access, (a.run s).1 = (a.run (ofText src).fill).1
  /-- Every answer is the right one among all tokens, also if it is about numbers that no token
  has. -/
  among : ∀ a : Access, (a.run s).1 = a.among (Lexed.ofText src).tokens
  /-- What has been taken is a beginning of all tokens, and taking the rest gives all of them. -/
  begins : s.tokens <+: (Lexed.ofText src).tokens
  filled : s.fill.tokens = (Lexed.ofText src).tokens
  /-- The end of input is the last of all tokens, and no other one. -/
  ends : ∃ ts eof, (Lexed.ofText src).tokens = ts ++ [eof] ∧ eof.kind = .eof ∧
    ∀ t ∈ ts, t.kind ≠ .eof
  /-- No call gives a token back. -/
  grows : ∀ c : Call, s.size ≤ (c.run s).size

/-- Whatever is asked of a stream, and in whatever order, nobody can tell that it takes tokens only
as far as it has to. -/
theorem reflects_after (src : Text) (calls : List Call) :
    (after calls (ofText src)).Reflects src := by
  have hnumbered := Lexed.numbered_ofText src
  have hfilled := (takes_ofText src).fill.1
  have htakes := (takes_ofText src).after calls
  exact {
    eager := fun a => (htakes.run_access hnumbered a).trans (hfilled.run_access hnumbered a).symm
    among := htakes.run_access hnumbered
    begins := htakes.begins
    filled := htakes.fill.2
    ends := ⟨_, _, List.map_append, Lexed.kind_last_ofText src,
      List.forall_mem_map.mpr fun _ => Lexed.kind_ne_eof_of_mem_ofText⟩
    grows := fun c => (htakes.run c).2 }

end TokenStream
end Reckoner
