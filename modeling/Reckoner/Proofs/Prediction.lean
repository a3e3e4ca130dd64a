import Reckoner.Proofs.Reading

/-!
# Reading with a stack

Whether a source has syntax errors depends on the kinds of its tokens only, and on what is still to
come at each of them. This module keeps what is to come on a stack. The symbol on its top is
expanded into what it stands for, which at most the next two tokens decide; `Predicts` is the run of
such steps.

Two facts about the stack do the work. A run that stops before the end of its input stops there
whatever the input goes on with (`Stops.append`). A run that arrives at the end can go on
to empty the stack, since every stack has a filling (`Predicts.exists_completion`).
-/
namespace Reckoner

namespace TokenKind

/-- The first of some kinds, which the end of input follows. -/
def upNext (ks : List TokenKind) : TokenKind := ks.headD .eof

@[simp] theorem upNext_nil : upNext [] = .eof := rfl

@[simp] theorem upNext_cons (k : TokenKind) (ks : List TokenKind) : upNext (k :: ks) = k := rfl

/-- Whether some kinds begin with those of an assignment. -/
def beginAssign : List TokenKind → Bool
  | .identifier :: .assign :: _ => true
  | _ => false

theorem beginAssign_iff {ks : List TokenKind} :
    beginAssign ks = true ↔ upNext ks = .identifier ∧ upNext ks.tail = .assign := by
  rcases ks with _ | ⟨k, _ | ⟨l, ks⟩⟩
  · simp [beginAssign]
  · simp [beginAssign]
  · constructor
    · intro h
      unfold beginAssign at h
      split at h <;> simp_all
    · rintro ⟨rfl, rfl⟩
      rfl

/-- Whether a token ends what stands before it. -/
def closes : TokenKind → Bool
  | eof | colon | closeParen | closeBrace => true
  | _ => false

/-- Whether a token occurs in fillings. -/
def fills : TokenKind → Bool
  | number | openBrace | colon | closeParen | closeBrace => true
  | _ => false

theorem fills_of_closes {k : TokenKind} (h : k.closes = true) (hk : k ≠ .eof) :
    k.fills = true := by
  cases k <;> simp_all [closes, fills]

end TokenKind

open TokenKind

/-! ## Symbols -/

/-- What can be still to come: a certain token, or what a function of the grammar reads. -/
inductive Symbol where
  | await (kind : TokenKind)
  | expr (level : Nat)
  | climb (level : Nat)
  | unary
  | primary
  | moreArgs
  | stmts (closing : TokenKind)
  | stmt
  | body (kind : Inspection)

namespace Symbol

/-- What a symbol stands for in front of a token, and how many tokens it takes first. There is
nothing if the token is out of place or missing. -/
def reaction (next : TokenKind) (assigns : Bool) : Symbol → Option (List Symbol × Nat)
  | await kind => if next = kind ∧ kind ≠ .eof then some ([], 1) else none
  | expr level => some ([unary, climb level], 0)
  | climb level =>
    if next = .question ∧ level ≤ Grammar.ternaryLevel then
      some ([expr 0, await .colon, expr Grammar.ternaryLevel, climb level], 1)
    else
      match BinaryOp.ofToken? next with
      | some op =>
        if level ≤ op.precedence then some ([expr (op.precedence + 1), climb level], 1)
        else some ([], 0)
      | none => some ([], 0)
  | unary => if (UnaryOp.ofToken? next).isSome then some ([unary], 1) else some ([primary], 0)
  | primary =>
    match next with
    | .number | .string | .yes | .no | .identifier => some ([], 1)
    | .openParen => some ([expr 0, await .closeParen], 1)
    | _ => none
  | moreArgs =>
    if next.startsExpr = true ∧ assigns = false then some ([expr 0, moreArgs], 0) else some ([], 0)
  | stmts closing =>
    if next = closing ∨ next = .eof then some ([], 0)
    else if next.startsStmt then some ([stmt, stmts closing], 0)
    else none
  | stmt =>
    if assigns then some ([expr 0], 2)
    else
      match next with
      | .print => some ([expr 0, moreArgs], 1)
      | .vars => some ([], 1)
      | .inspect kind => some ([body kind], 1)
      | _ => some ([expr 0], 0)
  | body kind =>
    match next with
    | .openBrace => some ([stmts .closeBrace, await .closeBrace], 1)
    | .inspect inner => if kind = .refactor then none else some ([body inner], 1)
    | _ => none

/-- What a symbol stands for in front of some tokens, and the tokens that are left. -/
def expand (s : Symbol) (ks : List TokenKind) : Option (List Symbol × List TokenKind) :=
  (s.reaction (upNext ks) (beginAssign ks)).map fun r => (r.1, ks.drop r.2)

/-- Whether two tokens are needed to tell what a symbol stands for. -/
def looksTwice : Symbol → Bool
  | moreArgs | stmt => true
  | _ => false

theorem reaction_of_looksTwice_eq_false {s : Symbol} (h : s.looksTwice = false)
    (next : TokenKind) (assigns : Bool) : s.reaction next assigns = s.reaction next false := by
  cases s <;> simp_all [looksTwice, reaction]

/-- Two tokens are taken for an assignment only. -/
theorem taken_le {s : Symbol} {next : TokenKind} {assigns : Bool} {r : List Symbol × Nat}
    (h : s.reaction next assigns = some r) : r.2 ≤ 1 ∨ r.2 = 2 ∧ assigns = true := by
  cases s <;> simp only [reaction] at h <;> grind

theorem length_of_beginAssign {ks : List TokenKind} (h : beginAssign ks = true) :
    2 ≤ ks.length := by
  unfold beginAssign at h
  split at h
  · simp
  · simp at h

theorem taken_le_length {s : Symbol} {ks : List TokenKind} {r : List Symbol × Nat} (hne : ks ≠ [])
    (h : s.reaction (upNext ks) (beginAssign ks) = some r) : r.2 ≤ ks.length := by
  have hpos := List.length_pos_iff.mpr hne
  rcases taken_le h with hr | ⟨hr, ha⟩
  · omega
  · have := length_of_beginAssign ha
    omega

/-- A step depends on the first token, and for some symbols on the second one. -/
theorem expand_append {s : Symbol} {ks more : List TokenKind} (hne : ks ≠ [])
    (h : s.looksTwice = true → ks = [.identifier] → upNext more ≠ .assign) :
    s.expand (ks ++ more) = (s.expand ks).map fun r => (r.1, r.2 ++ more) := by
  have hnext : upNext (ks ++ more) = upNext ks := by
    cases ks with
    | nil => exact absurd rfl hne
    | cons k ks => rfl
  have hreaction : s.reaction (upNext (ks ++ more)) (beginAssign (ks ++ more)) =
      s.reaction (upNext ks) (beginAssign ks) := by
    rw [hnext]
    by_cases hs : s.looksTwice = true
    · have hbegin : beginAssign (ks ++ more) = beginAssign ks := by
        rw [Bool.eq_iff_iff, beginAssign_iff, beginAssign_iff]
        rcases ks with _ | ⟨k, _ | ⟨l, ks⟩⟩
        · exact absurd rfl hne
        · have := h hs
          simp_all
        · simp
      rw [hbegin]
    · rw [Bool.not_eq_true] at hs
      rw [reaction_of_looksTwice_eq_false hs, reaction_of_looksTwice_eq_false hs _ (beginAssign ks)]
  unfold expand
  rw [hreaction]
  cases hr : s.reaction (upNext ks) (beginAssign ks) with
  | none => rfl
  | some r =>
    have hle := taken_le_length hne hr
    simp [List.drop_append_of_le_length hle]

theorem expand_climb_of_not_extends {level : Nat} {ks : List TokenKind}
    (h : ¬(upNext ks).Extends level) : (climb level).expand ks = some ([], ks) := by
  unfold TokenKind.Extends at h
  rw [not_or] at h
  have hreaction : (climb level).reaction (upNext ks) (beginAssign ks) = some ([], 0) := by
    simp only [reaction, if_neg h.1]
    split
    · next op hop => exact if_neg fun hl => h.2 ⟨op, hop, hl⟩
    · rfl
  simp [expand, hreaction]

theorem expand_await {kind : TokenKind} {ks : List TokenKind} (h : upNext ks = kind)
    (hk : kind ≠ .eof) : (await kind).expand ks = some ([], ks.tail) := by
  simp [expand, reaction, h, hk]

/-- A step never gives tokens back. -/
theorem suffix_of_expand {s : Symbol} {ks ks' : List TokenKind} {π : List Symbol}
    (h : s.expand ks = some (π, ks')) : ks' <:+ ks := by
  obtain ⟨r, -, hr⟩ := Option.map_eq_some_iff.mp h
  cases hr
  exact List.drop_suffix _ _

/-! ## Fillings -/

/-- Some tokens that a symbol stands for. -/
def filling : Symbol → List TokenKind
  | await kind => [kind]
  | expr _ | unary | primary | stmt => [.number]
  | climb _ | moreArgs | stmts _ => []
  | body _ => [.openBrace, .closeBrace]

/-- Whether a symbol may stand in front of a token: one that is awaited closes something, and every
other symbol ends before a token that does. -/
def Fits (next : TokenKind) : Symbol → Prop
  | await kind => kind.closes = true ∧ kind ≠ .eof
  | stmts closing => next.closes = true ∧ (next = closing ∨ next = .eof)
  | _ => next.closes = true

/-- Every symbol of a stack fits what fills those below it. -/
def Stacked : List Symbol → Prop
  | [] => True
  | s :: σ => s.Fits (upNext (σ.flatMap filling)) ∧ Stacked σ

theorem Stacked.reaction {s : Symbol} {σ : List Symbol} {next : TokenKind} {assigns : Bool}
    {r : List Symbol × Nat} (h : Stacked (s :: σ)) (hr : s.reaction next assigns = some r) :
    Stacked (r.1 ++ σ) := by
  obtain ⟨hfits, hσ⟩ := h
  cases s with
  | await kind =>
    simp only [Symbol.reaction] at hr
    split at hr <;> cases hr
    exact hσ
  | expr level =>
    cases hr
    exact ⟨hfits, hfits, hσ⟩
  | climb level =>
    simp only [Symbol.reaction] at hr
    split at hr
    · cases hr
      exact ⟨rfl, ⟨rfl, nofun⟩, hfits, hfits, hσ⟩
    · split at hr
      · split at hr <;> cases hr
        · exact ⟨hfits, hfits, hσ⟩
        · exact hσ
      · cases hr
        exact hσ
  | unary =>
    simp only [Symbol.reaction] at hr
    split at hr <;> cases hr <;> exact ⟨hfits, hσ⟩
  | primary =>
    simp only [Symbol.reaction] at hr
    split at hr <;> cases hr
    all_goals first | exact hσ | exact ⟨rfl, ⟨rfl, nofun⟩, hσ⟩
  | moreArgs =>
    simp only [Symbol.reaction] at hr
    split at hr <;> cases hr
    · exact ⟨hfits, hfits, hσ⟩
    · exact hσ
  | stmts closing =>
    simp only [Symbol.reaction] at hr
    split at hr
    · cases hr
      exact hσ
    · split at hr <;> cases hr
      exact ⟨hfits.1, hfits, hσ⟩
  | stmt =>
    simp only [Symbol.reaction] at hr
    split at hr
    · cases hr
      exact ⟨hfits, hσ⟩
    · split at hr <;> cases hr
      · exact ⟨hfits, hfits, hσ⟩
      · exact hσ
      · exact ⟨hfits, hσ⟩
      · exact ⟨hfits, hσ⟩
  | body kind =>
    simp only [Symbol.reaction] at hr
    split at hr
    · cases hr
      exact ⟨⟨rfl, .inl rfl⟩, ⟨rfl, nofun⟩, hσ⟩
    · split at hr <;> cases hr
      exact ⟨hfits, hσ⟩
    · cases hr

/-- Expanding the top of a stack keeps it in order. -/
theorem Stacked.expand {s : Symbol} {σ π : List Symbol} {ks ks' : List TokenKind}
    (h : Stacked (s :: σ)) (he : s.expand ks = some (π, ks')) : Stacked (π ++ σ) := by
  obtain ⟨r, hr, heq⟩ := Option.map_eq_some_iff.mp he
  cases heq
  exact h.reaction hr

theorem Fits.fills {s : Symbol} {next k : TokenKind} (h : s.Fits next) (hk : k ∈ s.filling) :
    k.fills = true := by
  cases s with
  | await kind =>
    rw [List.mem_singleton.mp hk]
    exact fills_of_closes h.1 h.2
  | expr _ | unary | primary | stmt =>
    rw [List.mem_singleton.mp hk]
    rfl
  | climb _ | moreArgs | stmts _ => simp [filling] at hk
  | body kind =>
    simp only [filling, List.mem_cons, List.not_mem_nil, or_false] at hk
    rcases hk with rfl | rfl <;> rfl

theorem Stacked.fills {σ : List Symbol} {k : TokenKind} (h : Stacked σ)
    (hk : k ∈ σ.flatMap filling) : k.fills = true := by
  induction σ with
  | nil => simp at hk
  | cons s σ ih =>
    rw [List.flatMap_cons, List.mem_append] at hk
    rcases hk with hk | hk
    · exact h.1.fills hk
    · exact ih h.2 hk

end Symbol

open Reckoner.Symbol

/-! ## Runs -/

/-- The run of a stack over some tokens, with the stack and the tokens at its end. -/
inductive Predicts : List Symbol → List TokenKind → List Symbol → List TokenKind → Prop where
  | refl (σ : List Symbol) (ks : List TokenKind) : Predicts σ ks σ ks
  | step {s : Symbol} {π σ σ' : List Symbol} {ks ks₁ ks' : List TokenKind}
    (he : s.expand ks = some (π, ks₁)) (h : Predicts (π ++ σ) ks₁ σ' ks') :
    Predicts (s :: σ) ks σ' ks'

namespace Predicts
variable {s : Symbol} {π σ σ' σ'' τ : List Symbol} {ks ks' ks'' more : List TokenKind}

theorem trans (h : Predicts σ ks σ' ks') (h' : Predicts σ' ks' σ'' ks'') :
    Predicts σ ks σ'' ks'' := by
  induction h with
  | refl => exact h'
  | step he _ ih => exact .step he (ih h')

theorem single (he : s.expand ks = some (π, ks')) : Predicts [s] ks π ks' := by
  have h : Predicts [s] ks (π ++ []) ks' := .step he (.refl _ _)
  rwa [List.append_nil] at h

/-- What lies below is not touched. -/
theorem lift (h : Predicts σ ks σ' ks') (τ : List Symbol) :
    Predicts (σ ++ τ) ks (σ' ++ τ) ks' := by
  induction h with
  | refl => exact .refl _ _
  | step he _ ih =>
    rw [List.append_assoc] at ih
    exact .step he ih

/-- Of two runs from one stack, one goes on where the other ends. -/
theorem linear (h : Predicts σ ks σ' ks') (h' : Predicts σ ks σ'' ks'') :
    Predicts σ' ks' σ'' ks'' ∨ Predicts σ'' ks'' σ' ks' := by
  induction h with
  | refl => exact .inl h'
  | step he h ih =>
    cases h' with
    | refl => exact .inr (.step he h)
    | step he' h' =>
      rw [he] at he'
      cases he'
      exact ih h'

theorem suffix (h : Predicts σ ks σ' ks') : ks' <:+ ks := by
  induction h with
  | refl => exact List.suffix_refl _
  | step he _ ih => exact ih.trans (suffix_of_expand he)

theorem eq_of_nil (h : Predicts [] ks σ' ks') : σ' = [] ∧ ks' = ks := by
  cases h
  exact ⟨rfl, rfl⟩

theorem eq_of_expand_eq_none (hs : s.expand ks = none) (h : Predicts (s :: σ) ks σ' ks') :
    σ' = s :: σ ∧ ks' = ks := by
  cases h with
  | refl => exact ⟨rfl, rfl⟩
  | step he _ =>
    rw [hs] at he
    cases he

theorem stacked (h : Predicts σ ks σ' ks') (hσ : Stacked σ) : Stacked σ' := by
  induction h with
  | refl => exact hσ
  | step he _ ih => exact ih (hσ.expand he)

/-- A run over some tokens is one over more of them, if these do not change its steps. -/
theorem append (h : Predicts σ ks σ' ks')
    (hsame : ∀ t τ ls, Predicts (t :: τ) ls σ' ks' →
      t.expand (ls ++ more) = (t.expand ls).map fun r => (r.1, r.2 ++ more)) :
    Predicts σ (ks ++ more) σ' (ks' ++ more) := by
  induction h with
  | refl => exact .refl _ _
  | step he h ih =>
    have hstep := hsame _ _ _ (.step he h)
    rw [he, Option.map_some] at hstep
    exact .step hstep (ih hsame)

/-- A name at the end of input is taken by what needs two tokens to decide. -/
theorem identifier (hs : s.looksTwice = true) :
    ∃ σ', Predicts (s :: σ) [.identifier] σ' [] := by
  cases s with
  | moreArgs => exact ⟨_, .step rfl <| .step rfl <| .step rfl <| .step rfl <| .refl _ _⟩
  | stmt => exact ⟨_, .step rfl <| .step rfl <| .step rfl <| .step rfl <| .refl _ _⟩
  | _ => simp [looksTwice] at hs

end Predicts

/-- A run that ends at a symbol that cannot be expanded, at the end of input or before it. -/
def Stops (σ : List Symbol) (ks : List TokenKind) (atEnd : Bool) : Prop :=
  ∃ s σ' ks', Predicts σ ks (s :: σ') ks' ∧ s.expand ks' = none ∧ (atEnd = true ↔ ks' = [])

namespace Stops
variable {σ σ' : List Symbol} {ks ks' : List TokenKind} {atEnd : Bool}

theorem of_predicts (hp : Predicts σ ks σ' ks') (h : Stops σ' ks' atEnd) : Stops σ ks atEnd := by
  obtain ⟨s, σ'', ks'', hp', hnone, hend⟩ := h
  exact ⟨s, σ'', ks'', hp.trans hp', hnone, hend⟩

theorem lift (h : Stops σ ks atEnd) (τ : List Symbol) : Stops (σ ++ τ) ks atEnd := by
  obtain ⟨s, σ', ks', hp, hnone, hend⟩ := h
  exact ⟨s, σ' ++ τ, ks', hp.lift τ, hnone, hend⟩

/-- A run that stops does not arrive at an empty stack. -/
theorem not_predicts_nil (h : Stops σ ks atEnd) : ¬Predicts σ ks [] ks' := by
  intro hp
  obtain ⟨s, σ', ks'', hp', hnone, -⟩ := h
  rcases hp.linear hp' with hl | hl
  · simpa using hl.eq_of_nil.1
  · simpa using (hl.eq_of_expand_eq_none hnone).1

/-- A run that stops before the end of input never arrives there. -/
theorem not_predicts_end (h : Stops σ ks false) : ¬Predicts σ ks σ' [] := by
  intro hp
  obtain ⟨s, σ'', ks'', hp', hnone, hend⟩ := h
  have hne : ks'' ≠ [] := by simpa using hend
  rcases hp.linear hp' with hl | hl
  · exact hne (List.suffix_nil.mp hl.suffix)
  · exact hne (hl.eq_of_expand_eq_none hnone).2.symm

/-- What looks at two tokens does not stop before a last one. -/
theorem ne_identifier {s : Symbol} (h : Stops (s :: σ) ks false) (hs : s.looksTwice = true) :
    ks ≠ [.identifier] := by
  rintro rfl
  obtain ⟨σ', hp⟩ := Predicts.identifier (σ := σ) hs
  exact h.not_predicts_end hp

/-- A run that stops before the end of input stops there whatever comes after it. -/
theorem append (h : Stops σ ks false) (more : List TokenKind) : Stops σ (ks ++ more) false := by
  obtain ⟨s, σ', ks', hp, hnone, hend⟩ := h
  have hne : ks' ≠ [] := by simpa using hend
  have hsame : ∀ t τ ls, Predicts (t :: τ) ls (s :: σ') ks' →
      t.expand (ls ++ more) = (t.expand ls).map fun r => (r.1, r.2 ++ more) := by
    intro t τ ls hτ
    have hstops : Stops (t :: τ) ls false := ⟨s, σ', ks', hτ, hnone, hend⟩
    refine expand_append (fun hls => ?_) fun ht hls => absurd hls (hstops.ne_identifier ht)
    exact hne (List.suffix_nil.mp (hls ▸ hτ.suffix))
  refine ⟨s, σ', ks' ++ more, hp.append hsame, ?_, by simp [hne]⟩
  rw [hsame s σ' ks' (.refl _ _), hnone, Option.map_none]

end Stops

/-! ## Completions -/

theorem TokenKind.not_extends_of_closes {k : TokenKind} (h : k.closes = true) (level : Nat) :
    ¬k.Extends level := by
  cases k <;> simp_all [closes, Extends, BinaryOp.ofToken?]

theorem TokenKind.startsExpr_of_closes {k : TokenKind} (h : k.closes = true) :
    k.startsExpr = false := by
  cases k <;> simp_all [closes, startsExpr]

namespace Predicts
variable {s : Symbol} {σ σ' : List Symbol} {ks : List TokenKind}

theorem climb_of_closes (h : (upNext ks).closes = true) (level : Nat) :
    Predicts (.climb level :: σ) ks σ ks :=
  .step (expand_climb_of_not_extends (not_extends_of_closes h level)) (.refl _ _)

theorem expr_number (h : (upNext ks).closes = true) (level : Nat) :
    Predicts (.expr level :: σ) (.number :: ks) σ ks :=
  .step rfl <| .step rfl <| .step rfl <| climb_of_closes h level

/-- The filling of a symbol is read as it, up to a token that the symbol fits. -/
theorem filling (h : s.Fits (upNext ks)) : Predicts (s :: σ) (s.filling ++ ks) σ ks := by
  cases s with
  | await kind =>
    exact .step (expand_await rfl h.2) (.refl _ _)
  | expr level => exact expr_number h level
  | climb level => exact climb_of_closes h level
  | unary => exact .step rfl <| .step rfl <| .refl _ _
  | primary => exact .step rfl <| .refl _ _
  | moreArgs =>
    have hexpand : moreArgs.expand ks = some ([], ks) := by
      simp [expand, reaction, startsExpr_of_closes h]
    exact .step hexpand (.refl _ _)
  | stmts closing =>
    have hexpand : (stmts closing).expand ks = some ([], ks) := by
      simp [expand, reaction, h.2]
    exact .step hexpand (.refl _ _)
  | stmt =>
    have hexpand : stmt.expand (.number :: ks) = some ([.expr 0], .number :: ks) := by
      simp [expand, reaction, beginAssign]
    exact .step hexpand (expr_number h 0)
  | body kind => exact .step rfl <| .step rfl <| .step rfl <| .refl _ _

/-- A stack in order is emptied by its filling. -/
theorem fillings {σ : List Symbol} (h : Stacked σ) :
    Predicts σ (σ.flatMap Symbol.filling) [] [] := by
  induction σ with
  | nil => exact .refl _ _
  | cons s σ ih =>
    rw [List.flatMap_cons]
    exact (filling h.1).trans (ih h.2)

/-- A run to the end of input is a run over a longer one, unless the longer one goes on with an
equals sign. -/
theorem exists_append (h : Predicts σ ks σ' []) :
    ∃ τ, Predicts σ ks τ [] ∧
      ∀ more, upNext more ≠ .assign → Predicts σ (ks ++ more) τ more := by
  generalize hks' : [] = ks' at h
  induction h with
  | refl σ ks => exact ⟨σ, hks' ▸ .refl _ _, fun more _ => hks' ▸ .refl _ _⟩
  | @step s π σ _ ks _ _ he h ih =>
    by_cases hks : ks = []
    · exact ⟨s :: σ, hks ▸ hks' ▸ .refl _ _, fun more _ => hks ▸ .refl _ _⟩
    · obtain ⟨τ, hτ, hmore⟩ := ih hks'
      refine ⟨τ, .step he hτ, fun more hm => ?_⟩
      have hstep : s.expand (ks ++ more) = (s.expand ks).map fun r => (r.1, r.2 ++ more) :=
        expand_append hks fun _ _ => hm
      rw [he, Option.map_some] at hstep
      exact .step hstep (hmore more hm)

/-- Whatever has been read up to the end of input can be completed. -/
theorem exists_completion (h : Predicts σ ks σ' []) (hσ : Stacked σ) :
    ∃ more, (∀ k ∈ more, k.fills = true) ∧ Predicts σ (ks ++ more) [] [] := by
  obtain ⟨τ, hp, hmore⟩ := h.exists_append
  have hτ := hp.stacked hσ
  have hfills := fun k hk => hτ.fills (k := k) hk
  have hassign : upNext (τ.flatMap Symbol.filling) ≠ .assign := by
    cases hf : τ.flatMap Symbol.filling with
    | nil => simp
    | cons k ks =>
      have := hfills k (by simp [hf])
      rintro rfl
      simp [TokenKind.fills] at this
  exact ⟨_, hfills, (hmore _ hassign).trans (fillings hτ)⟩

end Predicts
end Reckoner
