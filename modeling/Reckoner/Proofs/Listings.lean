import Reckoner.Proofs.Defects
import Reckoner.Proofs.Outcomes

/-!
# Listings are inert

A statement that lists the variables or inspects a piece of program shows something and does nothing
else. Whatever it holds, ill-typed or undeclared as it may be, the check of a program is the same
without it; and so is the run, but for what the statement itself has written.
-/
namespace Reckoner

namespace Stmt

/-- Whether a statement only shows something: the variables, or a piece of program. -/
def isListing : Stmt → Bool
  | vars _ | block _ _ _ _ _ | wrap _ _ _ => true
  | assign _ _ _ | print _ _ _ | expr _ => false

/-- The statements of a list that are not listings. -/
def unlisted (ss : List Stmt) : List Stmt := ss.filter (!·.isListing)

theorem unlisted_cons_of_isListing {s : Stmt} (h : s.isListing = true) (ss : List Stmt) :
    unlisted (s :: ss) = unlisted ss := List.filter_cons_of_neg (by simp [h])

theorem unlisted_cons_of_not_isListing {s : Stmt} (h : s.isListing = false) (ss : List Stmt) :
    unlisted (s :: ss) = s :: unlisted ss := List.filter_cons_of_pos (by simp [h])

end Stmt

/-- A program without its listings. -/
def Program.withoutListings (p : Program) : Program := { p with stmts := Stmt.unlisted p.stmts }

/-! ## The check -/

namespace Stmt

theorem declare_of_isListing {s : Stmt} (h : s.isListing = true) (types : Scope Ty) :
    s.declare types = types := by
  cases s with
  | vars _ | block _ _ _ _ _ | wrap _ _ _ => rfl
  | assign _ _ _ | print _ _ _ | expr _ => simp [isListing] at h

theorem complaints_of_isListing {s : Stmt} (h : s.isListing = true) (tokens : List Token)
    (types : Scope Ty) : s.complaints tokens types = [] := by
  cases s with
  | vars _ | block _ _ _ _ _ | wrap _ _ _ => rfl
  | assign _ _ _ | print _ _ _ | expr _ => simp [isListing] at h

theorem declareAll_unlisted (types : Scope Ty) (ss : List Stmt) :
    declareAll types (unlisted ss) = declareAll types ss := by
  induction ss generalizing types with
  | nil => rfl
  | cons s ss ih =>
    cases h : s.isListing with
    | true => rw [unlisted_cons_of_isListing h, ih, declareAll, declareAll, List.foldl_cons,
        declare_of_isListing h]
    | false =>
      rw [unlisted_cons_of_not_isListing h]
      exact ih (s.declare types)

theorem complaintsAll_unlisted (tokens : List Token) (types : Scope Ty) (ss : List Stmt) :
    complaintsAll tokens types (unlisted ss) = complaintsAll tokens types ss := by
  induction ss generalizing types with
  | nil => rfl
  | cons s ss ih =>
    cases h : s.isListing with
    | true =>
      rw [unlisted_cons_of_isListing h, ih, complaintsAll, complaints_of_isListing h,
        declare_of_isListing h, List.nil_append]
    | false =>
      rw [unlisted_cons_of_not_isListing h, complaintsAll, complaintsAll, ih]

end Stmt

/-- The check of a program passes over its listings, from every state of the checker. -/
theorem Program.check_withoutListings_apply (p : Program) (c : Checker) :
    p.withoutListings.check c = p.check c := by
  simp only [check, Effect.bind_apply, Stmt.checkAll_eq, withoutListings,
    Stmt.declareAll_unlisted, Stmt.complaintsAll_unlisted]

/-! ## The run -/

namespace Stmt

/-- The statements that are run on a machine, each with what it writes: all of some statements, or
those up to the first that stops with a fault. -/
def shares (tokens : List Token) : List Stmt → Machine → List (Stmt × Transcript)
  | [], _ => []
  | s :: ss, m =>
    let (outcome, m') := s.exec tokens { m with values := [] }
    (s, m'.transcript.drop m.transcript.length) ::
      match outcome with
      | .ok () => shares tokens ss m'
      | .error _ => []

theorem shares_cons (tokens : List Token) (s : Stmt) (ss : List Stmt) (m : Machine) :
    shares tokens (s :: ss) m =
      match s.change tokens m.vars m.tracing with
      | .ok c => (s, c.written) :: shares tokens ss { m.changed c with values := [] }
      | .error _ => [(s, [])] := by
  have hspec := s.exec_spec tokens { m with values := [] }
  rw [shares]
  cases hc : s.change tokens m.vars m.tracing with
  | ok c =>
    simp only [hc] at hspec
    rw [hspec]
    simp [Machine.changed]
  | error f =>
    simp only [hc] at hspec
    obtain ⟨vs, hvs⟩ := hspec
    simp [hvs]

/-- The statements that are run are the first ones. -/
theorem map_fst_shares_prefix (tokens : List Token) (ss : List Stmt) (m : Machine) :
    (shares tokens ss m).map Prod.fst <+: ss := by
  induction ss generalizing m with
  | nil => exact List.prefix_refl _
  | cons s ss ih =>
    rw [shares_cons]
    cases s.change tokens m.vars m.tracing with
    | ok c => exact List.cons_prefix_cons.mpr ⟨rfl, ih _⟩
    | error f => exact List.cons_prefix_cons.mpr ⟨rfl, List.nil_prefix⟩

/-- A listing in source order runs to its end, and leaves the variables and the tracing alone. -/
theorem change_of_isListing {s : Stmt} (h : s.isListing = true) (ho : Token.Ordered s.tokens)
    (tokens : List Token) (vars : Scope Value) (tracing : Tracing) :
    ∃ es, s.change tokens vars tracing = .ok ⟨vars, tracing, es⟩ := by
  have hshown (kind : Inspection) : ∃ es, shown tokens tracing.debug kind s = .ok es := by
    cases kind with
    | tree | tokens | gui => exact ⟨_, rfl⟩
    | refactor =>
      obtain ⟨text, htext⟩ := simplified_eq_ok ho tokens
      exact ⟨_, by rw [shown, htext]⟩
  cases s with
  | vars keyword => exact ⟨_, rfl⟩
  | block kind keyword opening body closing =>
    obtain ⟨es, hes⟩ := hshown kind
    exact ⟨es, by simp [change, hes]⟩
  | wrap kind keyword inner =>
    obtain ⟨es, hes⟩ := hshown kind
    exact ⟨es, by simp [change, hes]⟩
  | assign _ _ _ | print _ _ _ | expr _ => simp [isListing] at h

end Stmt

namespace Program
variable (tokens : List Token)

/-- The transcript grows by what the statements that are run write. -/
theorem transcript_exec (ss : List Stmt) (m : Machine) :
    (Program.exec ⟨ss, tokens⟩ m).2.transcript =
      m.transcript ++ (Stmt.shares tokens ss m).flatMap Prod.snd := by
  induction ss generalizing m with
  | nil => exact (List.append_nil _).symm
  | cons s ss ih =>
    have hspec := exec_cons_spec s ss tokens m
    rw [Stmt.shares_cons]
    cases hc : s.change tokens m.vars m.tracing with
    | ok c =>
      simp only [hc] at hspec
      rw [hspec, ih]
      simp [Machine.changed]
    | error f =>
      simp only [hc] at hspec
      obtain ⟨vs, hvs⟩ := hspec
      simp [hvs]

/-- Side by side, a program and what is left of it without its listings end in the same way, with
the same variables and the same tracing. What the second one writes is the share of its statements
in what the first one writes. -/
theorem exec_unlisted {ss : List Stmt} (ho : Token.Ordered (Stmt.tokensOf ss)) {m m' : Machine}
    (hvars : m'.vars = m.vars) (htracing : m'.tracing = m.tracing) :
    (Program.exec ⟨Stmt.unlisted ss, tokens⟩ m').1 = (Program.exec ⟨ss, tokens⟩ m).1 ∧
      (Program.exec ⟨Stmt.unlisted ss, tokens⟩ m').2.vars =
        (Program.exec ⟨ss, tokens⟩ m).2.vars ∧
      (Program.exec ⟨Stmt.unlisted ss, tokens⟩ m').2.tracing =
        (Program.exec ⟨ss, tokens⟩ m).2.tracing ∧
      Stmt.shares tokens (Stmt.unlisted ss) m' =
        (Stmt.shares tokens ss m).filter (!·.1.isListing) := by
  induction ss generalizing m m' with
  | nil => exact ⟨rfl, hvars, htracing, rfl⟩
  | cons s ss ih =>
    obtain ⟨hs, hss, -⟩ := List.pairwise_append.mp ho
    have hspec := exec_cons_spec s ss tokens m
    cases h : s.isListing with
    | true =>
      obtain ⟨es, hes⟩ := Stmt.change_of_isListing h hs tokens m.vars m.tracing
      simp only [hes] at hspec
      rw [Stmt.unlisted_cons_of_isListing h, Stmt.shares_cons, hspec, hes]
      simp only [List.filter_cons, h, Bool.not_true]
      exact ih hss hvars htracing
    | false =>
      have hspec' := exec_cons_spec s (Stmt.unlisted ss) tokens m'
      rw [hvars, htracing] at hspec'
      rw [Stmt.unlisted_cons_of_not_isListing h, Stmt.shares_cons, Stmt.shares_cons, hvars,
        htracing]
      cases hc : s.change tokens m.vars m.tracing with
      | ok c =>
        simp only [hc] at hspec hspec'
        rw [hspec, hspec']
        simp only [List.filter_cons, h, Bool.not_false, if_true, List.cons.injEq, true_and]
        exact ih hss rfl rfl
      | error f =>
        simp only [hc] at hspec hspec'
        obtain ⟨vs, hvs⟩ := hspec
        obtain ⟨vs', hvs'⟩ := hspec'
        rw [hvs, hvs']
        exact ⟨rfl, rfl, rfl, by simp [h]⟩

end Program

/-- Listings are inert. A program that was read from a text, with or without syntax errors, is
checked in the same way without its top-level listings, from every state of the checker: with the
same verdict, the same complaints and the same declared types. On every machine it ends in the same
way without them, with the same variables and the same tracing, and the transcript only lacks what
they have written. -/
theorem check_and_exec_withoutListings (rule : Rule) (t : Text) :
    let p := ((Parser.ofText t).readSource rule).1.program
    (∀ c, p.withoutListings.check c = p.check c) ∧
    ∀ m,
      let shares := Stmt.shares p.tokens p.stmts m
      (p.withoutListings.exec m).1 = (p.exec m).1 ∧
      (p.withoutListings.exec m).2.vars = (p.exec m).2.vars ∧
      (p.withoutListings.exec m).2.tracing = (p.exec m).2.tracing ∧
      shares.map Prod.fst <+: p.stmts ∧
      (p.exec m).2.transcript = m.transcript ++ shares.flatMap Prod.snd ∧
      (p.withoutListings.exec m).2.transcript =
        m.transcript ++ (shares.filter (!·.1.isListing)).flatMap Prod.snd := by
  intro p
  refine ⟨p.check_withoutListings_apply, fun m => ?_⟩
  intro shares
  have hordered : Token.Ordered (Stmt.tokensOf p.stmts) := Parser.ordered_readSource rule t
  obtain ⟨hout, hvars, htracing, hshares⟩ :=
    Program.exec_unlisted p.tokens hordered (rfl : m.vars = m.vars) (rfl : m.tracing = m.tracing)
  refine ⟨hout, hvars, htracing, Stmt.map_fst_shares_prefix p.tokens p.stmts m,
    Program.transcript_exec p.tokens p.stmts m, ?_⟩
  have hwritten := Program.transcript_exec p.tokens (Stmt.unlisted p.stmts) m
  rwa [hshares] at hwritten

end Reckoner
