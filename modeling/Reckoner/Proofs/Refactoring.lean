import Mathlib.Data.List.DropRight
import Reckoner.Proofs.Joining

/-!
# Refactoring a block

What simplifying makes of a block of a source is a source again. It is read as the simplified
statements of the block, as long as these are kept apart: the tokens that are left must not grow
together, and no statement or argument may run into the next one. A block with a single expression
or assignment always satisfies this; `simplified_merges` shows two statements that become one.
-/
namespace Reckoner

/-! ## What stands in front of a token -/

namespace Token

/-- The hidden tokens right in front of a token of a source. -/
def lead (ts : List Token) (t : Token) : List Token := (ts.take t.index).rtakeWhile Token.hidden

theorem hidden_of_mem_lead {ts : List Token} {t u : Token} (h : u ∈ lead ts t) :
    u.hidden = true := List.mem_rtakeWhile_imp h

theorem lead_append {ts : List Token} {t : Token} (h : t.index ≤ ts.length) (us : List Token) :
    lead (ts ++ us) t = lead ts t := by
  rw [lead, List.take_append_of_le_length h, lead]

/-- A source is made up of its tokens that are not hidden, with what stands in front of them. -/
theorem laid_lead {ts : List Token} (h : Numbered 0 ts) :
    laid (lead ts) (ts.filter (!·.hidden)) ++ ts.rtakeWhile Token.hidden = ts := by
  induction ts using List.reverseRecOn with
  | nil => simp
  | append_singleton ts t ih =>
    obtain ⟨hts, ht⟩ := numbered_append.mp h
    have hindex : t.index = ts.length := by simpa using ht.1
    have hlead : laid (lead (ts ++ [t])) (ts.filter (!·.hidden)) =
        laid (lead ts) (ts.filter (!·.hidden)) := by
      refine List.flatMap_congr fun u hu => ?_
      have := index_mem_numbered hts (List.mem_filter.mp hu).1
      rw [lead_append (by omega)]
    cases hv : t.hidden with
    | true =>
      rw [List.rtakeWhile_concat_pos _ _ _ hv, List.filter_append,
        List.filter_cons_of_neg (by simp [hv]), List.filter_nil, List.append_nil, hlead,
        ← List.append_assoc, ih hts]
    | false =>
      have hown : lead (ts ++ [t]) t = ts.rtakeWhile Token.hidden := by
        rw [lead_append (by omega), lead, hindex, List.take_length]
      rw [List.rtakeWhile_concat_neg _ _ _ (by simp [hv]), List.filter_append,
        List.filter_cons_of_pos (by simp [hv]), List.filter_nil, laid_append, hlead, laid_cons, hown,
        laid_nil, List.append_nil, ← List.append_assoc, ih hts]

end Token

namespace Lexed
variable {t : Text}

theorem numbered_items (t : Text) : Token.Numbered 0 ((ofText t).items.map Item.token) := by
  have h := numbered_ofText t
  rw [tokens, all, List.map_append, Token.numbered_append] at h
  exact h.1

/-- The tokens of a source up to its last one that is not hidden. -/
theorem prefix_laid_visible (t : Text) :
    Token.laid (Token.lead (ofText t).tokens) (ofText t).visible <+:
      (ofText t).items.map Item.token := by
  refine ⟨((ofText t).items.map Item.token).rtakeWhile Token.hidden, ?_⟩
  have hlaid := Token.laid_lead (numbered_items t)
  have hlead : Token.laid (Token.lead (ofText t).tokens) (ofText t).visible =
      Token.laid (Token.lead ((ofText t).items.map Item.token)) (ofText t).visible := by
    refine List.flatMap_congr fun u hu => ?_
    have := Token.index_mem_numbered (numbered_items t) (List.mem_filter.mp hu).1
    rw [tokens, all, List.map_append, Token.lead_append (by omega)]
  rw [hlead]
  exact hlaid

/-- The tokens of a source without a fault are written, and each is apart from the next. -/
theorem legible_visible (h : ∀ i ∈ (ofText t).all, i.faults = []) :
    Token.Legible (Token.lead (ofText t).tokens) (ofText t).visible := by
  obtain ⟨hwritten, hchain⟩ := written_of_faults h
  have hlaid := prefix_laid_visible t
  refine ⟨fun u hu => ?_, fun u hu v hv => ⟨Token.hidden_of_mem_lead hv, ?_⟩,
    List.IsChain.prefix hchain hlaid⟩
  · obtain ⟨hmem, hv⟩ := List.mem_filter.mp hu
    exact (hwritten u hmem).spelled (by simpa using hv)
  · refine hwritten v (hlaid.subset ?_)
    exact List.mem_flatMap.mpr ⟨u, hu, List.mem_append_left _ hv⟩

end Lexed

/-! ## Statements inside statements -/

namespace Stmt

mutual

/-- A statement and all statements inside it. -/
def parts : Stmt → List Stmt
  | block kind keyword opening body closing =>
    block kind keyword opening body closing :: partsOf body
  | wrap kind keyword inner => wrap kind keyword inner :: inner.parts
  | s => [s]

/-- Some statements and all statements inside them. -/
def partsOf : List Stmt → List Stmt
  | [] => []
  | s :: ss => s.parts ++ partsOf ss

end

mutual

/-- The tokens of a part stand together. -/
theorem infix_of_mem_parts {s p : Stmt} (h : p ∈ s.parts) : p.tokens <:+: s.tokens := by
  match s with
  | block kind keyword opening body closing =>
    rcases List.mem_cons.mp h with rfl | h
    · exact List.infix_refl _
    · exact (infix_of_mem_partsOf h).trans ⟨[keyword, opening], [closing], by simp [tokens]⟩
  | wrap kind keyword inner =>
    rcases List.mem_cons.mp h with rfl | h
    · exact List.infix_refl _
    · exact (infix_of_mem_parts h).trans ⟨[keyword], [], by simp [tokens]⟩
  | assign _ _ _ | print _ _ _ | expr _ | vars _ =>
    exact List.mem_singleton.mp h ▸ List.infix_refl _

theorem infix_of_mem_partsOf {ss : List Stmt} {p : Stmt} (h : p ∈ partsOf ss) :
    p.tokens <:+: tokensOf ss := by
  match ss with
  | [] => simp [partsOf] at h
  | s :: ss =>
    rcases List.mem_append.mp h with h | h
    · exact (infix_of_mem_parts h).trans ⟨[], tokensOf ss, by simp [tokensOf]⟩
    · exact (infix_of_mem_partsOf h).trans ⟨s.tokens, [], by simp [tokensOf]⟩

end

mutual

theorem Formed.of_mem_parts {s p : Stmt} (hs : s.Formed) (h : p ∈ s.parts) : p.Formed := by
  match s with
  | block kind keyword opening body closing =>
    rcases List.mem_cons.mp h with rfl | h
    · exact hs
    · exact FormedAll.of_mem_partsOf hs.2.2.1 h
  | wrap kind keyword inner =>
    rcases List.mem_cons.mp h with rfl | h
    · exact hs
    · exact Formed.of_mem_parts hs.2.2.2 h
  | assign _ _ _ | print _ _ _ | expr _ | vars _ =>
    rw [List.mem_singleton.mp h]
    exact hs

theorem FormedAll.of_mem_partsOf {ss : List Stmt} {p : Stmt} (hs : FormedAll ss)
    (h : p ∈ partsOf ss) : p.Formed := by
  match ss with
  | [] => simp [partsOf] at h
  | s :: ss =>
    rcases List.mem_append.mp h with h | h
    · exact Formed.of_mem_parts hs.1 h
    · exact FormedAll.of_mem_partsOf hs.2 h

end

end Stmt

/-! ## The text of a block -/

namespace Stmt
variable {kind : Inspection} {keyword opening closing : Token} {body : List Stmt}

/-- The text of a block that stands among some tokens is that of the tokens that are left. -/
theorem simplified_block_eq {ts us : List Token} {lead : Token → List Token}
    (hn : Token.Numbered 0 ts) (hlaid : Token.laid lead us <+: ts) (ho : Token.Ordered us)
    (hblock : (block kind keyword opening body closing).tokens <:+: us)
    (hformed : (block kind keyword opening body closing).Formed)
    (hts : ∀ t ∈ ts, ts[t.index]? = some t) :
    (block kind keyword opening body closing).simplified ts =
      .ok (sourceText (laidAll lead (Expr.output lead) body ++ lead closing)) := by
  have hordered := ho.sublist hblock.sublist
  obtain ⟨before, after, rfl⟩ := hblock
  obtain ⟨tail, htail⟩ := hlaid
  generalize hfront : Token.laid lead before ++ lead keyword ++ keyword :: lead opening = front
  have hsplit : ts = front ++ [opening] ++ (laidAll lead (Expr.span lead) body ++ lead closing) ++
      closing :: (Token.laid lead after ++ tail) := by
    rw [← htail, ← hfront]
    simp [tokens, Token.laid_append, Token.laid_cons, laid_tokensOf]
  have hnumbers := hn
  rw [hsplit, Token.numbered_append, Token.numbered_append, Token.numbered_append] at hnumbers
  obtain ⟨⟨⟨-, hopening, -⟩, hcontent⟩, hclosing, -⟩ := hnumbers
  simp only [List.length_append, List.length_singleton, Nat.zero_add] at hopening hcontent hclosing
  rw [← hopening] at hcontent hclosing
  have hrewrites := hcontent
  rw [Token.numbered_append] at hrewrites
  have hwritten := ((rewritesAll hformed.2.2.1 hrewrites.1).append (.kept hrewrites.2)).written
  have hcount : ((closing.index : Int) - 1 + 1 - (opening.index + 1)).toNat =
      (laidAll lead (Expr.span lead) body ++ lead closing).length := by
    rw [List.length_append]
    omega
  have hnext : (opening.index : Int) + 1 = ((opening.index + 1 : Nat) : Int) := by omega
  rw [simplified_block hordered, hcount, hnext, Edit.shown_eq_written _ hcontent, sourceText_append]
  · rw [List.append_nil] at hwritten
    rw [hwritten]
  · intro u hu
    refine hts u ?_
    rw [hsplit]
    simp only [List.mem_append] at hu ⊢
    exact .inl (.inr hu)

/-- The tokens that are left of a block whose statements are kept apart are read as the simplified
statements. -/
theorem parse_sourceText_laidAll {lead : Token → List Token}
    (hlead : ∀ t, ∀ u ∈ lead t, u.hidden = true) (hformed : FormedAll body)
    (hl : Token.Legible lead (tokensOf body ++ [closing]))
    (hkept : KeptApartAll lead body) (hsep : SeparatedAll (simplifyAll body)) :
    let text := sourceText (laidAll lead (Expr.output lead) body ++ lead closing)
    (parseProgram text).errors = [] ∧
      unplacedAll (parseProgram text).program.stmts = unplacedAll (simplifyAll body) := by
  have hbody : Token.Legible lead (tokensOf body) := hl.part ⟨[], [closing], by simp⟩
  have hclosing : Token.Legible lead [closing] := hl.part ⟨tokensOf body, [], by simp⟩
  have hpiece := (piece_laidAll hformed hbody hkept).append_lead hclosing
  have hvisible : (laidAll lead (Expr.output lead) body ++ lead closing).filter (!·.hidden) =
      tokensOf (simplifyAll body) := by
    have hgap : (lead closing).filter (!·.hidden) = [] := by simpa using hlead closing
    rw [List.filter_append, hgap, List.append_nil]
    exact filter_laidAll hlead fun t ht => (hbody.spelled t ht).hidden_eq_false
  exact @Parser.readSource_of_splits .program _ _ _ (formedAll_simplifyAll hformed) hsep
    (Token.splits_sourceText hpiece.written hpiece.chain) hvisible nofun

/-- The text of a block of a source without syntax errors. -/
theorem simplified_readSource (rule : Rule) {t : Text}
    (herrors : ((Parser.ofText t).readSource rule).1.errors = [])
    (hblock : block kind keyword opening body closing ∈
      partsOf ((Parser.ofText t).readSource rule).1.program.stmts) :
    let lead := Token.lead (Lexed.ofText t).tokens
    (block kind keyword opening body closing).simplified (Lexed.ofText t).tokens =
        .ok (sourceText (laidAll lead (Expr.output lead) body ++ lead closing)) ∧
      FormedAll body ∧ Token.Legible lead (tokensOf body ++ [closing]) := by
  intro lead
  obtain ⟨htokens, hall, -⟩ := Parser.readSource_sound rule t herrors
  have hlegible := Lexed.legible_visible (Parser.faults_eq_nil rule t herrors)
  have hformed := FormedAll.of_mem_partsOf hall hblock
  have hpart : (block kind keyword opening body closing).tokens <:+: (Lexed.ofText t).visible :=
    htokens ▸ infix_of_mem_partsOf hblock
  refine ⟨?_, hformed.2.2.1, ?_⟩
  · have hlaid : Token.laid lead (Lexed.ofText t).visible <+: (Lexed.ofText t).tokens := by
      refine (Lexed.prefix_laid_visible t).trans ⟨[(Lexed.ofText t).last.token], ?_⟩
      rw [Lexed.tokens, Lexed.all, List.map_append]
      rfl
    exact simplified_block_eq (Lexed.numbered_ofText t) hlaid (Lexed.ordered_visible t) hpart
      hformed fun u hu => Lexed.getElem?_tokens_ofText hu
  · refine hlegible.part (List.IsInfix.trans ⟨[keyword, opening], [], ?_⟩ hpart)
    simp [tokens]

theorem simplified_of_mem_partsOf {t : Text} (herrors : (parseProgram t).errors = [])
    (hblock : block kind keyword opening body closing ∈
      partsOf (parseProgram t).program.stmts) :
    let lead := Token.lead (parseProgram t).program.tokens
    (block kind keyword opening body closing).simplified (parseProgram t).program.tokens =
        .ok (sourceText (laidAll lead (Expr.output lead) body ++ lead closing)) ∧
      FormedAll body ∧ Token.Legible lead (tokensOf body ++ [closing]) := by
  have hprogram : (parseProgram t).program.tokens = (Lexed.ofText t).tokens :=
    Parser.tokens_readSource .program t
  rw [hprogram]
  exact simplified_readSource .program herrors hblock

/-- The body of the only statement, if that is a block to be simplified. -/
def refactored? : List Stmt → Option (List Stmt)
  | [block .refactor _ _ body _] => some body
  | _ => none

theorem exists_of_refactored? {ss body : List Stmt} (h : refactored? ss = some body) :
    ∃ keyword opening closing, ss = [block .refactor keyword opening body closing] := by
  unfold refactored? at h
  split at h
  · next keyword opening body closing =>
    cases h
    exact ⟨keyword, opening, closing, rfl⟩
  · cases h

end Stmt

/-! ## Blocks with one statement -/

/-- Simplifying a block with a single expression or assignment in a source without syntax errors
gives a text that is read, without a syntax error and up to the places of the tokens, as the
simplified statement. -/
theorem parse_simplified_single {t : Text} (herrors : (parseProgram t).errors = [])
    {kind : Inspection} {keyword opening closing : Token} {s : Stmt}
    (hblock : .block kind keyword opening [s] closing ∈
      Stmt.partsOf (parseProgram t).program.stmts)
    (hs : (∃ e, s = .expr e) ∨ ∃ name equals e, s = .assign name equals e) :
    ∃ text, (Stmt.block kind keyword opening [s] closing).simplified
        (parseProgram t).program.tokens = .ok text ∧
      (parseProgram text).errors = [] ∧
      Stmt.unplacedAll (parseProgram text).program.stmts = [s.simplify.unplaced] := by
  obtain ⟨htext, hformed, hlegible⟩ := Stmt.simplified_of_mem_partsOf herrors hblock
  refine ⟨_, htext, Stmt.parse_sourceText_laidAll (fun _ _ => Token.hidden_of_mem_lead) hformed
    hlegible ?_ ?_⟩
  · rcases hs with ⟨e, rfl⟩ | ⟨name, equals, e, rfl⟩
    · exact ⟨trivial, by simp, trivial⟩
    · exact ⟨trivial, by simp, trivial⟩
  · rcases hs with ⟨e, rfl⟩ | ⟨name, equals, e, rfl⟩
    · exact ⟨trivial, by simp [Stmt.simplifyAll], trivial⟩
    · exact ⟨trivial, by simp [Stmt.simplifyAll], trivial⟩

theorem parse_simplified_single_nested :
    let t : Text := "refactor\x7bx=a+0<b==false?0+-b*1:c*0//d\x0a\x7d"
    ∃ keyword opening closing name equals e, ∃ text : Text,
      (parseProgram t).program.stmts =
        [.block .refactor keyword opening [.assign name equals e] closing] ∧
      (Stmt.block .refactor keyword opening [.assign name equals e] closing).simplified
        (parseProgram t).program.tokens = .ok text ∧
      text = "x=!(a<b)?-b:0//d\x0a" ∧
      (parseProgram text).errors = [] ∧
      Stmt.unplacedAll (parseProgram text).program.stmts =
        [(Stmt.assign name equals e.simplify).unplaced] := by
  intro t
  have herrors : (parseProgram t).errors = [] := by decide +kernel
  have hshape : ∃ body ∈ Stmt.refactored? (parseProgram t).program.stmts,
      body.length = 1 ∧ ∀ s ∈ body, s.isAssign = true := by decide +kernel
  have htexts : (parseProgram t).program.stmts.map (·.simplified (parseProgram t).program.tokens) =
      [.ok "x=!(a<b)?-b:0//d\x0a"] := by decide +kernel
  obtain ⟨body, hbody, hlength, hassign⟩ := hshape
  obtain ⟨s, rfl⟩ := List.length_eq_one_iff.mp hlength
  obtain ⟨keyword, opening, closing, hstmts⟩ := Stmt.exists_of_refactored? hbody
  cases s with
  | assign name equals e =>
    have hblock : .block .refactor keyword opening [.assign name equals e] closing ∈
        Stmt.partsOf (parseProgram t).program.stmts := by
      rw [hstmts]
      exact List.mem_cons_self
    obtain ⟨text, htext, hread⟩ :=
      parse_simplified_single herrors hblock (.inr ⟨name, equals, e, rfl⟩)
    rw [hstmts, List.map_singleton, htext] at htexts
    exact ⟨keyword, opening, closing, name, equals, e, text, hstmts, htext, by simpa using htexts,
      hread⟩
  | _ => simp [Stmt.isAssign] at hassign

/-! ## Blocks with several statements -/

/-- What kind of statement stands where: a mark for each statement, with the number of arguments
where there are any, and a mark at the end of each block. -/
inductive Mark where
  | assign
  | print (args : Nat)
  | expr
  | vars
  | block (kind : Inspection)
  | closing
  | wrap (kind : Inspection)
deriving DecidableEq, Repr

namespace Stmt

mutual

/-- The marks of a statement and of the statements inside it. -/
def outline : Stmt → List Mark
  | assign _ _ _ => [.assign]
  | print _ _ more => [.print (more.length + 1)]
  | expr _ => [.expr]
  | vars _ => [.vars]
  | block kind _ _ body _ => .block kind :: outlineOf body ++ [.closing]
  | wrap kind _ inner => .wrap kind :: inner.outline

/-- The marks of some statements. -/
def outlineOf : List Stmt → List Mark
  | [] => []
  | s :: ss => s.outline ++ outlineOf ss

end

mutual

theorem outline_unplaced (s : Stmt) : s.unplaced.outline = s.outline := by
  match s with
  | print keyword arg more => simp [unplaced, outline]
  | block kind keyword opening body closing => simp [unplaced, outline, outlineOf_unplacedAll body]
  | wrap kind keyword inner => simp [unplaced, outline, outline_unplaced inner]
  | assign _ _ _ | expr _ | vars _ => rfl

theorem outlineOf_unplacedAll (ss : List Stmt) : outlineOf (unplacedAll ss) = outlineOf ss := by
  match ss with
  | [] => rfl
  | s :: ss => simp [unplacedAll, outlineOf, outline_unplaced s, outlineOf_unplacedAll ss]

end

mutual

theorem outline_simplify (s : Stmt) : s.simplify.outline = s.outline := by
  match s with
  | print keyword arg more => simp [simplify, outline]
  | block kind keyword opening body closing => simp [simplify, outline, outlineOf_simplifyAll body]
  | wrap kind keyword inner => simp [simplify, outline, outline_simplify inner]
  | assign _ _ _ | expr _ | vars _ => rfl

/-- Simplifying trees keeps the statements. -/
theorem outlineOf_simplifyAll (ss : List Stmt) : outlineOf (simplifyAll ss) = outlineOf ss := by
  match ss with
  | [] => rfl
  | s :: ss => simp [simplifyAll, outlineOf, outline_simplify s, outlineOf_simplifyAll ss]

end

end Stmt

/-- Simplifying a block of a source without syntax errors gives a text. If what is left of its
statements and arguments is kept apart, and if the simplified statements do not run into each other,
that text is read without a syntax error as statements of the same kinds, each of those that print
with as many arguments as before. -/
theorem outlineOf_parse_simplified {t : Text} (herrors : (parseProgram t).errors = [])
    {kind : Inspection} {keyword opening closing : Token} {body : List Stmt}
    (hblock : .block kind keyword opening body closing ∈
      Stmt.partsOf (parseProgram t).program.stmts) :
    ∃ text, (Stmt.block kind keyword opening body closing).simplified
        (parseProgram t).program.tokens = .ok text ∧
      (Stmt.KeptApartAll (Token.lead (parseProgram t).program.tokens) body →
        Stmt.SeparatedAll (Stmt.simplifyAll body) →
        (parseProgram text).errors = [] ∧
          Stmt.outlineOf (parseProgram text).program.stmts = Stmt.outlineOf body) := by
  obtain ⟨htext, hformed, hlegible⟩ := Stmt.simplified_of_mem_partsOf herrors hblock
  refine ⟨_, htext, fun hkept hsep => ?_⟩
  obtain ⟨hparsed, hstmts⟩ := Stmt.parse_sourceText_laidAll (fun _ _ => Token.hidden_of_mem_lead)
    hformed hlegible hkept hsep
  refine ⟨hparsed, ?_⟩
  rw [← Stmt.outlineOf_unplacedAll, hstmts, Stmt.outlineOf_unplacedAll, Stmt.outlineOf_simplifyAll]

theorem outlineOf_parse_simplified_mixed :
    let t : Text :=
      "refactor \x7b x = 0+a print (b)*1 1*c==false vars tree \x7by!=true z\x7d \x7d"
    ∃ keyword opening body closing, ∃ text : Text,
      (parseProgram t).program.stmts = [.block .refactor keyword opening body closing] ∧
      (Stmt.block .refactor keyword opening body closing).simplified
        (parseProgram t).program.tokens = .ok text ∧
      text = " x = a print (b) !(c) vars tree \x7b!y z\x7d " ∧
      (parseProgram text).errors = [] ∧
      Stmt.outlineOf (parseProgram text).program.stmts = Stmt.outlineOf body ∧
      Stmt.outlineOf body =
        [.assign, .print 2, .vars, .block .tree, .expr, .expr, .closing] := by
  intro t
  have herrors : (parseProgram t).errors = [] := by decide +kernel
  have hshape : ∃ body ∈ Stmt.refactored? (parseProgram t).program.stmts,
      Stmt.KeptApartAll (Token.lead (parseProgram t).program.tokens) body ∧
      Stmt.SeparatedAll (Stmt.simplifyAll body) ∧
      Stmt.outlineOf body = [.assign, .print 2, .vars, .block .tree, .expr, .expr, .closing] := by
    decide +kernel
  have htexts : (parseProgram t).program.stmts.map (·.simplified (parseProgram t).program.tokens) =
      [.ok " x = a print (b) !(c) vars tree \x7b!y z\x7d "] := by decide +kernel
  obtain ⟨body, hbody, hkept, hsep, houtline⟩ := hshape
  obtain ⟨keyword, opening, closing, hstmts⟩ := Stmt.exists_of_refactored? hbody
  have hblock : .block .refactor keyword opening body closing ∈
      Stmt.partsOf (parseProgram t).program.stmts := by
    rw [hstmts]
    exact List.mem_cons_self
  obtain ⟨text, htext, hread⟩ := outlineOf_parse_simplified herrors hblock
  rw [hstmts, List.map_singleton, htext] at htexts
  obtain ⟨hparsed, hsame⟩ := hread hkept hsep
  exact ⟨keyword, opening, body, closing, text, hstmts, htext, by simpa using htexts, hparsed,
    hsame, houtline⟩

/-- Two statements of a block become one: after the zero and the plus sign in front of it are gone,
the second one is taken for the rest of a difference. -/
theorem simplified_merges :
    let t : Text := "refactor \x7b a 0 + -b \x7d"
    (parseProgram t).errors = [] ∧
      Stmt.outlineOf (parseProgram t).program.stmts =
        [.block .refactor, .expr, .expr, .closing] ∧
      (parseProgram t).program.stmts.map (·.simplified (parseProgram t).program.tokens) =
        [.ok " a -b "] ∧
      (parseProgram " a -b ").errors = [] ∧
      Stmt.outlineOf (parseProgram " a -b ").program.stmts = [.expr] := by
  decide +kernel

end Reckoner
