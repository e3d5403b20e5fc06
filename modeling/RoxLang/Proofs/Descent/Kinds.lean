/-
# `RoxLang.Proofs.Descent.Kinds` — the descent looks at the kinds of tokens only

Read two lists of tokens whose kinds are the same one by one and whose numbers all convert.  What is
derived of the one is derived of the other, so either both are read, and the programs are twins:
where the one keeps a token, or what a number or a string stands for, the other keeps the token at
the same place of its own list.

Where they are rejected, the two readings see tokens of the same kind at every step, so they follow
the same rule and fail for the same reasons at the same places, and recovery leads both of them to
the same places.  Of the trees that are read on the way it only matters which are names alone, since
no other is assigned to.  Unlike the law of two readings in `Parallel`, which is about the same
tokens with something else behind them, this one cannot speak of equal trees.
-/
import RoxLang.Proofs.Descent.Breaks
import RoxLang.Proofs.Descent.Walk
import RoxLang.Proofs.Grammar.Kinds

namespace RoxLang.Descent

open Grammar
open RoxLang.Tree (levelsOfProgram isName_eq_true)

/-! ## Matching tokens -/

/-- Tokens of the same kind, neither of which is misread. -/
structure Matches (t u : Token) : Prop where
  kind : t.kind = u.kind
  left : t.Converts
  right : u.Converts

/-- Lists whose tokens match one by one. -/
abbrev Matching : List Token → List Token → Prop := List.Forall₂ Matches

/-- Trees that are names alone together. -/
def NamesAlike (e e' : Tree) : Prop := e.isName = e'.isName

/-- The ends of two readings: related values, with matching tokens behind them, or failures for the
same reason at matching places. -/
inductive Alike {α : Type} (V : α → α → Prop) :
    Except Failure (α × List Token) → Except Failure (α × List Token) → Prop
  | ok {a b : α} {ts us : List Token} : V a b → Matching ts us → Alike V (.ok (a, ts)) (.ok (b, us))
  | error {f g : Failure} : SameFailure Matching f g → Alike V (.error f) (.error g)

/-- A reader comes to related ends from tokens that match. -/
def ReadsAlike {α : Type} (V : α → α → Prop)
    (read : List Token → Except Failure (α × List Token)) : Prop :=
  ∀ {ts us : List Token}, Matching ts us → Alike V (read ts) (read us)

section

variable {α β : Type} {V : α → α → Prop} {W : β → β → Prop}

theorem Alike.bind {r r' : Except Failure (α × List Token)}
    {k k' : α × List Token → Except Failure (β × List Token)} (h : Alike V r r')
    (hk : ∀ {a b : α} {ts us : List Token}, V a b → Matching ts us →
      Alike W (k (a, ts)) (k' (b, us))) : Alike W (r >>= k) (r' >>= k') := by
  cases h with
  | ok hvalue hrest => exact hk hvalue hrest
  | error h => exact .error h

theorem alike_here {ts us : List Token} (h : Matching ts us) (reason : Reason) :
    Alike V (.error (.here reason ts)) (.error (.here reason us)) := .error ⟨rfl, h, h⟩

theorem alike_expect (kind : Kind) (reason : Reason) :
    ReadsAlike (fun _ _ => True) (expect kind reason) := by
  intro ts us h
  cases h with
  | nil => exact alike_here .nil reason
  | @cons t u ts us ht hts =>
      by_cases hkind : t.kind = kind
      · rw [expect_cons hkind, expect_cons (ht.kind.symm.trans hkind)]
        exact .ok trivial hts
      · rw [expect_cons_ne hkind, expect_cons_ne (ht.kind ▸ hkind)]
        exact alike_here (.cons ht hts) reason

end

/-! ## Expressions -/

/-- Tokens of the same kind are operands by themselves or are not, together. -/
theorem alike_atom? {t u : Token} (h : Matches t u) :
    Option.Rel NamesAlike (Tree.atom? t) (Tree.atom? u) := by
  cases ht : Tree.atom? t with
  | some e =>
      obtain ⟨e', hu, hnesting⟩ := (atom_iff.mpr ht).ofKind h.kind.symm h.right
      rw [atom_iff.mp hu]
      exact .some hnesting.name.symm
  | none =>
      cases hu : Tree.atom? u with
      | none => exact .none
      | some e' =>
          obtain ⟨e, he, -⟩ := (atom_iff.mpr hu).ofKind h.kind h.left
          rw [atom_iff.mp he] at ht
          cases ht

theorem alike_assigned {target target' : Tree} {place place' : List Token}
    {r r' : Except Failure (Tree × List Token)} (htarget : NamesAlike target target')
    (hplace : Matching place place') (h : Alike NamesAlike r r') :
    Alike NamesAlike (assigned target place r) (assigned target' place' r') := by
  cases h with
  | error h => exact .error h
  | ok _ hrest =>
      cases hname : target.isName with
      | true =>
          obtain ⟨name, rfl⟩ := isName_eq_true.mp hname
          obtain ⟨name', rfl⟩ := isName_eq_true.mp (htarget.symm.trans hname)
          exact .ok rfl hrest
      | false =>
          rw [assigned_not_name hname, assigned_not_name (htarget.symm.trans hname)]
          exact .error ⟨rfl, hplace, hrest⟩

theorem alike_readSteps {tier : Tier} {operand : List Token → Except Failure (Tree × List Token)}
    (hoperand : ReadsAlike NamesAlike operand) : ∀ (steps : Nat) {left left' : Tree}
      {ts us : List Token}, NamesAlike left left' → Matching ts us → Alike NamesAlike
        (readSteps tier operand steps left ts) (readSteps tier operand steps left' us)
  | 0, _, _, _, _, hleft, h | _ + 1, _, _, _, _, hleft, h@.nil => .ok hleft h
  | steps + 1, _, _, _, _, hleft, .cons ht hts => by
      unfold readSteps
      rw [ht.kind]
      split
      · exact (hoperand hts).bind fun _ hrest => alike_readSteps hoperand steps rfl hrest
      · exact .ok hleft (.cons ht hts)

/-- Every rule looks at the kind of the next token only. -/
theorem alike_readWithin (n : Nat) : ∀ rule : Rule, ReadsAlike NamesAlike (readWithin n rule) := by
  induction n with
  | zero =>
      intro rule ts us h
      exact alike_here h .nestingTooDeep
  | succ n ih =>
      intro rule ts us h
      cases rule with
      | assignment =>
          refine (ih (.chain .equality) h).bind fun htarget hrest => ?_
          cases hrest with
          | nil => exact .ok htarget .nil
          | cons ht hts =>
              show Alike _ (if _ then _ else _) (if _ then _ else _)
              rw [ht.kind]
              split
              · exact alike_assigned htarget (.cons ht hts) (ih .assignment hts)
              · exact .ok htarget (.cons ht hts)
      | chain tier =>
          refine (ih (.operandOf tier) h).bind fun {_ _ rest rest'} hfirst hrest => ?_
          -- either loop has as many rounds as there are tokens left, and these are as many
          show Alike _ (readSteps tier _ rest.length _ rest) (readSteps tier _ rest'.length _ rest')
          rw [hrest.length_eq]
          exact alike_readSteps (ih (.operandOf tier)) rest'.length hfirst hrest
      | unary =>
          cases h with
          | nil => exact ih .primary .nil
          | cons ht hts =>
              unfold readWithin
              rw [ht.kind]
              split
              · exact (ih .unary hts).bind fun _ hrest => .ok rfl hrest
              · exact ih .primary (.cons ht hts)
      | primary =>
          cases h with
          | nil => exact alike_here .nil .noExpression
          | @cons t u _ _ ht hts =>
              have hatom := alike_atom? ht
              unfold readWithin
              generalize Tree.atom? t = atom, Tree.atom? u = atom' at hatom ⊢
              cases hatom with
              | some hatom => exact .ok hatom hts
              | none =>
                  show Alike _ (if _ then _ else _) (if _ then _ else _)
                  rw [noOperand, noOperand, ht.kind]
                  split
                  · refine (ih .assignment hts).bind fun _ hrest => ?_
                    refine (alike_expect (.mark .rightParen) .groupEnd hrest).bind ?_
                    exact fun _ hrest => .ok rfl hrest
                  · exact alike_here (.cons ht hts) _

/-! ## Statements without blocks -/

theorem alike_readTerminated (n : Nat) (reason : Reason) :
    ReadsAlike NamesAlike (readTerminated n reason) := by
  intro ts us h
  refine (alike_readWithin n .assignment h).bind fun hvalue hrest => ?_
  exact (alike_expect (.mark .semicolon) reason hrest).bind fun _ hrest => .ok hvalue hrest

theorem alike_readDeclaration (n : Nat) : ReadsAlike NamesAlike (readDeclaration n) := by
  intro ts us h
  refine (alike_expect .identifier .variableName h).bind fun _ hrest => ?_
  cases hrest with
  | nil => exact alike_here .nil .declarationEnd
  | cons ht hts =>
      show Alike _ (if _ then _ else _) (if _ then _ else _)
      rw [ht.kind]
      split
      · exact (alike_readTerminated n .declarationEnd hts).bind fun _ hrest => .ok rfl hrest
      · refine (alike_expect (.mark .semicolon) .declarationEnd (.cons ht hts)).bind ?_
        exact fun _ hrest => .ok rfl hrest

theorem alike_readPrint (n : Nat) : ReadsAlike NamesAlike (readPrint n) := fun h =>
  (alike_readTerminated n .valueEnd h).bind fun _ hrest => .ok rfl hrest

theorem alike_readDiscard (n : Nat) : ReadsAlike NamesAlike (readDiscard n) := fun h =>
  (alike_readTerminated n .expressionEnd h).bind fun _ hrest => .ok rfl hrest

/-! ## Recovery and attempts -/

/-- What two attempts leave: failures for the same reasons at matching places, and matching tokens
behind them. -/
structure Attempt.Alike (a b : Attempt) : Prop where
  failures : List.Forall₂ (SameFailure Matching) a.failures b.failures
  rest : Matching a.rest b.rest

/-- What two loops over attempts leave. -/
structure Attempts.Alike (a b : Attempts) : Prop where
  failures : List.Forall₂ (SameFailure Matching) a.failures b.failures
  rest : Matching a.rest b.rest

section

variable {ts us : List Token}

theorem matching_skipFrom {ts us : List Token} (h : Matching ts us) :
    ∀ {previous previous' : Token}, Matches previous previous' →
      Matching (skipFrom previous ts) (skipFrom previous' us) := by
  induction h with
  | nil => exact fun _ => .nil
  | cons ht hts ih =>
      intro previous previous' hprevious
      unfold skipFrom
      rw [hprevious.kind, ht.kind]
      split
      · exact .cons ht hts
      · exact ih ht

theorem matching_synchronize (h : Matching ts us) : Matching (synchronize ts) (synchronize us) := by
  cases h with
  | nil => exact .nil
  | cons ht hts => exact matching_skipFrom hts ht

theorem alike_close {recorded recorded' : List Failure} {r r' : Except Failure (Tree × List Token)}
    (hrecorded : List.Forall₂ (SameFailure Matching) recorded recorded')
    (h : Descent.Alike NamesAlike r r') :
    (Attempt.close recorded r).Alike (Attempt.close recorded' r') := by
  cases h with
  | ok _ hrest => exact ⟨hrecorded, hrest⟩
  | error h =>
      exact ⟨List.rel_append hrecorded (.cons h .nil), matching_synchronize h.resume⟩

theorem alike_attemptAll {attempt : List Token → Attempt} {stop : Token → Bool}
    (hattempt : ∀ {ts us : List Token}, Matching ts us → (attempt ts).Alike (attempt us))
    (hstop : ∀ {t u : Token}, Matches t u → stop t = stop u) : ∀ (steps : Nat)
      {ts us : List Token}, Matching ts us →
      (attemptAll attempt stop steps ts).Alike (attemptAll attempt stop steps us)
  | 0, _, _, h | _ + 1, _, _, h@.nil => ⟨.nil, h⟩
  | steps + 1, _, _, .cons ht hts => by
      unfold attemptAll
      rw [hstop ht]
      split
      · exact ⟨.nil, .cons ht hts⟩
      · have hone := hattempt (.cons ht hts)
        have hothers := alike_attemptAll hattempt hstop steps hone.rest
        exact ⟨List.rel_append hone.failures hothers.failures, hothers.rest⟩

/-- Recovery included, an attempt at a declaration is decided by kinds. -/
theorem alike_attemptWithin (n : Nat) : ∀ {ts us : List Token}, Matching ts us →
    (attemptWithin n ts).Alike (attemptWithin n us) := by
  induction n with
  | zero =>
      intro ts us h
      exact alike_close .nil (alike_here h .nestingTooDeep)
  | succ n ih =>
      intro ts us h
      cases h with
      | nil => exact alike_close .nil (alike_readDiscard n .nil)
      | @cons t u ts us ht hts =>
          unfold attemptWithin
          simp only [← ht.kind]
          split
          · exact alike_close .nil (alike_readDeclaration n hts)
          · exact alike_close .nil (alike_readPrint n hts)
          · have hstop {t u : Token} (h : Matches t u) : closesBlock t = closesBlock u := by
              rw [closesBlock, closesBlock, h.kind]
            rw [← hts.length_eq]
            have hbody := alike_attemptAll ih hstop ts.length hts
            refine alike_close hbody.failures ?_
            refine (alike_expect (.mark .rightBrace) .blockEnd hbody.rest).bind ?_
            exact fun _ hrest => .ok rfl hrest
          · exact alike_close .nil (alike_readDiscard n (.cons ht hts))

theorem alike_attemptsFrom (n : Nat) (h : Matching ts us) :
    (attemptsFrom n never ts).Alike (attemptsFrom n never us) := by
  unfold attemptsFrom
  rw [h.length_eq]
  exact alike_attemptAll (alike_attemptWithin n) (fun _ => rfl) us.length h

end

/-! ## Programs -/

/-- Blames for the same reason at the same index, each of the token that its own list has there. -/
structure SameBlame (ts us : List Token) (a b : Blame) : Prop where
  reason : a.reason = b.reason
  index : a.index = b.index
  left : ts[a.index]? = some a.token
  right : us[b.index]? = some b.token

section

variable {ts us : List Token}

theorem matching_of_sameKinds (h : SameKinds ts us) (hts : Converts ts) (hus : Converts us) :
    Matching ts us := by
  have hlength : ts.length = us.length := by simpa using congrArg List.length h
  refine List.forall₂_iff_get.mpr ⟨hlength, fun i hi hi' => ⟨?_, ?_, ?_⟩⟩
  · have hkind : (ts.map Token.kind)[i]? = (us.map Token.kind)[i]? := congrArg (·[i]?) h
    simpa [hi, hi'] using hkind
  · exact hts _ (List.get_mem ..)
  · exact hus _ (List.get_mem ..)

theorem matching_bodyOf (h : Matching ts us) : Matching (bodyOf ts) (bodyOf us) := by
  induction h with
  | nil => exact .nil
  | cons ht _ ih =>
      simp only [bodyOf, List.takeWhile_cons, Token.isEof, ht.kind]
      split
      · exact .cons ht ih
      · exact .nil

theorem Matching.standIn (h : Matching ts us) : StandIn ts us := by
  induction h with
  | nil => exact ⟨rfl, List.forall_mem_nil _⟩
  | cons ht _ ih =>
      refine ⟨?_, List.forall_mem_cons.mpr ⟨ht.right, ih.converts⟩⟩
      rw [SameKinds, List.map_cons, List.map_cons, ht.kind, ih.kinds]

theorem Matching.converts (h : Matching ts us) : Converts ts := by
  induction h with
  | nil => exact List.forall_mem_nil _
  | cons ht _ ih => exact List.forall_mem_cons.mpr ⟨ht.left, ih⟩

theorem exists_split (h : ts.getLast?.map Token.kind = some .eof) :
    ∃ first, splitAtEof ts = some (bodyOf ts, first) := by
  obtain ⟨eof, hlast, heof⟩ := Option.map_eq_some_iff.mp h
  obtain ⟨before, rfl⟩ := List.getLast?_eq_some_iff.mp hlast
  exact splitAtEof_append heof before

/-- Failures for the same reasons at matching places are reported for the same reasons at the same
indices, and the blamed tokens are those that the lists have there. -/
theorem sameBlames {body body' : List Token} {eof eof' : Token}
    (hlength : body.length = body'.length) (hts : Ended ts body eof) (hus : Ended us body' eof')
    {fs gs : List Failure} (h : List.Forall₂ (SameFailure Matching) fs gs) :
    (∀ f ∈ fs, f.blamed <:+ body) → (∀ g ∈ gs, g.blamed <:+ body') →
      List.Forall₂ (SameBlame ts us) (fs.map (·.blame body eof)) (gs.map (·.blame body' eof')) := by
  induction h with
  | nil => exact fun _ _ => .nil
  | @cons f g fs gs h _ ih =>
      intro hfs hgs
      obtain ⟨hf, hfs⟩ := List.forall_mem_cons.mp hfs
      obtain ⟨hg, hgs⟩ := List.forall_mem_cons.mp hgs
      have hindex : (f.blame body eof).index = (g.blame body' eof').index := by
        simp only [Failure.blame, hlength, h.blamed.length_eq]
      exact .cons ⟨h.reason, hindex, (hts.blamed hf).2, (hus.blamed hg).2⟩ (ih hfs hgs)

/-- What is read of tokens is a matter of their kinds.  Take two lists of the same kinds that end
with an end token and whose numbers all convert.  Either both are read, and the programs are twins:
each token, and each number and string, is taken from the same place of its own list.  Or both are
rejected, as often, and each time for the same reason at the same place. -/
theorem parse_of_sameKinds (hkinds : SameKinds ts us)
    (hends : ts.getLast?.map Token.kind = some .eof) (hts : Converts ts) (hus : Converts us) :
    (∃ as bs, parse ts = .ok as ∧ parse us = .ok bs ∧
        TwinPrograms ((bodyOf ts).zip (bodyOf us)) as bs) ∨
      ∃ as bs, parse ts = .error (.faults as) ∧ parse us = .error (.faults bs) ∧
        List.Forall₂ (SameBlame ts us) as bs := by
  have hends' : us.getLast?.map Token.kind = some .eof := by
    rw [← List.getLast?_map, ← hkinds, List.getLast?_map, hends]
  obtain ⟨eof, hsplit⟩ := exists_split hends
  obtain ⟨eof', hsplit'⟩ := exists_split hends'
  have hbody := matching_bodyOf (matching_of_sameKinds hkinds hts hus)
  have halike := (alike_attemptsFrom levelLimit hbody).failures
  have hreasons := reason_ne_misread hsplit (misreadOf_of_converts hsplit hbody.converts)
  have hreasons' := reason_ne_misread hsplit' (misreadOf_of_converts hsplit' hbody.standIn.converts)
  have hblames := sameBlames hbody.length_eq (ended_of_split hsplit) (ended_of_split hsplit')
    halike (attempts_inOrder (bodyOf ts)).ahead (attempts_inOrder (bodyOf us)).ahead
  rw [parse_of_reasons hsplit hreasons, parse_of_reasons hsplit' hreasons']
  cases hfailures : (attemptsFrom levelLimit never (bodyOf ts)).failures with
  | nil =>
      rw [hfailures] at halike
      have hfailures' := List.forall₂_nil_left_iff.mp halike
      obtain ⟨hprogram, -⟩ := attemptBody_sound hfailures
      obtain ⟨hprogram', -⟩ := attemptBody_sound hfailures'
      obtain ⟨bs, hbs, -, htwins⟩ := hprogram.ofKinds hbody.standIn
      rw [program_unique hbs hprogram'] at htwins
      rw [hfailures']
      exact .inl ⟨_, _, rfl, rfl, htwins⟩
  | cons f fs =>
      rw [hfailures] at hblames
      generalize (attemptsFrom _ _ (bodyOf us)).failures.map _ = bs at hblames ⊢
      cases hblames with
      | cons hblame hblames => exact .inr ⟨_, _, rfl, rfl, .cons hblame hblames⟩

end

/-- `a = "x" + 1 ;` and `b = "" + 2.5 ;` in another line, which are read, and `{ a = ; "x"` and
`{ b = ; ""`, which are not: the value, a semicolon and the closing brace are missing. -/
theorem parse_of_sameKinds_other_texts :
    let token (line : Int) (kind : Kind) (lexeme : String) : Token := ⟨kind, lexeme, line⟩
    let sum (line : Int) (name text numeral : String) : List Token :=
      [token line .identifier name, token line (.mark .equal) "=", token line .string text,
        token line (.mark .plus) "+", token line .number numeral,
        token line (.mark .semicolon) ";", token line .eof ""]
    let tree (line : Int) (name text : String) (x : Number) : Tree :=
      .discard (.assign (token line .identifier name) (.binary (.literal (.string text))
        (token line (.mark .plus) "+") (.literal (.number x))))
    let unclosed (line : Int) (name text : String) : List Token :=
      [token line (.mark .leftBrace) "\x7b", token line .identifier name,
        token line (.mark .equal) "=", token line (.mark .semicolon) ";", token line .string text,
        token line .eof ""]
    let blames (line : Int) : List Blame :=
      [⟨.noExpression, token line (.mark .semicolon) ";", 3⟩,
        ⟨.expressionEnd, token line .eof "", 5⟩, ⟨.blockEnd, token line .eof "", 5⟩]
    let one : Number := (Decimal.mk 1 0).toNumber
    let twoAndHalf : Number := (Decimal.mk 25 1).toNumber
    (parse (sum 0 "a" "x" "1") = .ok [tree 0 "a" "x" one] ∧
      parse (sum 4 "b" "" "2.5") = .ok [tree 4 "b" "" twoAndHalf] ∧
      TwinPrograms ((bodyOf (sum 0 "a" "x" "1")).zip (bodyOf (sum 4 "b" "" "2.5")))
        [tree 0 "a" "x" one] [tree 4 "b" "" twoAndHalf]) ∧
    parse (unclosed 0 "a" "x") = .error (.faults (blames 0)) ∧
      parse (unclosed 4 "b" "") = .error (.faults (blames 4)) ∧
      List.Forall₂ (SameBlame (unclosed 0 "a" "x") (unclosed 4 "b" "")) (blames 0) (blames 4) := by
  intro token sum tree unclosed blames one twoAndHalf
  have hsum : parse (sum 0 "a" "x" "1") = .ok [tree 0 "a" "x" one] := by
    subst token sum tree one
    rfl
  have hsum' : parse (sum 4 "b" "" "2.5") = .ok [tree 4 "b" "" twoAndHalf] := by
    subst token sum tree twoAndHalf
    rfl
  have hconverts : Converts (sum 0 "a" "x" "1") ∧ Converts (sum 4 "b" "" "2.5") := by
    subst token sum
    decide
  have hunclosed : parse (unclosed 0 "a" "x") = .error (.faults (blames 0)) := rfl
  have hunclosed' : parse (unclosed 4 "b" "") = .error (.faults (blames 4)) := rfl
  refine ⟨⟨hsum, hsum', ?_⟩, hunclosed, hunclosed', ?_⟩
  · have hkinds : SameKinds (sum 0 "a" "x" "1") (sum 4 "b" "" "2.5") := rfl
    obtain ⟨as, bs, has, hbs, htwins⟩ | ⟨as, bs, has, -⟩ :=
      parse_of_sameKinds hkinds rfl hconverts.1 hconverts.2
    · rw [← Except.ok.inj (hsum.symm.trans has), ← Except.ok.inj (hsum'.symm.trans hbs)] at htwins
      exact htwins
    · cases hsum.symm.trans has
  · have hkinds : SameKinds (unclosed 0 "a" "x") (unclosed 4 "b" "") := rfl
    have hconverts : Converts (unclosed 0 "a" "x") ∧ Converts (unclosed 4 "b" "") := by decide
    obtain ⟨as, bs, has, -⟩ | ⟨as, bs, has, hbs, hblames⟩ :=
      parse_of_sameKinds hkinds rfl hconverts.1 hconverts.2
    · cases hunclosed.symm.trans has
    · cases hunclosed.symm.trans has
      cases hunclosed'.symm.trans hbs
      exact hblames

end RoxLang.Descent
