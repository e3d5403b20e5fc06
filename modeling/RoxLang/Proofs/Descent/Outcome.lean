/-
# `RoxLang.Proofs.Descent.Outcome` — what comes of a list of tokens

A list that ends with an end token is read, or rejected with the faults that were recorded, or
reading comes to a number that it cannot convert and ends there.  The last needs a token made by
hand: what is misread is a number of the list whose lexeme is no numeral at all.  Where every number
of a list converts, only the first two are left.

With this the descent is compared to the grammar (`parse_iff_derives`): it gives `trees` exactly for
the lists that derive `trees`, and rejects all others, with at least one fault if it does not end at
a misread number.
-/
import RoxLang.Proofs.Descent.Order
import RoxLang.Proofs.Grammar.Kinds

namespace RoxLang.Descent

open Grammar
open RoxLang.Tree

/-! ## The tokens up to the first end token -/

section

variable {ts body : List Token} {eof : Token}

theorem bodyOf_append_eof (hts : ∀ t ∈ ts, t.kind ≠ .eof) (heof : eof.kind = .eof) :
    bodyOf (ts ++ [eof]) = ts := by
  have hplain : ∀ t ∈ ts, (!t.isEof) = true := by
    intro t ht
    simp [Token.isEof, hts t ht]
  rw [bodyOf, List.takeWhile_append_of_pos hplain]
  simp [Token.isEof, heof]

theorem splitAtEof_append_eof (hts : ∀ t ∈ ts, t.kind ≠ .eof) (heof : eof.kind = .eof) :
    splitAtEof (ts ++ [eof]) = some (ts, eof) := by
  have hend : eof.isEof = true := by simp [Token.isEof, heof]
  have hnone : ts.find? Token.isEof = none := by simpa [Token.isEof] using hts
  have hfind : (ts ++ [eof]).find? Token.isEof = some eof := by
    rw [List.find?_append, hnone, List.find?_cons_of_pos hend]
    rfl
  have hbody : (ts ++ [eof]).takeWhile (!·.isEof) = ts := bodyOf_append_eof hts heof
  simp only [splitAtEof, hfind, hbody, List.getLast?_append, List.getLast?_singleton,
    Option.some_or, hend, if_true]

theorem body_of_split (h : splitAtEof ts = some (body, eof)) : body = bodyOf ts := by
  unfold splitAtEof at h
  split at h
  · split at h
    · exact (Prod.mk.inj (Option.some.inj h)).1.symm
    · cases h
  · cases h

/-- At the outermost level there is nothing to stop at. -/
def never (_ : Token) : Bool := false

theorem parse_of_split (h : splitAtEof ts = some (body, eof)) :
    parse ts = (attemptsFrom levelLimit never body).result body eof := by
  rw [parse, h]
  rfl

/-! ## Numbers that are misread -/

theorem Failure.misread?_of_ne {f : Failure} (h : f.reason ≠ .misreadNumber) :
    f.misread? = none := if_neg h

theorem findSome?_misread?_of_ne {fs : List Failure} (h : ∀ f ∈ fs, f.reason ≠ .misreadNumber) :
    fs.findSome? Failure.misread? = none :=
  List.findSome?_eq_none_iff.mpr fun f hf => Failure.misread?_of_ne (h f hf)

/-- Where no failure is about a misread number, all of them are reported. -/
theorem parse_of_reasons (h : splitAtEof ts = some (body, eof))
    (hreasons : ∀ f ∈ (attemptsFrom levelLimit never body).failures, f.reason ≠ .misreadNumber) :
    parse ts = outcome (attemptsFrom levelLimit never body).trees
      ((attemptsFrom levelLimit never body).failures.map (·.blame body eof)) := by
  rw [parse_of_split h, Attempts.result, findSome?_misread?_of_ne hreasons]

/-- A failure is about a misread number exactly if it is given as the reason, and that number does
not convert. -/
theorem Failure.Apt.misread?_cases {f : Failure} (h : f.Apt) :
    f.reason ≠ .misreadNumber ∧ f.misread? = none ∨
      ∃ t ∈ f.blamed, ¬ t.Converts ∧ f.misread? = some t := by
  by_cases hreason : f.reason = .misreadNumber
  · obtain ⟨t, ht, hconverts⟩ := h.misread hreason
    refine .inr ⟨t, List.mem_of_head? ht, hconverts, ?_⟩
    rw [Failure.misread?, if_pos hreason]
    exact ht
  · exact .inl ⟨hreason, Failure.misread?_of_ne hreason⟩

theorem attempts_inOrder (body : List Token) : InOrder body
    (attemptsFrom levelLimit never body).failures (attemptsFrom levelLimit never body).rest :=
  attemptsFrom_inOrder (attemptWithin_inOrder levelLimit) never body

/-- The number that a reading misreads, if it comes to one. -/
def misreadOf (ts : List Token) : Option Token :=
  match parse ts with
  | .error (.misread t) => some t
  | _ => none

/-- What reading blames; nothing where it gives a program or misreads a number. -/
def blamesOf (ts : List Token) : List Blame :=
  match parse ts with
  | .error (.faults blames) => blames
  | _ => []

theorem misreadOf_split (h : splitAtEof ts = some (body, eof)) : misreadOf ts
    = (attemptsFrom levelLimit never body).failures.findSome? Failure.misread? := by
  rw [misreadOf, parse_of_split h, Attempts.result]
  cases (attemptsFrom levelLimit never body).failures.findSome? Failure.misread? with
  | some t => rfl
  | none => cases (attemptsFrom levelLimit never body).failures <;> rfl

theorem misreadOf_of_reasons (h : splitAtEof ts = some (body, eof))
    (hreasons : ∀ f ∈ (attemptsFrom levelLimit never body).failures, f.reason ≠ .misreadNumber) :
    misreadOf ts = none := by
  rw [misreadOf_split h, findSome?_misread?_of_ne hreasons]

theorem misreadOf_of_failures (h : splitAtEof ts = some (body, eof)) {number : Token}
    {fs gs : List Failure} {us : List Token}
    (hfailures : (attemptsFrom levelLimit never body).failures
      = fs ++ .here .misreadNumber (number :: us) :: gs)
    (hreasons : ∀ f ∈ fs, f.reason ≠ .misreadNumber) : misreadOf ts = some number := by
  rw [misreadOf_split h, hfailures, List.findSome?_append, findSome?_misread?_of_ne hreasons]
  rfl

theorem blamesOf_split (h : splitAtEof ts = some (body, eof)) (hmisread : misreadOf ts = none) :
    blamesOf ts = (attemptsFrom levelLimit never body).failures.map (·.blame body eof) := by
  rw [misreadOf_split h] at hmisread
  rw [blamesOf, parse_of_split h, Attempts.result, hmisread]
  cases (attemptsFrom levelLimit never body).failures <;> rfl

theorem misreadOf_eq_some_iff {t : Token} :
    misreadOf ts = some t ↔ parse ts = .error (.misread t) := by
  unfold misreadOf
  constructor
  · intro h
    split at h
    · next hparse =>
        cases h
        exact hparse
    · cases h
  · intro h
    rw [h]

/-- What is misread is a number of the body that does not convert. -/
theorem not_converts_of_misreadOf (h : splitAtEof ts = some (body, eof)) {t : Token}
    (ht : misreadOf ts = some t) : t ∈ body ∧ ¬ t.Converts := by
  rw [misreadOf_split h] at ht
  obtain ⟨f, hf, hmisread⟩ := List.exists_of_findSome?_eq_some ht
  have horder := attempts_inOrder body
  obtain ⟨-, hnone⟩ | ⟨u, hu, hconverts, hsome⟩ := (horder.apt f hf).misread?_cases
  · rw [hnone] at hmisread
    cases hmisread
  · rw [hsome] at hmisread
    cases hmisread
    exact ⟨(horder.ahead f hf).mem hu, hconverts⟩

theorem misreadOf_of_converts (h : splitAtEof ts = some (body, eof)) (hbody : Converts body) :
    misreadOf ts = none := by
  cases hmisread : misreadOf ts with
  | none => rfl
  | some t =>
      obtain ⟨ht, hconverts⟩ := not_converts_of_misreadOf h hmisread
      exact absurd (hbody t ht) hconverts

/-- Where nothing is misread, no failure is about a misread number. -/
theorem reason_ne_misread (h : splitAtEof ts = some (body, eof)) (hmisread : misreadOf ts = none) :
    ∀ f ∈ (attemptsFrom levelLimit never body).failures, f.reason ≠ .misreadNumber := by
  rw [misreadOf_split h] at hmisread
  intro f hf
  obtain ⟨hreason, -⟩ | ⟨t, -, -, hsome⟩ := ((attempts_inOrder body).apt f hf).misread?_cases
  · exact hreason
  · rw [List.findSome?_eq_none_iff.mp hmisread f hf] at hsome
    cases hsome

/-! ## Rejected lists -/

theorem rejected_of_failures (h : splitAtEof ts = some (body, eof)) {f : Failure}
    {fs : List Failure} (hfailures : (attemptsFrom levelLimit never body).failures = f :: fs)
    (hmisread : misreadOf ts = none) :
    parse ts = .error (.faults (f.blame body eof :: fs.map (·.blame body eof))) := by
  rw [misreadOf_split h] at hmisread
  rw [parse_of_split h, Attempts.result, hmisread, hfailures]
  rfl

/-- A rejected list has a number that is misread, or a first failure. -/
theorem failures_of_rejected (h : splitAtEof ts = some (body, eof)) {r : Rejection}
    (hparse : parse ts = .error r) :
    (∃ t ∈ body, ¬ t.Converts ∧ r = .misread t) ∨
      ∃ f fs, (attemptsFrom levelLimit never body).failures = f :: fs ∧ misreadOf ts = none ∧
        r = .faults (f.blame body eof :: fs.map (·.blame body eof)) := by
  cases hmisread : misreadOf ts with
  | some t =>
      obtain ⟨ht, hconverts⟩ := not_converts_of_misreadOf h hmisread
      rw [misreadOf_eq_some_iff.mp hmisread] at hparse
      exact .inl ⟨t, ht, hconverts, (Except.error.inj hparse).symm⟩
  | none =>
      cases hfailures : (attemptsFrom levelLimit never body).failures with
      | nil =>
          have hok : parse ts = .ok (attemptsFrom levelLimit never body).trees := by
            rw [parse_of_split h]
            exact Attempts.result_eq_ok_iff.mpr ⟨hfailures, rfl⟩
          rw [hok] at hparse
          cases hparse
      | cons f fs =>
          rw [rejected_of_failures h hfailures hmisread] at hparse
          exact .inr ⟨f, fs, rfl, rfl, (Except.error.inj hparse).symm⟩

/-- Of a list without misread numbers either a program or at least one blame comes. -/
theorem exists_parse_of_blamesOf_nil (h : splitAtEof ts = some (body, eof))
    (hmisread : misreadOf ts = none) (hblames : blamesOf ts = []) :
    ∃ trees, parse ts = .ok trees := by
  rw [blamesOf_split h hmisread, List.map_eq_nil_iff] at hblames
  rw [parse_of_split h]
  exact ⟨_, Attempts.result_eq_ok_iff.mpr ⟨hblames, rfl⟩⟩

/-- The index of a blame is where the blamed token stands, and the tokens before it come before. -/
theorem index_of_blame {before : List Token} {f : Failure} (h : ts = before ++ f.blamed)
    (eof : Token) : (ts ++ [eof])[(f.blame ts eof).index]? = some (f.blame ts eof).token ∧
      (ts ++ [eof]).take (f.blame ts eof).index = before := by
  have hindex : (f.blame ts eof).index = before.length := by
    simp only [Failure.blame, h, List.length_append, Nat.add_sub_cancel]
  rw [hindex, h, List.append_assoc]
  refine ⟨?_, List.take_left⟩
  rw [List.getElem?_append_right (Nat.le_refl _), Nat.sub_self]
  show _ = some (f.blamed.head?.getD eof)
  cases f.blamed <;> rfl

end

/-! ## The descent and the grammar -/

/-- The reader accepts exactly the grammar and gives the tree of the derivation, of which there is
only one.  A list outside the grammar is rejected with at least one fault, unless reading comes to a
number whose lexeme reads as none: then it ends there, and no fault is reported.  Among the faults
themselves there is none of that kind. -/
theorem parse_iff_derives {eof : Token} (h : eof.kind = .eof) (before : List Token) :
    (∀ trees, parse (before ++ [eof]) = .ok trees ↔
      Program (bodyOf (before ++ [eof])) trees ∧ levelsOfProgram trees ≤ levelLimit) ∧
    (∀ as bs, Program (bodyOf (before ++ [eof])) as → Program (bodyOf (before ++ [eof])) bs →
      as = bs) ∧
    ((∀ trees, ¬ Program (bodyOf (before ++ [eof])) trees) →
      (∃ b bs, parse (before ++ [eof]) = .error (.faults (b :: bs)) ∧
        ∀ blame ∈ b :: bs, blame.reason ≠ .misreadNumber) ∨
      ∃ t ∈ bodyOf (before ++ [eof]), t.kind = .number ∧ Number.ofText? t.lexeme = none ∧
        parse (before ++ [eof]) = .error (.misread t)) := by
  refine ⟨parse_ok_iff h before, fun as bs => program_unique, fun hno => ?_⟩
  obtain ⟨first, hsplit⟩ := splitAtEof_append h before
  cases hparse : parse (before ++ [eof]) with
  | ok trees => exact absurd ((parse_ok_iff h before trees).mp hparse).1 (hno trees)
  | error r =>
      obtain ⟨t, ht, hconverts, rfl⟩ | ⟨f, fs, hfailures, hmisread, rfl⟩ :=
        failures_of_rejected hsplit hparse
      · obtain ⟨hkind, hnone⟩ := Token.not_converts_iff.mp hconverts
        exact .inr ⟨t, ht, hkind, hnone, rfl⟩
      · refine .inl ⟨_, _, rfl, ?_⟩
        have hreasons := reason_ne_misread hsplit hmisread
        rw [hfailures] at hreasons
        exact List.forall_mem_map (f := (Failure.blame _ first)) (l := f :: fs) |>.mpr hreasons

/-- `a = b - c;`, with an end token in front of tokens that are no program. -/
theorem parse_assigned_difference :
    let a : Token := ⟨.identifier, "a", 0⟩
    let b : Token := ⟨.identifier, "b", 0⟩
    let c : Token := ⟨.identifier, "c", 0⟩
    let equal : Token := ⟨.mark .equal, "=", 0⟩
    let minus : Token := ⟨.mark .minus, "-", 0⟩
    let semicolon : Token := ⟨.mark .semicolon, ";", 0⟩
    let eof : Token := ⟨.eof, "", 0⟩
    parse ([a, equal, b, minus, c, semicolon, eof, semicolon] ++ [eof])
      = .ok [.discard (.assign a (.binary (.reference b) minus (.reference c)))] := by
  intro a b c equal minus semicolon eof
  have name {t : Token} (ht : t.kind = .identifier) :
      Derives (.chain .factor) [t] (.reference t) := .operand (.primary (.atom (.name ht)))
  have difference : Derives (.chain .term) ([b] ++ minus :: [c]) _ :=
    .step (.operand (name rfl)) .minus (name rfl)
  have value : Derives .assignment _ _ := .equality (.operand (.operand difference))
  exact ((parse_iff_derives rfl _).1 _).mpr
    ⟨(Declaration.discard (.assign rfl rfl value) rfl).program, by decide⟩

/-- A number that is spelled `abc`.  No program starts with it, and no fault is reported: reading
ends there. -/
theorem parse_misread_number :
    let abc : Token := ⟨.number, "abc", 0⟩
    let eof : Token := ⟨.eof, "", 0⟩
    (∀ trees, ¬ Program [abc] trees) ∧ parse [abc, eof] = .error (.misread abc) ∧
      misreadMessage abc = "could not convert string to float: 'abc'" ∧
      ¬ ∃ blames, parse [abc, eof] = .error (.faults blames) := by
  intro abc eof
  have hparse : parse [abc, eof] = .error (.misread abc) := by
    subst abc eof
    rfl
  have hnumber : ¬ abc.Converts := by
    subst abc
    decide
  have hmessage : misreadMessage abc = "could not convert string to float: 'abc'" := by
    subst abc
    decide +kernel
  refine ⟨fun trees hprogram => ?_, hparse, hmessage, ?_⟩
  · exact hnumber (hprogram.converts abc (List.mem_singleton_self abc))
  · rw [hparse]
    rintro ⟨blames, h⟩
    cases h

end RoxLang.Descent
