/-
# `RoxLang.Proofs.Descent.Program` — the descent accepts the programs of the grammar

The reader of statements records failures and goes on, so what it accepts is what it reads without
recording any.  As for expressions there are two directions: an attempt without failures has read a
derived declaration, and a derived declaration is read without failures.  The loop over declarations
then carries both from one declaration to a program, and the nesting of blocks is the nesting of the
two statements in each other.

`parse_ok_iff` is the result: on a list that ends with an end token, the reader gives `trees`
exactly when the tokens before the first end token derive `trees` and the levels suffice.  It
does not depend on the levels that a token list has at most one such tree, because of two trees
there is always a number of levels that suffices for both (`program_unique`).
-/
import RoxLang.Proofs.Descent.Expression
import RoxLang.Descent.Program

namespace RoxLang.Descent

open Grammar RoxLang.Tree

/-! ## Statements without blocks -/

theorem readTerminated_sound {n : Nat} {reason : Reason} {ts rest : List Token} {e : Tree}
    (h : readTerminated n reason ts = .ok (e, rest)) :
    ∃ us semicolon, ts = us ++ semicolon :: rest ∧ semicolon.kind = .mark .semicolon ∧
      Derives .assignment us e ∧ levelsFrom .assignment e ≤ n := by
  obtain ⟨⟨value, after⟩, hv, hgo⟩ := ok_of_bind h
  obtain ⟨⟨semicolon, after'⟩, hs, hgo⟩ := ok_of_bind hgo
  cases hgo
  obtain ⟨rfl, hkind⟩ := expect_eq_ok hs
  obtain ⟨us, rfl, hd, hl⟩ := readWithin_sound _ hv
  exact ⟨us, semicolon, rfl, hkind, hd, hl⟩

theorem readTerminated_of_derives {n : Nat} {us : List Token} {e : Tree} {semicolon : Token}
    (h : Derives .assignment us e) (hn : levelsFrom .assignment e ≤ n)
    (hs : semicolon.kind = .mark .semicolon) (reason : Reason) (rest : List Token) :
    readTerminated n reason (us ++ semicolon :: rest) = .ok (e, rest) := by
  have hends : Ends .assignment (semicolon :: rest) :=
    ends_of_joint?_eq_none _ (by rw [hs]; rfl) rest
  simp only [readTerminated, readWithin_of_derives h hn hends, ok_bind, expect_cons hs]

/-- A reading of a statement took the tokens of a declaration. -/
def TakenStatement (levels : Nat) (ts : List Token) (t : Tree) (rest : List Token) : Prop :=
  ∃ us, ts = us ++ rest ∧ Declaration us t ∧ t.ownLevels ≤ levels

theorem readDeclaration_sound {n : Nat} {var : Token} {ts rest : List Token} {t : Tree}
    (hvar : var.kind = .word .var) (h : readDeclaration n ts = .ok (t, rest)) :
    TakenStatement (n + 1) (var :: ts) t rest := by
  obtain ⟨⟨name, after⟩, hname, hgo⟩ := ok_of_bind h
  obtain ⟨rfl, hkind⟩ := expect_eq_ok hname
  match after with
  | [] => cases hgo
  | u :: after =>
      by_cases hu : u.kind = .mark .equal
      · simp only [hu, if_true] at hgo
        obtain ⟨⟨value, rest⟩, hv, hgo⟩ := ok_of_bind hgo
        cases hgo
        obtain ⟨us, semicolon, rfl, hs, hd, hl⟩ := readTerminated_sound hv
        exact ⟨var :: name :: u :: (us ++ [semicolon]), by simp, .define hvar hkind hu hd hs,
          Nat.succ_le_succ hl⟩
      · simp only [hu, if_false] at hgo
        obtain ⟨⟨semicolon, rest⟩, hs, hgo⟩ := ok_of_bind hgo
        cases hgo
        obtain ⟨he, hu⟩ := expect_eq_ok hs
        cases he
        exact ⟨[var, name, u], rfl, .declare hvar hkind hu, Nat.le_add_left 1 n⟩

theorem readPrint_sound {n : Nat} {print : Token} {ts rest : List Token} {t : Tree}
    (hprint : print.kind = .word .print) (h : readPrint n ts = .ok (t, rest)) :
    TakenStatement (n + 1) (print :: ts) t rest := by
  obtain ⟨⟨value, after⟩, hv, hgo⟩ := ok_of_bind h
  cases hgo
  obtain ⟨us, semicolon, rfl, hs, hd, hl⟩ := readTerminated_sound hv
  exact ⟨print :: (us ++ [semicolon]), by simp, .print hprint hd hs, Nat.succ_le_succ hl⟩

theorem readDiscard_sound {n : Nat} {ts rest : List Token} {t : Tree}
    (h : readDiscard n ts = .ok (t, rest)) : TakenStatement (n + 1) ts t rest := by
  obtain ⟨⟨value, after⟩, hv, hgo⟩ := ok_of_bind h
  cases hgo
  obtain ⟨us, semicolon, rfl, hs, hd, hl⟩ := readTerminated_sound hv
  exact ⟨us ++ [semicolon], by simp, .discard hd hs, Nat.succ_le_succ hl⟩

/-! ## What is read without failures is derived -/

theorem close_ok {recorded : List Failure} {reading : Except Failure (Tree × List Token)}
    (h : (Attempt.close recorded reading).failures = []) :
    recorded = [] ∧ ∃ t rest, reading = .ok (t, rest) := by
  cases reading with
  | ok r => exact ⟨h, r.1, r.2, rfl⟩
  | error f => exact absurd h (by simp [Attempt.close])

theorem close_failures {r : Except Failure (Tree × List Token)} {f : Failure} {fs : List Failure}
    (h : (Attempt.close [] r).failures = f :: fs) : r = .error f := by
  cases r with
  | ok r => cases h
  | error g =>
      cases h
      rfl

/-- What an attempt without failures has done. -/
def Sound (levels : Nat) (attempt : List Token → Attempt) : Prop :=
  ∀ ts, (attempt ts).failures = [] →
    ∃ t, (attempt ts).tree? = some t ∧ TakenStatement levels ts t (attempt ts).rest

theorem attemptAll_sound {levels : Nat} {attempt : List Token → Attempt} {stop : Token → Bool}
    (one : Sound levels attempt) : ∀ {n : Nat} {ts : List Token},
      (attemptAll attempt stop n ts).failures = [] → ts.length ≤ n →
      ∃ us, ts = us ++ (attemptAll attempt stop n ts).rest ∧
        Program us (attemptAll attempt stop n ts).trees ∧
        levelsOfProgram (attemptAll attempt stop n ts).trees ≤ levels ∧
        ∀ t ∈ (attemptAll attempt stop n ts).rest.head?, stop t = true
  | 0, [], _, _ | _ + 1, [], _, _ => ⟨[], rfl, .nil, Nat.zero_le _, nofun⟩
  | n + 1, t :: ts, h, hn => by
      by_cases ht : stop t = true
      · simp only [attemptAll, ht, if_true]
        exact ⟨[], rfl, .nil, Nat.zero_le _, fun u hu => by cases hu; exact ht⟩
      · simp only [attemptAll, ht, Bool.false_eq_true, if_false] at h ⊢
        obtain ⟨hone, hothers⟩ := List.append_eq_nil_iff.mp h
        obtain ⟨tree, htree, us, hts, hd, hl⟩ := one _ hone
        have hlen : (attempt (t :: ts)).rest.length ≤ n := by
          obtain ⟨u, us', rfl, _⟩ := hd.start
          have := congrArg List.length hts
          simp only [List.length_cons, List.length_append] at this hn
          omega
        obtain ⟨vs, hvs, hp, hpl, hstop⟩ := attemptAll_sound one hothers hlen
        refine ⟨us ++ vs, ?_, ?_, ?_, hstop⟩
        · rw [List.append_assoc, ← hvs]
          exact hts
        · rw [htree]
          exact .cons hd hp
        · rw [htree]
          exact Nat.max_le.mpr ⟨hl, hpl⟩

theorem readBlockEnd_sound {body : Attempts} {rest : List Token} {t : Tree}
    (h : readBlockEnd body = .ok (t, rest)) :
    ∃ r, r.kind = .mark .rightBrace ∧ body.rest = r :: rest ∧ t = .block body.trees := by
  obtain ⟨⟨r, after⟩, hr, hgo⟩ := ok_of_bind h
  cases hgo
  obtain ⟨hrest, hr⟩ := expect_eq_ok hr
  exact ⟨r, hr, hrest, rfl⟩

theorem attemptWithin_sound : ∀ n : Nat, Sound n (attemptWithin n) := by
  intro n
  induction n with
  | zero =>
      intro ts h
      cases h
  | succ n ih =>
      intro ts h
      match ts with
      | [] =>
          obtain ⟨_, t, rest, hr⟩ := close_ok h
          exact ⟨t, by simp only [attemptWithin, hr, Attempt.close],
            by simpa only [attemptWithin, hr, Attempt.close] using readDiscard_sound hr⟩
      | t :: ts =>
          simp only [attemptWithin] at h ⊢
          split at h
          · next hk =>
              obtain ⟨_, tree, rest, hr⟩ := close_ok h
              simp only [hr, Attempt.close]
              exact ⟨tree, rfl, readDeclaration_sound hk hr⟩
          · next hk =>
              obtain ⟨_, tree, rest, hr⟩ := close_ok h
              simp only [hr, Attempt.close]
              exact ⟨tree, rfl, readPrint_sound hk hr⟩
          · next hk =>
              obtain ⟨hbody, tree, rest, hr⟩ := close_ok h
              obtain ⟨us, hts, hp, hl, _⟩ := attemptAll_sound ih hbody (Nat.le_refl _)
              obtain ⟨r, hrk, hrest, rfl⟩ := readBlockEnd_sound hr
              simp only [hr, Attempt.close]
              refine ⟨_, rfl, t :: (us ++ [r]), ?_, .block hk hp hrk, Nat.succ_le_succ hl⟩
              rw [hrest] at hts
              simp [hts]
          · obtain ⟨_, tree, rest, hr⟩ := close_ok h
            simp only [hr, Attempt.close]
            exact ⟨tree, rfl, readDiscard_sound hr⟩

/-! ## What is derived is read without failures -/

theorem readDeclaration_declare {name semicolon : Token} (hname : name.kind = .identifier)
    (hs : semicolon.kind = .mark .semicolon) (n : Nat) (rest : List Token) :
    readDeclaration n (name :: semicolon :: rest) = .ok (.declare name, rest) := by
  have : semicolon.kind ≠ .mark .equal := by simp [hs]
  simp only [readDeclaration, expect_cons hname, ok_bind, this, if_false, expect_cons hs]

theorem readDeclaration_define {name equal semicolon : Token} {us : List Token} {e : Tree} {n : Nat}
    (hname : name.kind = .identifier) (hequal : equal.kind = .mark .equal)
    (h : Derives .assignment us e) (hn : levelsFrom .assignment e ≤ n)
    (hs : semicolon.kind = .mark .semicolon) (rest : List Token) :
    readDeclaration n (name :: equal :: (us ++ semicolon :: rest))
      = .ok (.define name e, rest) := by
  simp only [readDeclaration, expect_cons hname, ok_bind, hequal, if_true,
    readTerminated_of_derives h hn hs]

/-- A statement that starts like an expression is read as one. -/
theorem attemptWithin_discard {t : Token} (ht : StartsOperand t) (n : Nat) (ts : List Token) :
    attemptWithin (n + 1) (t :: ts) = .close [] (readDiscard n (t :: ts)) := by
  obtain ⟨hvar, hprint, hbrace, _⟩ := ht.kind_ne
  simp only [attemptWithin]

mutual

theorem attemptWithin_of_declaration : ∀ {us : List Token} {t : Tree}, Declaration us t →
    ∀ {n : Nat} (rest : List Token), t.ownLevels ≤ n →
      attemptWithin n (us ++ rest) = ⟨[], some t, rest⟩
  | _, _, .declare hvar hname hs, n + 1, rest, _ => by
      simp only [List.cons_append, List.nil_append, attemptWithin, hvar,
        readDeclaration_declare hname hs, Attempt.close]
  | _, _, .define hvar hname hequal h hs, n + 1, rest, hn => by
      simp only [List.cons_append, List.append_assoc, List.nil_append, attemptWithin, hvar,
        readDeclaration_define hname hequal h (Nat.le_of_succ_le_succ hn) hs, Attempt.close]
  | _, _, .print hprint h hs, n + 1, rest, hn => by
      simp only [List.cons_append, List.append_assoc, List.nil_append, attemptWithin, hprint,
        readPrint, readTerminated_of_derives h (Nat.le_of_succ_le_succ hn) hs, ok_bind,
        Attempt.close]
  | _, _, @Declaration.block l r us body hl h hr, n + 1, rest, hn => by
      have hbody : attemptAll (attemptWithin n) closesBlock (us ++ r :: rest).length
          (us ++ r :: rest) = ⟨[], body, r :: rest⟩ :=
        attemptAll_of_program h (r :: rest) (Nat.le_of_succ_le_succ hn) (Nat.le_refl _)
          (fun t ht => by simp [closesBlock, ht]) (fun t ht => by cases ht; simp [closesBlock, hr])
      simp only [List.cons_append, List.append_assoc, List.nil_append, attemptWithin, hl, hbody,
        readBlockEnd, expect_cons hr, ok_bind, Attempt.close]
  | _, _, @Declaration.discard semicolon us e h hs, n + 1, rest, hn => by
      have hread := readTerminated_of_derives h (Nat.le_of_succ_le_succ hn) hs .expressionEnd rest
      obtain ⟨t, us, rfl, ht⟩ := h.start
      simp only [List.cons_append, List.append_assoc, List.nil_append] at hread ⊢
      simp only [attemptWithin_discard ht, readDiscard, hread, ok_bind, Attempt.close]
  | _, t, _, 0, _, hn => absurd hn (by have := one_le_ownLevels t; omega)

theorem attemptAll_of_program : ∀ {us : List Token} {trees : List Tree}, Program us trees →
    ∀ {n steps : Nat} {stop : Token → Bool} (rest : List Token), levelsOfProgram trees ≤ n →
      (us ++ rest).length ≤ steps → (∀ t, t.kind ≠ .mark .rightBrace → stop t = false) →
      (∀ t ∈ rest.head?, stop t = true) →
      attemptAll (attemptWithin n) stop steps (us ++ rest) = ⟨[], trees, rest⟩
  | _, _, .nil, n, steps, stop, rest, _, _, _, hrest => by
      match steps, rest with
      | 0, [] | _ + 1, [] => rfl
      | 0, _ :: _ => rfl
      | _ + 1, t :: rest =>
          simp only [List.nil_append, attemptAll, hrest t rfl, if_true]
  | _, _, @Program.cons ts us t trees hd hp, n, steps, stop, rest, hn, hsteps, hstop, hrest => by
      obtain ⟨hd', hp'⟩ := Nat.max_le.mp hn
      have hone := attemptWithin_of_declaration hd (us ++ rest) hd'
      obtain ⟨u, us', rfl, hu⟩ := hd.start
      simp only [List.cons_append, List.append_assoc, List.length_cons, List.length_append]
        at hone hsteps ⊢
      obtain ⟨steps, rfl⟩ : ∃ m, steps = m + 1 := ⟨steps - 1, by omega⟩
      have hothers := attemptAll_of_program hp rest hp'
        (by simp only [List.length_append]; omega : (us ++ rest).length ≤ steps) hstop hrest
      simp only [attemptAll, hstop u hu, Bool.false_eq_true, if_false, hone, hothers,
        List.nil_append, Option.toList_some, List.cons_append]

end

/-! ## Whole programs -/

/-- What a whole program is read as, within so many levels. -/
def attemptBody (n : Nat) (body : List Token) : Attempts :=
  attemptAll (attemptWithin n) (fun _ => false) body.length body

theorem attemptBody_of_program {n : Nat} {body : List Token} {trees : List Tree}
    (h : Program body trees) (hn : levelsOfProgram trees ≤ n) :
    attemptBody n body = ⟨[], trees, []⟩ := by
  have := @attemptAll_of_program _ _ h _ _ (fun _ => false) [] hn
    (Nat.le_of_eq (by rw [List.append_nil])) (fun _ _ => rfl) nofun
  rwa [List.append_nil] at this

theorem attemptBody_sound {n : Nat} {body : List Token} (h : (attemptBody n body).failures = []) :
    Program body (attemptBody n body).trees ∧
      levelsOfProgram (attemptBody n body).trees ≤ n := by
  obtain ⟨us, hbody, hp, hl, hstop⟩ := attemptAll_sound (attemptWithin_sound n) h (Nat.le_refl _)
  have hrest : (attemptBody n body).rest = [] := by
    cases hr : (attemptBody n body).rest with
    | nil => rfl
    | cons t ts =>
        have := hstop t (by show t ∈ (attemptBody n body).rest.head?; rw [hr]; rfl)
        cases this
  rw [show (attemptAll _ _ _ body).rest = [] from hrest, List.append_nil] at hbody
  subst hbody
  exact ⟨hp, hl⟩

/-- A list of tokens derives at most one program. -/
theorem program_unique {body : List Token} {as bs : List Tree} (ha : Program body as)
    (hb : Program body bs) : as = bs := by
  have h := (attemptBody_of_program ha (Nat.le_max_left (levelsOfProgram as) (levelsOfProgram bs)))
  rw [attemptBody_of_program hb (Nat.le_max_right _ _)] at h
  exact (congrArg Attempts.trees h).symm

/-- The tokens before the first end token. -/
def bodyOf (ts : List Token) : List Token := ts.takeWhile (!·.isEof)

theorem splitAtEof_append {eof : Token} (h : eof.kind = .eof) (before : List Token) :
    ∃ first, splitAtEof (before ++ [eof]) = some (bodyOf (before ++ [eof]), first) := by
  have heof : eof.isEof = true := by simp [Token.isEof, h]
  obtain ⟨first, hfirst⟩ : ∃ first, (before ++ [eof]).find? Token.isEof = some first :=
    Option.isSome_iff_exists.mp (List.find?_isSome.mpr ⟨eof, by simp, heof⟩)
  refine ⟨first, ?_⟩
  simp only [splitAtEof, List.getLast?_append, List.getLast?_singleton, Option.some_or, hfirst,
    heof, if_true]
  rfl

theorem Attempts.result_eq_ok_iff {a : Attempts} {body : List Token} {eof : Token}
    {trees : List Tree} : a.result body eof = .ok trees ↔ a.failures = [] ∧ a.trees = trees := by
  obtain ⟨failures, trees', rest⟩ := a
  constructor
  · intro h
    unfold result at h
    split at h
    · cases h
    · cases failures with
      | nil => exact ⟨rfl, Except.ok.inj h⟩
      | cons f fs => cases h
  · rintro ⟨rfl, rfl⟩
    rfl

theorem parse_ok_iff {eof : Token} (h : eof.kind = .eof) (before : List Token)
    (trees : List Tree) : parse (before ++ [eof]) = .ok trees ↔
      Program (bodyOf (before ++ [eof])) trees ∧ levelsOfProgram trees ≤ levelLimit := by
  obtain ⟨first, hsplit⟩ := splitAtEof_append h before
  simp only [parse, hsplit]
  rw [Attempts.result_eq_ok_iff]
  constructor
  · rintro ⟨hfailures, rfl⟩
    exact attemptBody_sound hfailures
  · rintro ⟨hp, hl⟩
    have hbody : attemptProgram (bodyOf (before ++ [eof])) = ⟨[], trees, []⟩ :=
      attemptBody_of_program hp hl
    rw [hbody]
    exact ⟨rfl, rfl⟩

end RoxLang.Descent
