/-
# `RoxLang.Proofs.Grammar.Kinds` — a derivation looks at the kinds of tokens only

Tokens of the same kinds are derived by the same rules, if their numbers can be read.  Their trees
are not the same, since a tree keeps tokens and what literals hold, but they are twins: each token
of the one tree, and each number and string, is taken from the same place as its counterpart in the
other.  And they nest alike: at each node the same rule is the tightest one, and it takes the same
levels to come there.  So whatever the descent takes of some tokens, it takes of all tokens of the
same kinds.
-/
import RoxLang.Proofs.Descent.Levels

namespace RoxLang

/-! ## Tokens of the same kinds -/

/-- Tokens of the same kinds, one after another. -/
def SameKinds (ts us : List Token) : Prop := ts.map Token.kind = us.map Token.kind

/-- The next tokens are of the same kind, or there is none in either place. -/
def SameNext (ts us : List Token) : Prop := ts.head?.map Token.kind = us.head?.map Token.kind

namespace SameKinds

variable {t u : Token} {ts us vs : List Token}

theorem eq_nil (h : SameKinds [] us) : us = [] := List.map_eq_nil_iff.mp h.symm

theorem exists_cons (h : SameKinds (t :: ts) us) :
    ∃ u us', us = u :: us' ∧ u.kind = t.kind ∧ SameKinds ts us' := by
  obtain ⟨u, us', rfl, hkind, hkinds⟩ := List.map_eq_cons_iff.mp h.symm
  exact ⟨u, us', rfl, hkind, hkinds.symm⟩

theorem exists_singleton (h : SameKinds [t] us) : ∃ u, us = [u] ∧ u.kind = t.kind := by
  obtain ⟨u, us, rfl, hkind, hkinds⟩ := h.exists_cons
  obtain rfl := hkinds.eq_nil
  exact ⟨u, rfl, hkind⟩

theorem exists_append (h : SameKinds (ts ++ us) vs) :
    ∃ ts' us', vs = ts' ++ us' ∧ SameKinds ts ts' ∧ SameKinds us us' := by
  have hmap : vs.map Token.kind = ts.map Token.kind ++ us.map Token.kind := by
    rw [← List.map_append]
    exact h.symm
  obtain ⟨ts', us', rfl, hts, hus⟩ := List.map_eq_append_iff.mp hmap
  exact ⟨ts', us', rfl, hts.symm, hus.symm⟩

theorem next (h : SameKinds ts us) : SameNext ts us := by
  have hheads := congrArg List.head? h
  rwa [List.head?_map, List.head?_map] at hheads

/-- What comes next is the same if it is the same behind tokens of the same kinds. -/
theorem next_append {ts' us' : List Token} (h : SameKinds ts us) (h' : SameNext ts' us') :
    SameNext (ts ++ ts') (us ++ us') := by
  cases ts with
  | nil =>
      obtain rfl := h.eq_nil
      exact h'
  | cons t ts =>
      obtain ⟨u, us, rfl, hkind, -⟩ := h.exists_cons
      exact congrArg some hkind.symm

end SameKinds

/-- Tokens that can stand in the place of others: their kinds are the same, and their numbers can be
read. -/
structure StandIn (ts us : List Token) : Prop where
  kinds : SameKinds ts us
  converts : Converts us

namespace StandIn

variable {t : Token} {ts us vs : List Token}

theorem length_eq (h : StandIn ts us) : ts.length = us.length := by
  simpa using congrArg List.length h.kinds

theorem eq_nil (h : StandIn [] us) : us = [] := h.kinds.eq_nil

theorem exists_cons (h : StandIn (t :: ts) us) :
    ∃ u us', us = u :: us' ∧ u.kind = t.kind ∧ StandIn ts us' := by
  obtain ⟨u, us', rfl, hkind, hkinds⟩ := h.kinds.exists_cons
  exact ⟨u, us', rfl, hkind, hkinds, (List.forall_mem_cons.mp h.converts).2⟩

theorem exists_singleton (h : StandIn [t] us) : ∃ u, us = [u] ∧ u.kind = t.kind :=
  h.kinds.exists_singleton

theorem exists_append (h : StandIn (ts ++ us) vs) :
    ∃ ts' us', vs = ts' ++ us' ∧ StandIn ts ts' ∧ StandIn us us' := by
  obtain ⟨ts', us', rfl, hts, hus⟩ := h.kinds.exists_append
  obtain ⟨hts', hus'⟩ := List.forall_mem_append.mp h.converts
  exact ⟨ts', us', rfl, ⟨hts, hts'⟩, ⟨hus, hus'⟩⟩

end StandIn

namespace SameNext

variable {t : Token} {ts us : List Token}

theorem eq_nil (h : SameNext [] us) : us = [] := by
  cases us with
  | nil => rfl
  | cons u us => cases h

theorem exists_cons (h : SameNext (t :: ts) us) : ∃ u us', us = u :: us' ∧ u.kind = t.kind := by
  cases us with
  | nil => cases h
  | cons u us => exact ⟨u, us, rfl, (Option.some.inj h).symm⟩

end SameNext

/-! ## Trees that nest alike -/

namespace Tree

/-- Whether an expression is a name alone. -/
def isName : Tree → Bool
  | .reference _ => true
  | _ => false

theorem isName_eq_true {e : Tree} : e.isName = true ↔ ∃ name, e = .reference name := by
  cases e with
  | reference name => exact ⟨fun _ => ⟨name, rfl⟩, fun _ => rfl⟩
  | _ =>
      constructor
      · intro h
        cases h
      · rintro ⟨name, h⟩
        cases h

/-- Trees that take the same levels from the same rule on, and are names alone together. -/
structure SameNesting (e e' : Tree) : Prop where
  rank : e'.ownRank = e.ownRank
  levels : e'.ownLevels = e.ownLevels
  name : e'.isName = e.isName

theorem SameNesting.literal (v w : Value) : SameNesting (.literal v) (.literal w) :=
  ⟨rfl, rfl, rfl⟩

theorem SameNesting.levelsFrom {e e' : Tree} (h : SameNesting e e') (rule : Descent.Rule) :
    e'.levelsFrom rule = e.levelsFrom rule := by
  rw [Tree.levelsFrom, Tree.levelsFrom, h.rank, h.levels]

end Tree

/-! ## Twins -/

namespace Grammar

mutual

/-- Two trees that are spelled by tokens at the same places of two lists.  The pairs are those
places in their order, and each of them is used up: by an operand, by an operator or a name that
both trees keep, or by a mark or word that neither does. -/
inductive Twins : List (Token × Token) → Tree → Tree → Prop
  | atom {p : Token × Token} {e e' : Tree} : Atom p.1 e → Atom p.2 e' → Twins [p] e e'
  | unary {op : Token × Token} {ps : List (Token × Token)} {e e' : Tree} : Twins ps e e' →
      Twins (op :: ps) (.unary op.1 e) (.unary op.2 e')
  | binary {op : Token × Token} {ps qs : List (Token × Token)} {l l' r r' : Tree} :
      Twins ps l l' → Twins qs r r' →
      Twins (ps ++ op :: qs) (.binary l op.1 r) (.binary l' op.2 r')
  | grouping {left right : Token × Token} {ps : List (Token × Token)} {e e' : Tree} :
      Twins ps e e' → Twins (left :: (ps ++ [right])) (.grouping e) (.grouping e')
  | assign {name equal : Token × Token} {ps : List (Token × Token)} {e e' : Tree} :
      Twins ps e e' → Twins (name :: equal :: ps) (.assign name.1 e) (.assign name.2 e')
  | discard {semicolon : Token × Token} {ps : List (Token × Token)} {e e' : Tree} :
      Twins ps e e' → Twins (ps ++ [semicolon]) (.discard e) (.discard e')
  | print {print semicolon : Token × Token} {ps : List (Token × Token)} {e e' : Tree} :
      Twins ps e e' → Twins (print :: (ps ++ [semicolon])) (.print e) (.print e')
  | declare {var name semicolon : Token × Token} :
      Twins [var, name, semicolon] (.declare name.1) (.declare name.2)
  | define {var name equal semicolon : Token × Token} {ps : List (Token × Token)} {e e' : Tree} :
      Twins ps e e' → Twins (var :: name :: equal :: (ps ++ [semicolon]))
        (.define name.1 e) (.define name.2 e')
  | block {left right : Token × Token} {ps : List (Token × Token)} {ts ts' : List Tree} :
      TwinPrograms ps ts ts' → Twins (left :: (ps ++ [right])) (.block ts) (.block ts')

/-- The statements of two programs, twins one by one. -/
inductive TwinPrograms : List (Token × Token) → List Tree → List Tree → Prop
  | nil : TwinPrograms [] [] []
  | cons {ps qs : List (Token × Token)} {t t' : Tree} {ts ts' : List Tree} : Twins ps t t' →
      TwinPrograms qs ts ts' → TwinPrograms (ps ++ qs) (t :: ts) (t' :: ts')

end

/-! ## Derivations -/

open Descent (Rule)
open RoxLang.Tree (SameNesting levelsOfProgram)

theorem Atom.ofKind {t u : Token} {e : Tree} (h : Atom t e) (hkind : u.kind = t.kind)
    (hconverts : u.Converts) : ∃ e', Atom u e' ∧ SameNesting e e' := by
  cases h with
  | false_ h => exact ⟨_, .false_ (hkind.trans h), .literal _ _⟩
  | true_ h => exact ⟨_, .true_ (hkind.trans h), .literal _ _⟩
  | nil h => exact ⟨_, .nil (hkind.trans h), .literal _ _⟩
  | number h _ =>
      have hnumber := hkind.trans h
      obtain ⟨x, hx⟩ := Option.isSome_iff_exists.mp (hconverts hnumber)
      exact ⟨_, .number hnumber hx, .literal _ _⟩
  | string h => exact ⟨_, .string (hkind.trans h), .literal _ _⟩
  | name h => exact ⟨_, .name (hkind.trans h), rfl, rfl, rfl⟩

theorem Derives.ofKinds {rule : Rule} {ts us : List Token} {e : Tree} (h : Derives rule ts e)
    (hus : StandIn ts us) :
    ∃ e', Derives rule us e' ∧ SameNesting e e' ∧ Twins (ts.zip us) e e' := by
  induction h generalizing us with
  | assign hname hequal _ ih =>
      obtain ⟨name, _, rfl, hname', hus⟩ := hus.exists_cons
      obtain ⟨equal, us, rfl, hequal', hus⟩ := hus.exists_cons
      obtain ⟨e', hd, he, htwins⟩ := ih hus
      refine ⟨.assign name e', .assign (hname'.trans hname) (hequal'.trans hequal) hd,
        ⟨rfl, ?_, rfl⟩, htwins.assign⟩
      simp only [Tree.ownLevels, he.rank, he.levels]
  | equality _ ih =>
      obtain ⟨e', hd, he⟩ := ih hus
      exact ⟨e', .equality hd, he⟩
  | operand _ ih =>
      obtain ⟨e', hd, he⟩ := ih hus
      exact ⟨e', .operand hd, he⟩
  | @step tier op _ _ l r _ hop _ ihl ihr =>
      obtain ⟨us, _, rfl, hleft, hus⟩ := hus.exists_append
      obtain ⟨op', vs, rfl, hop', hright⟩ := hus.exists_cons
      obtain ⟨l', hl, hl', hltwins⟩ := ihl hleft
      obtain ⟨r', hr, hr', hrtwins⟩ := ihr hright
      have hrank : (Tree.binary l' op' r').ownRank = (Tree.binary l op r).ownRank := by
        simp only [Tree.ownRank, hop']
      refine ⟨.binary l' op' r', .step hl (hop' ▸ hop) hr, ⟨hrank, ?_, rfl⟩, ?_⟩
      · simp only [Tree.ownLevels, hrank, hl'.rank, hl'.levels, hr'.rank, hr'.levels]
      · rw [List.zip_append hleft.length_eq]
        exact hltwins.binary hrtwins
  | sign hop _ ih =>
      obtain ⟨op', us, rfl, hop', hus⟩ := hus.exists_cons
      obtain ⟨e', hd, he, htwins⟩ := ih hus
      refine ⟨.unary op' e', .sign (hop' ▸ hop) hd, ⟨rfl, ?_, rfl⟩, htwins.unary⟩
      simp only [Tree.ownLevels, he.rank, he.levels]
  | primary _ ih =>
      obtain ⟨e', hd, he⟩ := ih hus
      exact ⟨e', .primary hd, he⟩
  | atom h =>
      obtain ⟨u, rfl, hkind⟩ := hus.exists_singleton
      obtain ⟨e', ha, he⟩ := h.ofKind hkind (List.forall_mem_singleton.mp hus.converts)
      exact ⟨e', .atom ha, he, .atom h ha⟩
  | group hl hr _ ih =>
      obtain ⟨l', _, rfl, hl', hus⟩ := hus.exists_cons
      obtain ⟨us, _, rfl, hinner, hus⟩ := hus.exists_append
      obtain ⟨r', rfl, hr'⟩ := hus.exists_singleton
      obtain ⟨e', hd, he, htwins⟩ := ih hinner
      refine ⟨.grouping e', .group (hl'.trans hl) (hr'.trans hr) hd, ⟨rfl, ?_, rfl⟩, ?_⟩
      · simp only [Tree.ownLevels, he.rank, he.levels]
      · rw [List.zip_cons_cons, List.zip_append hinner.length_eq]
        exact htwins.grouping

mutual

theorem Declaration.ofKinds : ∀ {ts us : List Token} {t : Tree}, Declaration ts t →
    StandIn ts us → ∃ t', Declaration us t' ∧ t'.ownLevels = t.ownLevels ∧ Twins (ts.zip us) t t'
  | _, us, _, .declare hvar hname hsemicolon, hus => by
      obtain ⟨var, _, rfl, hvar', hus⟩ := hus.exists_cons
      obtain ⟨name, _, rfl, hname', hus⟩ := hus.exists_cons
      obtain ⟨semicolon, rfl, hsemicolon'⟩ := hus.exists_singleton
      exact ⟨_, .declare (hvar'.trans hvar) (hname'.trans hname) (hsemicolon'.trans hsemicolon),
        rfl, .declare⟩
  | _, us, _, .define hvar hname hequal he hsemicolon, hus => by
      obtain ⟨var, _, rfl, hvar', hus⟩ := hus.exists_cons
      obtain ⟨name, _, rfl, hname', hus⟩ := hus.exists_cons
      obtain ⟨equal, _, rfl, hequal', hus⟩ := hus.exists_cons
      obtain ⟨value, _, rfl, hvalue, hus⟩ := hus.exists_append
      obtain ⟨semicolon, rfl, hsemicolon'⟩ := hus.exists_singleton
      obtain ⟨e', hd, he, htwins⟩ := he.ofKinds hvalue
      refine ⟨.define name e', .define (hvar'.trans hvar) (hname'.trans hname)
        (hequal'.trans hequal) hd (hsemicolon'.trans hsemicolon), ?_, ?_⟩
      · simp only [Tree.ownLevels, he.rank, he.levels]
      · simp only [List.zip_cons_cons, List.zip_append hvalue.length_eq]
        exact htwins.define
  | _, us, _, .print hprint he hsemicolon, hus => by
      obtain ⟨print, _, rfl, hprint', hus⟩ := hus.exists_cons
      obtain ⟨value, _, rfl, hvalue, hus⟩ := hus.exists_append
      obtain ⟨semicolon, rfl, hsemicolon'⟩ := hus.exists_singleton
      obtain ⟨e', hd, he, htwins⟩ := he.ofKinds hvalue
      refine ⟨.print e', .print (hprint'.trans hprint) hd (hsemicolon'.trans hsemicolon), ?_, ?_⟩
      · simp only [Tree.ownLevels, he.rank, he.levels]
      · rw [List.zip_cons_cons, List.zip_append hvalue.length_eq]
        exact htwins.print
  | _, us, _, .block hl hbody hr, hus => by
      obtain ⟨l, _, rfl, hl', hus⟩ := hus.exists_cons
      obtain ⟨inner, _, rfl, hinner, hus⟩ := hus.exists_append
      obtain ⟨r, rfl, hr'⟩ := hus.exists_singleton
      obtain ⟨body', hd, hlevels, htwins⟩ := hbody.ofKinds hinner
      refine ⟨.block body', .block (hl'.trans hl) hd (hr'.trans hr), ?_, ?_⟩
      · simp only [Tree.ownLevels, hlevels]
      · rw [List.zip_cons_cons, List.zip_append hinner.length_eq]
        exact .block htwins
  | _, us, _, .discard he hsemicolon, hus => by
      obtain ⟨value, _, rfl, hvalue, hus⟩ := hus.exists_append
      obtain ⟨semicolon, rfl, hsemicolon'⟩ := hus.exists_singleton
      obtain ⟨e', hd, he, htwins⟩ := he.ofKinds hvalue
      refine ⟨.discard e', .discard hd (hsemicolon'.trans hsemicolon), ?_, ?_⟩
      · simp only [Tree.ownLevels, he.rank, he.levels]
      · rw [List.zip_append hvalue.length_eq]
        exact htwins.discard

theorem Program.ofKinds : ∀ {ts us : List Token} {trees : List Tree}, Program ts trees →
    StandIn ts us → ∃ trees', Program us trees' ∧
      levelsOfProgram trees' = levelsOfProgram trees ∧ TwinPrograms (ts.zip us) trees trees'
  | _, _, _, .nil, hus => by
      obtain rfl := hus.eq_nil
      exact ⟨[], .nil, rfl, .nil⟩
  | _, _, _, .cons ht hts, hus => by
      obtain ⟨us, vs, rfl, hus, hvs⟩ := hus.exists_append
      obtain ⟨t', ht', hlevel, htwins⟩ := ht.ofKinds hus
      obtain ⟨trees', hts', hlevels, htwins'⟩ := hts.ofKinds hvs
      refine ⟨t' :: trees', .cons ht' hts', ?_, ?_⟩
      · simp only [levelsOfProgram, hlevel, hlevels]
      · rw [List.zip_append hus.length_eq]
        exact .cons htwins htwins'

end

/-! ## The tokens that rules have a place for

No rule has a place for an end token, nor for a number that cannot be read. -/

/-- An operand by itself, a mark or a word. -/
def Placed (t : Token) : Prop :=
  (∃ e, Atom t e) ∨ (∃ m, t.kind = .mark m) ∨ ∃ w, t.kind = .word w

section

variable {t : Token} {m : Mark} {w : Word} {tier : Tier} {e : Tree} {ts : List Token}

theorem placed_of_mark (h : t.kind = .mark m) : Placed t := .inr (.inl ⟨m, h⟩)

theorem placed_of_word (h : t.kind = .word w) : Placed t := .inr (.inr ⟨w, h⟩)

theorem placed_of_name (h : t.kind = .identifier) : Placed t := .inl ⟨_, .name h⟩

theorem Operator.placed (h : Operator tier t.kind) : Placed t := by
  generalize hkind : t.kind = kind at h
  cases h <;> exact placed_of_mark hkind

theorem Sign.placed (h : Sign t.kind) : Placed t := by
  generalize hkind : t.kind = kind at h
  cases h <;> exact placed_of_mark hkind

theorem Placed.kind_ne_eof (h : Placed t) : t.kind ≠ .eof := by
  rcases h with ⟨e, h⟩ | ⟨m, h⟩ | ⟨w, h⟩
  · cases h with
    | false_ h | true_ h | nil h | number h _ | string h | name h => rw [h]; nofun
  · rw [h]; nofun
  · rw [h]; nofun

theorem Placed.converts (h : Placed t) : t.Converts := by
  rcases h with ⟨e, h⟩ | ⟨m, h⟩ | ⟨w, h⟩
  · exact h.converts
  · exact Token.converts_of_ne (by simp [h])
  · exact Token.converts_of_ne (by simp [h])

end

theorem Derives.placed {rule : Rule} {ts : List Token} {e : Tree} (h : Derives rule ts e) :
    ∀ t ∈ ts, Placed t := by
  induction h with
  | assign hname hequal _ ih =>
      exact List.forall_mem_cons.mpr ⟨placed_of_name hname,
        List.forall_mem_cons.mpr ⟨placed_of_mark hequal, ih⟩⟩
  | equality _ ih | operand _ ih | primary _ ih => exact ih
  | step _ hop _ ihl ihr =>
      exact List.forall_mem_append.mpr ⟨ihl, List.forall_mem_cons.mpr ⟨hop.placed, ihr⟩⟩
  | sign hop _ ih => exact List.forall_mem_cons.mpr ⟨hop.placed, ih⟩
  | atom h => exact List.forall_mem_singleton.mpr (.inl ⟨_, h⟩)
  | group hl hr _ ih =>
      exact List.forall_mem_cons.mpr ⟨placed_of_mark hl,
        List.forall_mem_append.mpr ⟨ih, List.forall_mem_singleton.mpr (placed_of_mark hr)⟩⟩

mutual

theorem Declaration.placed : ∀ {ts : List Token} {t : Tree}, Declaration ts t →
    ∀ u ∈ ts, Placed u
  | _, _, .declare hvar hname hsemicolon =>
      List.forall_mem_cons.mpr ⟨placed_of_word hvar, List.forall_mem_cons.mpr
        ⟨placed_of_name hname, List.forall_mem_singleton.mpr (placed_of_mark hsemicolon)⟩⟩
  | _, _, .define hvar hname hequal he hsemicolon =>
      List.forall_mem_cons.mpr ⟨placed_of_word hvar, List.forall_mem_cons.mpr
        ⟨placed_of_name hname, List.forall_mem_cons.mpr ⟨placed_of_mark hequal,
          List.forall_mem_append.mpr
            ⟨he.placed, List.forall_mem_singleton.mpr (placed_of_mark hsemicolon)⟩⟩⟩⟩
  | _, _, .print hprint he hsemicolon =>
      List.forall_mem_cons.mpr ⟨placed_of_word hprint, List.forall_mem_append.mpr
        ⟨he.placed, List.forall_mem_singleton.mpr (placed_of_mark hsemicolon)⟩⟩
  | _, _, .block hl hbody hr =>
      List.forall_mem_cons.mpr ⟨placed_of_mark hl, List.forall_mem_append.mpr
        ⟨hbody.placed, List.forall_mem_singleton.mpr (placed_of_mark hr)⟩⟩
  | _, _, .discard he hsemicolon => List.forall_mem_append.mpr
      ⟨he.placed, List.forall_mem_singleton.mpr (placed_of_mark hsemicolon)⟩

theorem Program.placed : ∀ {ts : List Token} {trees : List Tree}, Program ts trees →
    ∀ u ∈ ts, Placed u
  | _, _, .nil => List.forall_mem_nil _
  | _, _, .cons ht hts => List.forall_mem_append.mpr ⟨ht.placed, hts.placed⟩

end

/-- The numbers of a derived program can be read. -/
theorem Program.converts {ts : List Token} {trees : List Tree} (h : Program ts trees) :
    Converts ts := fun t ht => (h.placed t ht).converts

/-- There is no end token among these. -/
def Endless (ts : List Token) : Prop := ∀ t ∈ ts, t.kind ≠ .eof

theorem endless_cons {t : Token} {ts : List Token} :
    Endless (t :: ts) ↔ t.kind ≠ .eof ∧ Endless ts := List.forall_mem_cons

theorem endless_append {ts us : List Token} : Endless (ts ++ us) ↔ Endless ts ∧ Endless us :=
  List.forall_mem_append

theorem endless_ofKinds {ts us : List Token} (hts : Endless ts) (h : SameKinds ts us) :
    Endless us := by
  intro u hu hkind
  have hmem : u.kind ∈ ts.map Token.kind := h.symm ▸ List.mem_map_of_mem hu
  obtain ⟨t, ht, htu⟩ := List.mem_map.mp hmem
  exact hts t ht (htu.trans hkind)

theorem Program.endless {ts : List Token} {trees : List Tree} (h : Program ts trees) :
    Endless ts := fun t ht => (h.placed t ht).kind_ne_eof

end Grammar

end RoxLang
