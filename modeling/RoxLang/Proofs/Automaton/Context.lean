/-
# `RoxLang.Proofs.Automaton.Context` — the machine behind a context of the grammar

Behind a context of a rule the machine waits for an operand, and its stack fits the rule: it does
not take at once what the rule derives.  At the start of a statement the machine has not yet chosen
what statement it is, but it does with an operand what it would do inside of an expression.

What the machine cannot take there or behind an operand is a matter of one token.  An `=` behind a
complete left side that is not a name is such a token, wherever it stands.
-/
import RoxLang.Proofs.Automaton.Completeness
import RoxLang.Proofs.Descent.Expression
import RoxLang.Proofs.Grammar.Context

namespace RoxLang.Automaton.Config

open Grammar
open Descent (Rule joint?)

/-! ## Stacks that fit a rule -/

/-- On such a stack, what the rule derives stays an operand of its own. -/
def Fits : Rule → List Frame → Prop
  | .assignment, stack => startsExpression stack = true
  | .chain tier, stack => Awaits tier.rank stack
  | .unary, _ | .primary, _ => True

theorem Fits.equality {stack : List Frame} (h : Fits .assignment stack) :
    Fits (.chain .equality) stack := awaits_of_startsExpression h

theorem Fits.operand {tier : Tier} {stack : List Frame} (h : Fits (.chain tier) stack) :
    Fits (.operandOf tier) stack := by
  have hlooser : Awaits tier.rank stack := h
  cases tier with
  | factor => trivial
  | equality | comparison | term => exact hlooser.mono (Nat.le_succ _)

theorem fits_left (tier : Tier) (l : Tree) (op : Token) (stack : List Frame) :
    Fits (.operandOf tier) (.left tier l op :: stack) := by
  cases tier with
  | factor => trivial
  | equality | comparison | term => exact Nat.lt_succ_self _

/-! ## The machine behind a context -/

theorem steps?_of_opened {ts : List Token} (h : Opened ts) :
    ∃ outer done, start.steps? ts = some ⟨outer, done, .between⟩ := by
  induction h with
  | start => exact ⟨[], [], rfl⟩
  | declared _ hd ih =>
      obtain ⟨outer, done, hrun⟩ := ih
      exact ⟨_, _, (steps?_trans hrun _).trans (steps?_of_declaration hd outer done)⟩
  | @block l _ _ hl ih =>
      obtain ⟨outer, done, hrun⟩ := ih
      refine ⟨done :: outer, [], ?_⟩
      rw [steps?_trans hrun, steps?_singleton]
      simp only [step?, startStep?, hl]

/-- What the machine does behind `ts` with tokens that start an operand. -/
def GoesOn (ts : List Token) (c : Config) : Prop :=
  ∀ (t : Token) (us : List Token), StartsOperand t →
    start.steps? (ts ++ t :: us) = c.steps? (t :: us)

theorem goesOn_of_steps? {ts : List Token} {c : Config} (h : start.steps? ts = some c) :
    GoesOn ts c := fun t us _ => steps?_trans h (t :: us)

theorem GoesOn.steps? {ts us : List Token} {c : Config} (h : GoesOn ts c) {rule : Rule} {e : Tree}
    (hd : Derives rule us e) (vs : List Token) :
    start.steps? (ts ++ (us ++ vs)) = c.steps? (us ++ vs) := by
  obtain ⟨t, us, rfl, ht⟩ := hd.start
  exact h t (us ++ vs) ht

/-- Tokens that the machine takes lead on to where it goes on with what follows. -/
theorem GoesOn.step {ts : List Token} {t : Token} {us : List Token} {c c' : Config}
    (h : GoesOn ts c) (ht : StartsOperand t) (hrun : c.steps? (t :: us) = some c') :
    GoesOn (ts ++ t :: us) c' := by
  refine goesOn_of_steps? ?_
  rw [h t us ht]
  exact hrun

/-- Behind a context of a rule the machine waits for an operand on a stack that fits the rule. -/
theorem goesOn_of_awaited {rule : Rule} {ts : List Token} (h : Awaited rule ts) :
    ∃ (c : Config) (head : Head) (stack : List Frame), Fits rule stack ∧
      GoesOn ts (c.inPhase (.operand head stack)) := by
  induction h with
  | discard h =>
      obtain ⟨outer, done, hrun⟩ := steps?_of_opened h
      refine ⟨⟨outer, done, .between⟩, .discard, [], rfl, fun t us ht => ?_⟩
      have hstep := step?_between ht ⟨outer, done, .between⟩
      rw [steps?_trans hrun, steps?_cons, steps?_cons, ← hstep]
      rfl
  | @print print _ h hprint =>
      obtain ⟨outer, done, hrun⟩ := steps?_of_opened h
      refine ⟨⟨outer, done, .between⟩, .print, [], rfl, goesOn_of_steps? ?_⟩
      rw [steps?_trans hrun, steps?_singleton]
      simp only [step?, startStep?, hprint]
  | @define var name equal _ h hvar hname hequal =>
      obtain ⟨outer, done, hrun⟩ := steps?_of_opened h
      refine ⟨⟨outer, done, .between⟩, .define name, [], rfl, goesOn_of_steps? ?_⟩
      rw [steps?_trans hrun]
      simp only [steps?_cons, steps?_nil, step?, startStep?, inPhase, hvar, Option.bind_some, hname,
        if_true, hequal]
  | @value name equal _ _ hname hequal ih =>
      obtain ⟨c, head, stack, hfits, hgo⟩ := ih
      have htarget := steps?_target hname hequal c head hfits
      exact ⟨c, head, .target name :: stack, rfl, hgo.step (.inl ⟨_, .name hname⟩) htarget⟩
  | equality _ ih =>
      obtain ⟨c, head, stack, hfits, hgo⟩ := ih
      exact ⟨c, head, stack, hfits.equality, hgo⟩
  | operand _ ih =>
      obtain ⟨c, head, stack, hfits, hgo⟩ := ih
      exact ⟨c, head, stack, hfits.operand, hgo⟩
  | @step tier op _ us l _ hd hop ih =>
      obtain ⟨c, head, stack, hfits, hgo⟩ := ih
      refine ⟨c, head, .left tier l op :: stack, fits_left tier l op stack, goesOn_of_steps? ?_⟩
      rw [hgo.steps? hd [op]]
      exact Drives.left (drives_of_derives hd) hop c head hfits
  | @sign op _ _ hop ih =>
      obtain ⟨c, head, stack, -, hgo⟩ := ih
      refine ⟨c, head, .sign op :: stack, trivial, hgo.step (.inr (.inl hop)) ?_⟩
      rw [steps?_singleton, step?_sign hop]
  | primary _ ih =>
      obtain ⟨c, head, stack, -, hgo⟩ := ih
      exact ⟨c, head, stack, trivial, hgo⟩
  | group _ hl ih =>
      obtain ⟨c, head, stack, -, hgo⟩ := ih
      refine ⟨c, head, .group :: stack, rfl, hgo.step (.inr (.inr hl)) ?_⟩
      rw [steps?_singleton, step?_leftParen hl]

/-! ## Tokens that the machine cannot take -/

/-- Where an operand has to come, nothing else can. -/
theorem step?_operand_eq_none {t : Token} (h : ¬ StartsOperand t) (c : Config) (head : Head)
    (stack : List Frame) : (c.inPhase (.operand head stack)).step? t = none := by
  have hatom : Tree.atom? t = none := by
    cases hatom : Tree.atom? t with
    | none => rfl
    | some e => exact absurd (.inl ⟨e, atom_iff.mpr hatom⟩) h
  have hsign : t.kind.isUnary = false := by
    cases hsign : t.kind.isUnary with
    | false => rfl
    | true => exact absurd (.inr (.inl (sign_iff.mpr hsign))) h
  have hparen : t.kind ≠ .mark .leftParen := fun hparen => h (.inr (.inr hparen))
  simp only [step?, inPhase, operandStep?, hatom, hparen, if_false, hsign, Bool.false_eq_true,
    Option.map_none]

/-- Behind an operand, nothing can come that neither goes on with the expression nor closes what is
open around it. -/
theorem step?_operator_eq_none {t : Token} {stack stack' : List Frame} {e e' : Tree}
    (hclose : close stack' e' = (stack, e)) (ht : joint? t.kind = none)
    (hparen : t.kind = .mark .rightParen → ∀ outer, stack ≠ .group :: outer)
    (hsemicolon : t.kind = .mark .semicolon → stack ≠ []) (c : Config) (head : Head) :
    (c.inPhase (.operator head stack' e')).step? t = none := by
  simp only [step?, inPhase, operatorStep?]
  split
  · next hkind =>
      rw [hkind] at ht
      cases ht
  · next hkind =>
      have hgroup : groupStep? head stack' e' = none := by
        rw [groupStep?, hclose]
        split
        · next heq => exact absurd (congrArg Prod.fst heq) (hparen hkind _)
        · rfl
      rw [hgroup]
      rfl
  · next hkind =>
      have hstatement : statement? head stack' e' = none := by
        rw [statement?, hclose]
        split
        · next heq => exact absurd (congrArg Prod.fst heq) (hsemicolon hkind)
        · rfl
      rw [hstatement]
      rfl
  · next hequal _ _ =>
      have htier : t.kind.tier? = none := by
        unfold joint? at ht
        split at ht
        · cases ht
        · exact Option.map_eq_none_iff.mp ht
      rw [htier]
      rfl

/-- Behind a left side that is not a name, an `=` cannot come. -/
theorem step?_equal_eq_none {t : Token} (ht : t.kind = .mark .equal) {stack stack' : List Frame}
    {e e' : Tree} (hreduce : reduceTo .equality stack' e' = (stack, e))
    (he : ∀ name, e ≠ .reference name) (c : Config) (head : Head) :
    (c.inPhase (.operator head stack' e')).step? t = none := by
  have hassign : assignStep? head stack' e' = none := by
    cases e' with
    | reference name =>
        simp only [assignStep?]
        split
        · next hstarts =>
            rw [reduceTo_of_awaits _ (awaits_of_startsExpression hstarts)] at hreduce
            exact absurd (congrArg Prod.snd hreduce).symm (he name)
        · rfl
    | _ => rfl
  simp only [step?, inPhase, operatorStep?, ht, hassign, Option.map_none]

/-- The machine comes to an `=` behind a left side that is not a name, and stops there. -/
theorem stops_at_misassigned {ts : List Token} {equal : Token} (h : Misassigned ts equal) :
    ∃ c, start.steps? ts = some c ∧ c.step? equal = none := by
  obtain ⟨hequal, before, us, e, rfl, hawaited, hd, he⟩ := h
  obtain ⟨c, head, stack, hfits, hgo⟩ := goesOn_of_awaited hawaited
  obtain ⟨stack', e', hrun, hreduce⟩ := drives_of_derives hd c head stack hfits.equality
  refine ⟨_, ?_, step?_equal_eq_none hequal hreduce he c head⟩
  have hthere := hgo.steps? hd []
  rw [List.append_nil] at hthere
  rw [hthere]
  exact hrun

end RoxLang.Automaton.Config
