/-
# `RoxLang.Proofs.Tree.Form` — parenthesised forms are read in one way

A form is a word, a quoted text, or a head and its parts between parentheses.  Written out, a form
can be read back in one way only, and without knowing what comes behind it, as long as that breaks
words off: a blank, a closing parenthesis, or nothing.  What has to be known of words and heads is
that they hold no blank and no closing parenthesis, and of a quoted text that it holds no quote.
Within the quotes blanks and parentheses do not count.

The induction is on the form that is to be found, and its statement is about two texts with
something behind each: where the forms are, what is behind them is too.
-/
import Mathlib.Data.List.Basic

namespace RoxLang

/-- A word, a quoted text, or a head with its parts. -/
inductive Form where
  | atom (text : List Char)
  | node (head : List Char) (parts : List Form)

namespace Form

mutual

/-- How a form is written. -/
def chars : Form → List Char
  | .atom text => text
  | .node head parts => '(' :: (head ++ (charsOfAll parts ++ [')']))

/-- How parts are written, each behind a blank. -/
def charsOfAll : List Form → List Char
  | [] => []
  | p :: ps => ' ' :: (p.chars ++ charsOfAll ps)

end

theorem charsOfAll_eq_flatMap (ps : List Form) :
    charsOfAll ps = (ps.map chars).flatMap (' ' :: ·) := by
  induction ps with
  | nil => rfl
  | cons p ps ih => rw [charsOfAll, ih, List.map_cons, List.flatMap_cons, List.cons_append]

/-! ## Runs of characters -/

/-- A character that ends a word. -/
def isBreak (c : Char) : Bool := c == ' ' || c == ')'

/-- A text that goes on with a character of a class, if it goes on. -/
def StopsAt (class? : Char → Bool) (cs : List Char) : Prop := ∀ c ∈ cs.head?, class? c = true

/-- A run without characters of a class ends where the first such character is. -/
theorem run_append_inj {class? : Char → Bool} {x y : List Char} (hx : StopsAt class? x)
    (hy : StopsAt class? y) : ∀ {cs ds : List Char}, (∀ c ∈ cs, class? c = false) →
      (∀ d ∈ ds, class? d = false) → cs ++ x = ds ++ y → cs = ds ∧ x = y
  | [], [], _, _, h => ⟨rfl, h⟩
  | [], d :: ds, _, hds, h => by
      rw [List.nil_append, List.cons_append] at h
      have hstop : class? d = true := hx d (by rw [h]; rfl)
      rw [hds d List.mem_cons_self] at hstop
      cases hstop
  | c :: cs, [], hcs, _, h => by
      rw [List.nil_append, List.cons_append] at h
      have hstop : class? c = true := hy c (by rw [← h]; rfl)
      rw [hcs c List.mem_cons_self] at hstop
      cases hstop
  | c :: cs, d :: ds, hcs, hds, h => by
      obtain ⟨rfl, htail⟩ := List.cons.inj h
      obtain ⟨rfl, hxy⟩ := run_append_inj hx hy (fun e he => hcs e (List.mem_cons_of_mem _ he))
        (fun e he => hds e (List.mem_cons_of_mem _ he)) htail
      exact ⟨rfl, hxy⟩

/-- A text in which no word ends. -/
def Unbroken (cs : List Char) : Prop := ∀ c ∈ cs, isBreak c = false

instance (cs : List Char) : Decidable (Unbroken cs) :=
  List.decidableBAll (fun c => isBreak c = false) cs

theorem stopsAt_blank (cs : List Char) : StopsAt isBreak (' ' :: cs) := by
  rintro _ ⟨⟩
  rfl

theorem stopsAt_close (cs : List Char) : StopsAt isBreak (')' :: cs) := by
  rintro _ ⟨⟩
  rfl

theorem stopsAt_charsOfAll (ps : List Form) (cs : List Char) :
    StopsAt isBreak (charsOfAll ps ++ ')' :: cs) := by
  cases ps with
  | nil => exact stopsAt_close cs
  | cons p ps => exact stopsAt_blank _

/-! ## Atoms -/

/-- The texts that stand without parentheses: words, and texts in quotes. -/
inductive Atomic : List Char → Prop
  | word {c : Char} {cs : List Char} : c ≠ '(' → c ≠ '"' → Unbroken (c :: cs) → Atomic (c :: cs)
  | quoted {cs : List Char} : '"' ∉ cs → Atomic ('"' :: (cs ++ ['"']))

theorem Atomic.append_inj {cs ds x y : List Char} (hcs : Atomic cs) (hds : Atomic ds)
    (hx : StopsAt isBreak x) (hy : StopsAt isBreak y) (h : cs ++ x = ds ++ y) :
    cs = ds ∧ x = y := by
  cases hcs with
  | word _ hc hcs =>
      cases hds with
      | word _ _ hds => exact run_append_inj hx hy hcs hds h
      | quoted _ => exact absurd (List.cons.inj h).1 hc
  | @quoted cs hcs =>
      cases hds with
      | word _ hd _ => exact absurd (List.cons.inj h).1.symm hd
      | @quoted ds hds =>
          have hquote (x : List Char) : StopsAt (· == '"') ('"' :: x) := by
            rintro _ ⟨⟩
            rfl
          have hrun {es : List Char} (hes : '"' ∉ es) : ∀ e ∈ es, (e == '"') = false := by
            intro e he
            exact beq_false_of_ne fun heq => hes (heq ▸ he)
          simp only [List.cons_append, List.append_assoc, List.nil_append, List.cons.injEq,
            true_and] at h
          obtain ⟨rfl, hclosed⟩ := run_append_inj (hquote x) (hquote y) (hrun hcs) (hrun hds) h
          exact ⟨rfl, (List.cons.inj hclosed).2⟩

/-- Nothing without parentheses starts with one. -/
theorem Atomic.ne_open {cs x y : List Char} (hcs : Atomic cs) : cs ++ x ≠ '(' :: y := by
  intro h
  cases hcs with
  | word hc _ _ => exact hc (List.cons.inj h).1
  | quoted _ => exact absurd (List.cons.inj h).1 (by decide)

/-! ## Forms -/

/-- A form that can be read. -/
inductive Readable : Form → Prop
  | atom {text : List Char} : Atomic text → Readable (.atom text)
  | node {head : List Char} {parts : List Form} : Unbroken head → (∀ p ∈ parts, Readable p) →
      Readable (.node head parts)

mutual

/-- Two forms written in one way are one form, and so is what follows them. -/
theorem Readable.append_inj : ∀ {f g : Form}, f.Readable → g.Readable → ∀ {x y : List Char},
    StopsAt isBreak x → StopsAt isBreak y → f.chars ++ x = g.chars ++ y → f = g ∧ x = y
  | .atom _, .atom _, .atom hf, .atom hg, _, _, hx, hy, h => by
      obtain ⟨rfl, hxy⟩ := hf.append_inj hg hx hy h
      exact ⟨rfl, hxy⟩
  | .atom _, .node _ _, .atom hf, _, _, _, _, _, h => absurd h hf.ne_open
  | .node _ _, .atom _, _, .atom hg, _, _, _, _, h => absurd h.symm hg.ne_open
  | .node head ps, .node head' qs, .node hhead hps, .node hhead' hqs, x, y, _, _, h => by
      simp only [chars, List.cons_append, List.append_assoc, List.nil_append, List.cons.injEq,
        true_and] at h
      obtain ⟨rfl, hparts⟩ := run_append_inj (stopsAt_charsOfAll ps x) (stopsAt_charsOfAll qs y)
        hhead hhead' h
      obtain ⟨rfl, hxy⟩ := parts_append_inj hps hqs hparts
      exact ⟨rfl, hxy⟩

theorem parts_append_inj : ∀ {ps qs : List Form}, (∀ p ∈ ps, p.Readable) →
    (∀ q ∈ qs, q.Readable) → ∀ {x y : List Char},
    charsOfAll ps ++ ')' :: x = charsOfAll qs ++ ')' :: y → ps = qs ∧ x = y
  | [], [], _, _, _, _, h => ⟨rfl, (List.cons.inj h).2⟩
  | [], _ :: _, _, _, _, _, h => absurd (List.cons.inj h).1 (by decide)
  | _ :: _, [], _, _, _, _, h => absurd (List.cons.inj h).1 (by decide)
  | p :: ps, q :: qs, hps, hqs, x, y, h => by
      simp only [charsOfAll, List.cons_append, List.append_assoc, List.cons.injEq, true_and] at h
      obtain ⟨rfl, hrest⟩ := Readable.append_inj (hps p List.mem_cons_self)
        (hqs q List.mem_cons_self) (stopsAt_charsOfAll ps x) (stopsAt_charsOfAll qs y) h
      obtain ⟨rfl, hxy⟩ := parts_append_inj (fun p hp => hps p (List.mem_cons_of_mem _ hp))
        (fun q hq => hqs q (List.mem_cons_of_mem _ hq)) hrest
      exact ⟨rfl, hxy⟩

end

end Form

end RoxLang
