/-
# `RoxLang.Proofs.Lexeme.Scan` — the scanner is the maximal-munch lexer of its rules

The reference cuts a text by taking the longest lawful piece over and over.  Where none starts it
takes one character, or all that is left when that character is a quote.  It then reads tokens and
faults off the pieces, counting for each the newlines of the whole text before it; nothing is
carried from one piece to the next but the text that has been passed.

The scanner carries a line number instead, and it gives out tokens only when there is no fault.  The
invariant between the two is that the number carried is the number of newlines passed.
-/
import RoxLang.Proofs.Lexeme.Rules
import RoxLang.Lexeme.Scan

namespace RoxLang

theorem newlines_append (before cs : List Char) :
    Text.newlines (before ++ cs) = Text.newlines before + Text.newlines cs := List.count_append

namespace Piece

/-! ## The reference -/

/-- The pieces of a text, the longest lawful one taken each time. -/
inductive Segmented : List Char → List Piece → Prop where
  | nil : Segmented [] []
  | lexeme {p : Piece} {rest : List Char} {ps : List Piece} :
      p.Longest (p.text ++ rest) → Segmented rest ps → Segmented (p.text ++ rest) (p :: ps)
  | stray {c : Char} {cs : List Char} {ps : List Piece} :
      c ≠ '"' → (∀ p : Piece, ¬ p.Starts (c :: cs)) → Segmented cs ps →
      Segmented (c :: cs) (.stray c :: ps)
  | unclosed {cs : List Char} :
      (∀ p : Piece, ¬ p.Starts ('"' :: cs)) → Segmented ('"' :: cs) [.unclosed cs]

/-- A piece is a token of this kind, with this lexeme. -/
inductive Denotes : Piece → Kind → List Char → Prop where
  | mark (m : Mark) : Denotes (.mark m) (.mark m) m.text
  | number (whole fraction : List Char) :
      Denotes (.number whole fraction) .number (Piece.number whole fraction).text
  | reserved (w : Word) : Denotes (.name w.text) (.word w) w.text
  | identifier {cs : List Char} : (∀ w : Word, w.text ≠ cs) → Denotes (.name cs) .identifier cs
  | string (cs : List Char) : Denotes (.string cs) .string cs

/-- The tokens of the pieces that follow a text, each on the line on which it ends. -/
inductive Tokens : List Char → List Piece → List Token → Prop where
  | nil {before : List Char} : Tokens before [] []
  | blank {before : List Char} {c : Char} {ps : List Piece} {ts : List Token} :
      Tokens (before ++ [c]) ps ts → Tokens before (.blank c :: ps) ts
  | comment {before cs : List Char} {ps : List Piece} {ts : List Token} :
      Tokens (before ++ '/' :: '/' :: cs) ps ts → Tokens before (.comment cs :: ps) ts
  | token {before cs : List Char} {p : Piece} {kind : Kind} {ps : List Piece} {ts : List Token} :
      Denotes p kind cs → Tokens (before ++ p.text) ps ts →
      Tokens before (p :: ps) (⟨kind, String.ofList cs, Text.newlines (before ++ p.text)⟩ :: ts)

/-- The faults of the pieces that follow a text, one for each piece that is not lawful. -/
inductive Faults : List Char → List Piece → List LexFault → Prop where
  | nil {before : List Char} : Faults before [] []
  | lawful {before : List Char} {p : Piece} {ps : List Piece} {fs : List LexFault} :
      p.Lawful → Faults (before ++ p.text) ps fs → Faults before (p :: ps) fs
  | stray {before : List Char} {c : Char} {ps : List Piece} {fs : List LexFault} :
      Faults (before ++ [c]) ps fs →
      Faults before (.stray c :: ps) (.unexpectedCharacter (Text.newlines before) :: fs)
  | unclosed {before cs : List Char} :
      Faults before [.unclosed cs] [.unterminatedString (Text.newlines (before ++ '"' :: cs))]

/-! ## Cutting -/

theorem segmented_cut (cs : List Char) : Segmented cs (cut cs) := by
  match cs with
  | [] => exact .nil
  | c :: cs =>
      have hshorter := read_rest_length c cs
      rw [cut_cons]
      rcases read_cases c cs with hl | ⟨hq, hr⟩ | ⟨rfl, hr⟩
      · have hrest := Segmented.lexeme (read_cut c cs ▸ longest_read hl)
          (segmented_cut (read c cs).2)
        rwa [read_cut] at hrest
      · have hnone : ¬ (read c cs).1.Lawful := by
          rw [hr]
          exact nofun
        rw [hr]
        exact .stray hq (fun p hp => hnone (lawful_read hp)) (segmented_cut cs)
      · have hnone : ¬ (read '"' cs).1.Lawful := by
          rw [hr]
          exact nofun
        rw [hr]
        exact .unclosed fun p hp => hnone (lawful_read hp)
termination_by cs.length

/-- A text has one segmentation. -/
theorem Segmented.eq_cut {cs : List Char} {ps : List Piece} (h : Segmented cs ps) :
    ps = cut cs := by
  induction h with
  | nil => rfl
  | @lexeme p rest ps hp _ ih =>
      obtain ⟨c, cs, hc⟩ := List.exists_cons_of_ne_nil
        (List.append_ne_nil_of_left_ne_nil hp.1.1.text_ne_nil rest)
      rw [hc, cut_cons, read_of_longest (hc ▸ hp) hc, ih]
  | @stray c cs ps hq hnone _ ih =>
      rw [cut_cons]
      rcases read_cases c cs with hl | ⟨-, hr⟩ | ⟨hc, -⟩
      · exact absurd hl (not_lawful_read hnone)
      · rw [hr, ih]
      · exact absurd hc hq
  | @unclosed cs hnone =>
      rw [cut_cons]
      rcases read_cases '"' cs with hl | ⟨hq, -⟩ | ⟨-, hr⟩
      · exact absurd hl (not_lawful_read hnone)
      · exact absurd rfl hq
      · rw [hr]
        rfl

/-! ## Reading tokens and faults off the pieces -/

theorem denotes_name (cs : List Char) : Denotes (.name cs) (Kind.ofNameText cs) cs := by
  unfold Kind.ofNameText
  split
  · next w hw =>
      obtain rfl := Word.text_of_ofText? hw
      exact .reserved w
  · next hw =>
      refine .identifier fun w hcs => ?_
      rw [← hcs, Word.ofText?_text] at hw
      cases hw

theorem denotes_of_lexeme? {p : Piece} {kind : Kind} {cs : List Char}
    (h : p.lexeme? = some (kind, cs)) : Denotes p kind cs := by
  cases p with
  | mark m => cases h; exact .mark m
  | number whole fraction => cases h; exact .number whole fraction
  | name cs => cases h; exact denotes_name cs
  | string cs => cases h; exact .string cs
  | blank _ | comment _ | stray _ | unclosed _ => cases h

theorem tokensFrom_cons (line : Nat) (p : Piece) (ps : List Piece) :
    tokensFrom line (p :: ps)
      = (p.token? (line + p.newlines)).toList ++ tokensFrom (line + p.newlines) ps := by
  simp only [tokensFrom, endLines, List.filterMap_cons]
  split
  · next h => rw [h]; rfl
  · next h => rw [h]; rfl

/-- What holds of the tokens of all pieces holds of the tokens of a text. -/
theorem forall_mem_tokensFrom {P : Token → Prop} {ps : List Piece}
    (h : ∀ p ∈ ps, ∀ kind cs, p.lexeme? = some (kind, cs) → ∀ line : Nat,
      P ⟨kind, String.ofList cs, line⟩) {line : Nat} : ∀ t ∈ tokensFrom line ps, P t := by
  induction ps generalizing line with
  | nil => exact List.forall_mem_nil _
  | cons p ps ih =>
      obtain ⟨hp, hps⟩ := List.forall_mem_cons.mp h
      rw [tokensFrom_cons, token?]
      refine List.forall_mem_append.mpr ⟨?_, ih hps⟩
      rcases hlexeme : p.lexeme? with _ | ⟨kind, cs⟩
      · exact List.forall_mem_nil _
      · exact List.forall_mem_singleton.mpr (hp kind cs hlexeme _)

theorem faultsFrom_cons (line : Nat) (p : Piece) (ps : List Piece) :
    faultsFrom line (p :: ps)
      = (p.fault? (line + p.newlines)).toList ++ faultsFrom (line + p.newlines) ps := by
  simp only [faultsFrom, endLines, List.filterMap_cons]
  split
  · next h => rw [h]; rfl
  · next h => rw [h]; rfl

theorem Lawful.fault?_eq_none {p : Piece} (h : p.Lawful) (line : Nat) : p.fault? line = none := by
  cases h <;> rfl

theorem tokens_tokensFrom : ∀ (ps : List Piece) (before : List Char), (∀ p ∈ ps, p.Lawful) →
    Tokens before ps (tokensFrom (Text.newlines before) ps)
  | [], _, _ => .nil
  | p :: ps, before, h => by
      have ih := tokens_tokensFrom ps (before ++ p.text) fun q hq => h q (List.mem_cons_of_mem p hq)
      rw [tokensFrom_cons, Piece.newlines, ← newlines_append]
      rcases hp : p.lexeme? with _ | ⟨kind, cs⟩
      · rw [token?, hp]
        cases h p List.mem_cons_self with
        | blank _ => exact .blank ih
        | comment _ => exact .comment ih
        | mark _ | number _ _ _ | name _ _ | string _ => cases hp
      · rw [token?, hp]
        exact .token (denotes_of_lexeme? hp) ih

theorem Segmented.faults {cs : List Char} {ps : List Piece} (h : Segmented cs ps) :
    ∀ before : List Char, Faults before ps (faultsFrom (Text.newlines before) ps) := by
  induction h with
  | nil => intro before; exact .nil
  | @lexeme p rest ps hp _ ih =>
      intro before
      rw [faultsFrom_cons, hp.1.1.fault?_eq_none, Piece.newlines, ← newlines_append]
      exact .lawful hp.1.1 (ih _)
  | @stray c cs ps _ hnone _ ih =>
      intro before
      -- a newline would have been a blank
      have hc : c ≠ '\n' := by
        rintro rfl
        exact hnone (.blank '\n') ⟨.blank (by simp), cs, rfl⟩
      have hline : Text.newlines (before ++ [c]) = Text.newlines before := by
        have hzero : Text.newlines [c] = 0 := List.count_eq_zero.mpr (by simpa using hc.symm)
        rw [newlines_append, hzero, Nat.add_zero]
      have ih := ih (before ++ [c])
      rw [faultsFrom_cons, Piece.newlines, ← newlines_append, text, hline]
      rw [hline] at ih
      exact .stray ih
  | unclosed _ =>
      intro before
      rw [faultsFrom_cons, Piece.newlines, ← newlines_append]
      exact .unclosed

/-- There is a fault exactly when some piece is not lawful. -/
theorem Faults.eq_nil_iff {before : List Char} {ps : List Piece} {fs : List LexFault}
    (h : Faults before ps fs) : fs = [] ↔ ∀ p ∈ ps, p.Lawful := by
  induction h with
  | nil => simp
  | lawful hp _ ih => simp [ih, hp]
  | @stray _ c ps _ _ _ =>
      refine ⟨nofun, fun hall => ?_⟩
      exact nomatch hall _ (List.mem_cons_self)
  | unclosed =>
      refine ⟨nofun, fun hall => ?_⟩
      exact nomatch hall _ (List.mem_cons_self)

theorem Tokens.kind_ne_eof {before : List Char} {ps : List Piece} {ts : List Token}
    (h : Tokens before ps ts) : ∀ t ∈ ts, t.kind ≠ .eof := by
  induction h with
  | nil => exact nofun
  | blank _ ih | comment _ ih => exact ih
  | token hd _ ih =>
      rintro t (_ | ⟨_, ht⟩)
      · cases hd <;> exact nofun
      · exact ih t ht

/-- Scanned text has no bad piece. -/
theorem forall_lawful_of_faultsFrom {cs : List Char} (h : faultsFrom 0 (cut cs) = []) :
    ∀ p ∈ cut cs, p.Lawful :=
  ((segmented_cut cs).faults []).eq_nil_iff.mp h

end Piece

open Piece

theorem scan_ok_iff {source : String} {tokens : List Token} : scan source = .ok tokens ↔
    faultsFrom 0 (cut source.toList) = [] ∧
      tokens = tokensFrom 0 (cut source.toList)
        ++ [eofToken (Text.newlines source.toList)] := by
  simp only [scan]
  cases hf : faultsFrom 0 (cut source.toList) with
  | nil =>
      constructor
      · intro h
        cases h
        exact ⟨rfl, rfl⟩
      · rintro ⟨-, rfl⟩
        rfl
  | cons f fs =>
      constructor
      · intro h
        cases h
      · rintro ⟨h, -⟩
        cases h

/-- The scanner against the reference: it cuts the text as the reference does, and gives the tokens
of the pieces and one end token, or the faults of the pieces if one of them is bad. -/
theorem scan_maximal_munch (source : String) : ∃ ps : List Piece,
    Segmented source.toList ps ∧ (∀ qs, Segmented source.toList qs → qs = ps) ∧
    ps.flatMap text = source.toList ∧
    (((∀ p ∈ ps, p.Lawful) ∧ ∃ ts, Tokens [] ps ts ∧ (∀ t ∈ ts, t.kind ≠ .eof) ∧
        scan source = .ok (ts ++ [⟨.eof, "", Text.newlines source.toList⟩])) ∨
      ((∃ p ∈ ps, ¬ p.Lawful) ∧ ∃ fs, Faults [] ps fs ∧ fs ≠ [] ∧ scan source = .error fs)) := by
  have hcut := segmented_cut source.toList
  refine ⟨cut source.toList, hcut, fun qs hqs => hqs.eq_cut, flatMap_text_cut _, ?_⟩
  have hfaults : Faults [] (cut source.toList) (faultsFrom 0 (cut source.toList)) := hcut.faults []
  by_cases hall : ∀ p ∈ cut source.toList, p.Lawful
  · have htokens := tokens_tokensFrom _ [] hall
    have hnil := hfaults.eq_nil_iff.mpr hall
    exact .inl ⟨hall, _, htokens, htokens.kind_ne_eof, scan_ok_iff.mpr ⟨hnil, rfl⟩⟩
  · have hne : faultsFrom 0 (cut source.toList) ≠ [] := fun e => hall (hfaults.eq_nil_iff.mp e)
    obtain ⟨f, fs, hfs⟩ := List.exists_cons_of_ne_nil hne
    refine .inr ⟨by simpa using hall, _, hfaults, hne, ?_⟩
    simp only [scan, hfs]

end RoxLang
