/-
# `RoxLang.Proofs.Lexeme.Joined` — texts put after each other on lines of their own

No piece goes on over the end of a line but a string, and a string goes on to its closing quote,
wherever that is.  So a text that leaves no string open is cut as before when something is put
after it on a new line, and what is put there is cut as if it stood alone.  Tokens and faults of
the second text are those of the text alone, lowered by the lines of the first, so the scan of both
is known from the scans of each.
-/
import RoxLang.Proofs.Lexeme.Scan

namespace RoxLang

/-- A text that begins with the end of a line, if it begins at all. -/
def NewLine (cs : List Char) : Prop := ∀ c, cs.head? = some c → c = '\n'

theorem newLine_nil : NewLine [] := nofun

theorem newLine_cons (cs : List Char) : NewLine ('\n' :: cs) := by
  rintro c ⟨⟩
  rfl

namespace Piece

variable {x : List Char}

/-! ## One cut -/

theorem takeWhile_append_newLine (hx : NewLine x) (class? : Char → Bool)
    (hclass : class? '\n' = false) :
    ∀ cs : List Char, (cs ++ x).takeWhile class? = cs.takeWhile class?
  | [] => by
      cases x with
      | nil => rfl
      | cons c x =>
          obtain rfl := hx c rfl
          simp only [List.nil_append, List.takeWhile_cons, hclass, Bool.false_eq_true, if_false,
            List.takeWhile_nil]
  | c :: cs => by
      simp only [List.cons_append, List.takeWhile_cons,
        takeWhile_append_newLine hx class? hclass cs]

theorem dropWhile_append_newLine (hx : NewLine x) (class? : Char → Bool)
    (hclass : class? '\n' = false) :
    ∀ cs : List Char, (cs ++ x).dropWhile class? = cs.dropWhile class? ++ x
  | [] => by
      cases x with
      | nil => rfl
      | cons c x =>
          obtain rfl := hx c rfl
          simp only [List.nil_append, List.dropWhile_cons, hclass, Bool.false_eq_true, if_false,
            List.dropWhile_nil]
  | c :: cs => by
      simp only [List.cons_append, List.dropWhile_cons,
        dropWhile_append_newLine hx class? hclass cs]
      split <;> rfl

theorem fractionOf_append (hx : NewLine x) (cs : List Char) :
    fractionOf (cs ++ x) = fractionOf cs := by
  cases cs with
  | nil =>
      cases x with
      | nil => rfl
      | cons c x =>
          obtain rfl := hx c rfl
          rfl
  | cons c cs =>
      simp only [List.cons_append]
      unfold fractionOf
      split
      · next h =>
          cases h
          exact takeWhile_append_newLine hx _ rfl cs
      · next hpoint =>
          split
          · next h =>
              cases h
              exact absurd rfl (hpoint _)
          · rfl

theorem readNumber_append (hx : NewLine x) (cs : List Char) :
    readNumber (cs ++ x) = ((readNumber cs).1, (readNumber cs).2 ++ x) := by
  simp only [readNumber, takeWhile_append_newLine hx Char.isDigit rfl,
    dropWhile_append_newLine hx Char.isDigit rfl, fractionOf_append hx]
  split
  · rfl
  · next h =>
      -- a fraction with digits lies within the text
      have hcut := congrArg List.length (fractionOf_cut _ h)
      simp only [List.cons_append, List.length_cons, List.length_append, List.length_drop] at hcut
      rw [List.drop_append_of_le_length (by omega)]

theorem readString_append {cs : List Char} (h : readString cs ≠ (.unclosed cs, [])) :
    readString (cs ++ x) = ((readString cs).1, (readString cs).2 ++ x) := by
  unfold readString at h ⊢
  cases hd : cs.dropWhile (· != '"') with
  | nil =>
      rw [hd] at h
      exact absurd rfl h
  | cons q rest =>
      have htake : (cs ++ x).takeWhile (· != '"') = cs.takeWhile (· != '"') := by
        rw [List.takeWhile_append, if_neg]
        intro hlength
        have hcs := congrArg List.length
          (List.takeWhile_append_dropWhile (p := (· != '"')) (l := cs))
        rw [hd, List.length_append, List.length_cons] at hcs
        omega
      have hdrop : (cs ++ x).dropWhile (· != '"') = q :: (rest ++ x) := by
        rw [List.dropWhile_append, hd]
        rfl
      simp only [hdrop, htake]

theorem readMark_append (hx : NewLine x) (m : Mark) (cs : List Char) :
    readMark m (cs ++ x) = ((readMark m cs).1, (readMark m cs).2 ++ x) := by
  unfold readMark
  cases m.withEqual? with
  | none => rfl
  | some long =>
      cases cs with
      | nil =>
          cases x with
          | nil => rfl
          | cons c x =>
              obtain rfl := hx c rfl
              rfl
      | cons c cs =>
          by_cases hc : c = '='
          · subst hc
            rfl
          · simp only [List.cons_append]
            split
            · next heq => cases heq; exact absurd rfl hc
            · split
              · next heq => cases heq; exact absurd rfl hc
              · rfl

/-- A cut that does not find an open string takes the same piece, whatever the lines behind. -/
theorem read_append (hx : NewLine x) {c : Char} {cs : List Char}
    (h : read c cs ≠ (.unclosed cs, [])) :
    read c (cs ++ x) = ((read c cs).1, (read c cs).2 ++ x) := by
  have hslash : (cs ++ x).head? = some '/' ↔ cs.head? = some '/' := by
    cases cs with
    | nil =>
        constructor
        · intro hhead
          exact absurd (hx _ hhead) (by decide)
        · exact nofun
    | cons d cs => exact Iff.rfl
  unfold read at h ⊢
  simp only [hslash]
  split
  · rfl
  · next hs =>
    rw [if_neg hs] at h
    split
    · next hq =>
        rw [if_pos hq] at h
        exact readString_append h
    split
    · exact readNumber_append hx (c :: cs)
    split
    · simp only [takeWhile_append_newLine hx isNameChar rfl,
        dropWhile_append_newLine hx isNameChar rfl]
    split
    · next hcomment =>
        obtain ⟨d, ds, rfl⟩ : ∃ d ds, cs = d :: ds := by
          cases cs with
          | nil => exact nomatch hcomment.2
          | cons d ds => exact ⟨d, ds, rfl⟩
        simp only [List.cons_append, List.tail_cons, takeWhile_append_newLine hx (· != '\n') rfl,
          dropWhile_append_newLine hx (· != '\n') rfl]
    split
    · exact readMark_append hx _ cs
    · rfl

/-! ## All cuts -/

/-- A text that leaves no string open. -/
def ClosesStrings (cs : List Char) : Prop := ∀ ds, .unclosed ds ∉ cut cs

theorem closesStrings_of_lawful {cs : List Char} (h : ∀ p ∈ cut cs, p.Lawful) :
    ClosesStrings cs := by
  intro ds hds
  exact nomatch h _ hds

theorem ClosesStrings.read_ne_unclosed {c : Char} {cs : List Char} (h : ClosesStrings (c :: cs)) :
    read c cs ≠ (.unclosed cs, []) := by
  intro hread
  refine h cs ?_
  rw [cut_cons, hread]
  exact List.mem_cons_self

theorem ClosesStrings.rest {c : Char} {cs : List Char} (h : ClosesStrings (c :: cs)) :
    ClosesStrings (read c cs).2 := by
  intro ds hds
  refine h ds ?_
  rw [cut_cons]
  exact List.mem_cons_of_mem _ hds

/-- A text that leaves no string open is cut as before when more follows on new lines. -/
theorem cut_append (hx : NewLine x) (cs : List Char) (h : ClosesStrings cs) :
    cut (cs ++ x) = cut cs ++ cut x := by
  match cs with
  | [] => rfl
  | c :: cs =>
      have hshorter := read_rest_length c cs
      rw [List.cons_append, cut_cons, cut_cons, read_append hx h.read_ne_unclosed,
        List.cons_append]
      rw [cut_append hx (read c cs).2 h.rest]
termination_by cs.length

end Piece

open Piece

/-! ## Lines -/

theorem endLines_append : ∀ (line : Nat) (ps qs : List Piece), endLines line (ps ++ qs)
    = endLines line ps ++ endLines (line + Text.newlines (ps.flatMap text)) qs
  | line, [], qs => rfl
  | line, p :: ps, qs => by
      rw [List.cons_append, endLines, endLines, endLines_append, List.flatMap_cons, newlines_append,
        Nat.add_assoc]
      rfl

theorem endLines_add (line lines : Nat) : ∀ ps : List Piece,
    endLines (line + lines) ps = (endLines line ps).map fun (p, l) => (p, l + lines) := by
  intro ps
  induction ps generalizing line with
  | nil => rfl
  | cons p ps ih =>
      rw [endLines, endLines, List.map_cons, ← ih, Nat.add_right_comm]

theorem token?_add (p : Piece) (line lines : Nat) :
    p.token? (line + lines) = (p.token? line).map (Token.lower lines) := by
  unfold token?
  cases p.lexeme? with
  | none => rfl
  | some lexeme => rfl

theorem fault?_add (p : Piece) (line lines : Nat) :
    p.fault? (line + lines) = (p.fault? line).map (LexFault.lower lines) := by
  cases p <;> rfl

theorem tokensFrom_append (line : Nat) (ps qs : List Piece) : tokensFrom line (ps ++ qs)
    = tokensFrom line ps ++ tokensFrom (line + Text.newlines (ps.flatMap text)) qs := by
  simp only [tokensFrom, endLines_append, List.filterMap_append]

theorem faultsFrom_append (line : Nat) (ps qs : List Piece) : faultsFrom line (ps ++ qs)
    = faultsFrom line ps ++ faultsFrom (line + Text.newlines (ps.flatMap text)) qs := by
  simp only [faultsFrom, endLines_append, List.filterMap_append]

/-- The tokens of pieces further down are their tokens, lowered. -/
theorem tokensFrom_add (line lines : Nat) (ps : List Piece) :
    tokensFrom (line + lines) ps = (tokensFrom line ps).map (Token.lower lines) := by
  simp only [tokensFrom, endLines_add, List.filterMap_map, List.map_filterMap]
  exact congrArg (List.filterMap · _) (funext fun pair => token?_add pair.1 pair.2 lines)

theorem faultsFrom_add (line lines : Nat) (ps : List Piece) :
    faultsFrom (line + lines) ps = (faultsFrom line ps).map (LexFault.lower lines) := by
  simp only [faultsFrom, endLines_add, List.filterMap_map, List.map_filterMap]
  exact congrArg (List.filterMap · _) (funext fun pair => fault?_add pair.1 pair.2 lines)

/-- What a text gives that follows a text without an open string on a new line. -/
theorem tokensFrom_joined {cs : List Char} (h : ClosesStrings cs) (ds : List Char) :
    tokensFrom 0 (cut (cs ++ '\n' :: ds)) = tokensFrom 0 (cut cs)
      ++ (tokensFrom 0 (cut ds)).map (Token.lower (Text.newlines cs + 1)) := by
  rw [cut_append (newLine_cons ds) cs h, tokensFrom_append, flatMap_text_cut, Nat.zero_add,
    cut_cons, read_blank rfl, tokensFrom_cons, ← tokensFrom_add, Nat.zero_add]
  rfl

theorem faultsFrom_joined {cs : List Char} (h : ClosesStrings cs) (ds : List Char) :
    faultsFrom 0 (cut (cs ++ '\n' :: ds)) = faultsFrom 0 (cut cs)
      ++ (faultsFrom 0 (cut ds)).map (LexFault.lower (Text.newlines cs + 1)) := by
  rw [cut_append (newLine_cons ds) cs h, faultsFrom_append, flatMap_text_cut, Nat.zero_add,
    cut_cons, read_blank rfl, faultsFrom_cons, ← faultsFrom_add, Nat.zero_add]
  rfl

/-! ## Scans -/

/-- An open string is a fault. -/
theorem exists_fault_of_unclosed {ds : List Char} : ∀ {ps : List Piece} (line : Nat),
    .unclosed ds ∈ ps → ∃ l, .unterminatedString l ∈ faultsFrom line ps
  | [], _, h => nomatch h
  | p :: ps, line, h => by
      rw [faultsFrom_cons]
      rcases List.mem_cons.mp h with rfl | h
      · exact ⟨_, List.mem_append_left _ List.mem_cons_self⟩
      · obtain ⟨l, hl⟩ := exists_fault_of_unclosed (line + p.newlines) h
        exact ⟨l, List.mem_append_right _ hl⟩

theorem scan_error_iff {source : String} {faults : List LexFault} : scan source = .error faults ↔
    faults ≠ [] ∧ faultsFrom 0 (cut source.toList) = faults := by
  simp only [scan]
  cases hf : faultsFrom 0 (cut source.toList) with
  | nil =>
      constructor
      · intro h
        cases h
      · rintro ⟨hne, rfl⟩
        exact absurd rfl hne
  | cons f fs =>
      constructor
      · intro h
        cases h
        exact ⟨List.cons_ne_nil f fs, rfl⟩
      · rintro ⟨-, rfl⟩
        rfl

/-- A text of which the scan reports no open string leaves none open. -/
theorem closesStrings_of_scan {source : String}
    (h : ∀ faults, scan source = .error faults → ∀ line, .unterminatedString line ∉ faults) :
    ClosesStrings source.toList := by
  intro ds hds
  obtain ⟨line, hline⟩ := exists_fault_of_unclosed 0 hds
  exact h _ (scan_error_iff.mpr ⟨List.ne_nil_of_mem hline, rfl⟩) line hline

/-- What a scan gives of two texts, of which the second stands so many lines further down: the
tokens of both, with the end token of the second alone, or the faults of both if there are any. -/
def joinScans (lines : Nat) :
    (first second : Except (List LexFault) (List Token)) → Except (List LexFault) (List Token)
  | .ok ts, .ok us => .ok (ts.dropLast ++ us.map (Token.lower lines))
  | .ok _, .error gs => .error (gs.map (LexFault.lower lines))
  | .error fs, .ok _ => .error fs
  | .error fs, .error gs => .error (fs ++ gs.map (LexFault.lower lines))

theorem toList_joined (a b : String) : (a ++ "\n" ++ b).toList = a.toList ++ '\n' :: b.toList := by
  simp only [String.toList_append, List.append_assoc]
  rfl

theorem newlines_joined (cs ds : List Char) :
    Text.newlines (cs ++ '\n' :: ds) = Text.newlines ds + (Text.newlines cs + 1) := by
  have hnewline : Text.newlines ('\n' :: ds) = Text.newlines ds + 1 := List.count_cons_self
  rw [newlines_append, hnewline]
  omega

/-- The end token of a text on a new line is that of the text alone, lowered. -/
theorem eofToken_lower (line lines : Nat) :
    (eofToken line).lower lines = eofToken (line + lines) := by
  simp only [eofToken, Token.lower, Int.natCast_add]

theorem scan_eq_joinScans {a b : String} (h : ClosesStrings a.toList) :
    scan (a ++ "\n" ++ b) = joinScans (Text.newlines a.toList + 1) (scan a) (scan b) := by
  have htokens := tokensFrom_joined h b.toList
  have hfaults := faultsFrom_joined h b.toList
  rw [← toList_joined] at htokens hfaults
  cases ha : scan a with
  | ok ts =>
      obtain ⟨hfa, rfl⟩ := scan_ok_iff.mp ha
      cases hb : scan b with
      | ok us =>
          obtain ⟨hfb, rfl⟩ := scan_ok_iff.mp hb
          refine scan_ok_iff.mpr ⟨by rw [hfaults, hfa, hfb]; rfl, ?_⟩
          rw [htokens, toList_joined, newlines_joined, List.dropLast_concat, List.map_append,
            List.map_singleton, eofToken_lower, List.append_assoc]
      | error gs =>
          obtain ⟨hne, rfl⟩ := scan_error_iff.mp hb
          refine scan_error_iff.mpr ⟨?_, by rw [hfaults, hfa]; rfl⟩
          exact fun hnil => hne (List.map_eq_nil_iff.mp hnil)
  | error fs =>
      obtain ⟨hne, rfl⟩ := scan_error_iff.mp ha
      cases hb : scan b with
      | ok us =>
          obtain ⟨hfb, rfl⟩ := scan_ok_iff.mp hb
          refine scan_error_iff.mpr ⟨hne, ?_⟩
          rw [hfaults, hfb, List.map_nil, List.append_nil]
      | error gs =>
          obtain ⟨-, rfl⟩ := scan_error_iff.mp hb
          refine scan_error_iff.mpr ⟨?_, hfaults⟩
          exact fun hnil => hne (List.append_eq_nil_iff.mp hnil).1

theorem joinScans_ok_iff (lines : Nat) (first second : Except (List LexFault) (List Token)) :
    (∃ ts, joinScans lines first second = .ok ts)
      ↔ (∃ ts, first = .ok ts) ∧ ∃ us, second = .ok us := by
  cases first with
  | ok ts =>
      cases second with
      | ok us => exact ⟨fun _ => ⟨⟨ts, rfl⟩, us, rfl⟩, fun _ => ⟨_, rfl⟩⟩
      | error gs => exact ⟨nofun, nofun⟩
  | error fs => cases second <;> exact ⟨nofun, nofun⟩

/-- Scanning goes line by line.  When a scan of `a` reports no open string, the tokens found in `a`
and `b` on a new line are those found in `a` and, lowered by the lines of `a`, those found in `b`;
so are the faults.  The scan of the two gives what the scans give: the tokens without the end token
of `a`, or all faults.  It succeeds exactly when both do. -/
theorem scan_joined {a : String}
    (h : ∀ faults, scan a = .error faults → ∀ line, .unterminatedString line ∉ faults)
    (b : String) :
    let text := a ++ "\n" ++ b
    let lines := Text.newlines a.toList + 1
    tokensFrom 0 (cut text.toList) = tokensFrom 0 (cut a.toList)
        ++ (tokensFrom 0 (cut b.toList)).map (Token.lower lines) ∧
      faultsFrom 0 (cut text.toList) = faultsFrom 0 (cut a.toList)
        ++ (faultsFrom 0 (cut b.toList)).map (LexFault.lower lines) ∧
      scan text = joinScans lines (scan a) (scan b) ∧
      ((∃ ts, scan text = .ok ts) ↔ (∃ ts, scan a = .ok ts) ∧ ∃ us, scan b = .ok us) := by
  intro text lines
  have hclosed := closesStrings_of_scan h
  have hscan : scan text = joinScans lines (scan a) (scan b) := scan_eq_joinScans hclosed
  have htext : text.toList = a.toList ++ '\n' :: b.toList := toList_joined a b
  rw [htext, hscan]
  exact ⟨tokensFrom_joined hclosed _, faultsFrom_joined hclosed _, rfl, joinScans_ok_iff _ _ _⟩

/-- `@ 1.` has a stray character, and `= "q` on the next line an open string: both faults are
found, the second one line down, and the point stays a token of its own. -/
theorem scan_joined_two_faults :
    (∀ faults, scan "@ 1." = .error faults → ∀ line, .unterminatedString line ∉ faults) ∧
      scan "@ 1.\n= \"q" = .error [.unexpectedCharacter 0, .unterminatedString 1] ∧
      tokensFrom 0 (cut "@ 1.\n= \"q".toList)
        = [⟨.number, "1", 0⟩, ⟨.mark .dot, ".", 0⟩, ⟨.mark .equal, "=", 1⟩] := by
  have hfirst : scan "@ 1." = .error [.unexpectedCharacter 0] := rfl
  have hclosed : ∀ faults, scan "@ 1." = .error faults →
      ∀ line, LexFault.unterminatedString line ∉ faults := by
    intro faults hfaults line hline
    rw [hfirst] at hfaults
    cases hfaults
    cases hline with
    | tail _ hline => cases hline
  obtain ⟨htokens, -, hscan, -⟩ := scan_joined hclosed "= \"q"
  exact ⟨hclosed, hscan, htokens⟩

end RoxLang
