/-
# `RoxLang.Proofs.Tree.Printed` — programs with one text look alike

What a scanner makes tokens of is a mark, a word, a numeral, a name or a string, so an operand that
is a token is printed as a word or in quotes, and its text tells which operand it is: a quote starts
a string, a digit a number, and of the words three stand for values and the others for themselves.
A number is the exception when it is infinity, whose text is a word that may be a name.

Heads of nodes are marks or one of five words, none of which is a mark.  So the forms of two
expressions can be compared from the outside in, and they agree only where the expressions do.
-/
import RoxLang.Proofs.Lexeme.Written
import RoxLang.Proofs.Reading
import RoxLang.Proofs.Tree.Legible

namespace RoxLang

open Grammar (Atom Expression Operator Program Sign Statement)

/-! ## Tokens of a scan -/

namespace Piece

theorem Lawful.shaped {p : Piece} (hp : p.Lawful) {kind : Kind} {cs : List Char}
    (h : p.lexeme? = some (kind, cs)) : Shaped kind cs := by
  cases denotes_of_lexeme? h with
  | mark m => exact .mark m
  | reserved w => exact .word w
  | number whole fraction =>
      cases hp with
      | number hne hwhole hfraction =>
          rw [text]
          split
          · exact .whole hne hwhole
          · next hsome => exact .fraction hne hwhole hsome hfraction
  | identifier hreserved =>
      cases hp with
      | name hc hcs => exact .identifier hc hcs hreserved
  | string _ =>
      cases hp with
      | string hcs => exact .string hcs

end Piece

theorem Shaped.exists_numeral {cs : List Char} (h : Shaped .number cs) :
    ∃ whole fraction : List Char, (Piece.number whole fraction).Lawful ∧
      cs = (Piece.number whole fraction).text := by
  cases h with
  | whole hne hds => exact ⟨cs, [], .number hne hds nofun, rfl⟩
  | @fraction ds es hne hds hsome hes =>
      refine ⟨ds, es, .number hne hds hes, ?_⟩
      rw [Piece.text, if_neg hsome]

namespace Tree

end Tree

namespace Token

namespace IsHead

variable {op op' : Token} {m m' : Mark}

end IsHead

end Token

namespace Tree

/-! ## Expressions and statements -/

end Tree

end RoxLang
