/-
# `RoxLang.Tree.Equality` — trees can be compared

Equality of trees is that of their nodes and of every token in them, lines included.
-/
import RoxLang.Tree.Basic

namespace RoxLang.Tree

mutual

/-- Decide whether two trees are equal. -/
def decEq : (a b : Tree) → Decidable (a = b)
  | .literal v, b => by
      cases b with
      | literal w => exact decidable_of_iff (v = w) (by simp)
      | _ => exact isFalse nofun
  | .unary op e, b => by
      cases b with
      | unary op' e' =>
          have := e.decEq e'
          exact decidable_of_iff (op = op' ∧ e = e') (by simp)
      | _ => exact isFalse nofun
  | .binary l op r, b => by
      cases b with
      | binary l' op' r' =>
          have := l.decEq l'
          have := r.decEq r'
          exact decidable_of_iff (l = l' ∧ op = op' ∧ r = r') (by simp)
      | _ => exact isFalse nofun
  | .grouping e, b => by
      cases b with
      | grouping e' =>
          have := e.decEq e'
          exact decidable_of_iff (e = e') (by simp)
      | _ => exact isFalse nofun
  | .reference n, b => by
      cases b with
      | reference n' => exact decidable_of_iff (n = n') (by simp)
      | _ => exact isFalse nofun
  | .assign n e, b => by
      cases b with
      | assign n' e' =>
          have := e.decEq e'
          exact decidable_of_iff (n = n' ∧ e = e') (by simp)
      | _ => exact isFalse nofun
  | .discard e, b => by
      cases b with
      | discard e' =>
          have := e.decEq e'
          exact decidable_of_iff (e = e') (by simp)
      | _ => exact isFalse nofun
  | .print e, b => by
      cases b with
      | print e' =>
          have := e.decEq e'
          exact decidable_of_iff (e = e') (by simp)
      | _ => exact isFalse nofun
  | .declare n, b => by
      cases b with
      | declare n' => exact decidable_of_iff (n = n') (by simp)
      | _ => exact isFalse nofun
  | .define n e, b => by
      cases b with
      | define n' e' =>
          have := e.decEq e'
          exact decidable_of_iff (n = n' ∧ e = e') (by simp)
      | _ => exact isFalse nofun
  | .block ts, b => by
      cases b with
      | block ts' =>
          have := decEqAll ts ts'
          exact decidable_of_iff (ts = ts') (by simp)
      | _ => exact isFalse nofun
  | .foreign name, b => by
      cases b with
      | foreign name' => exact decidable_of_iff (name = name') (by simp)
      | _ => exact isFalse nofun

/-- Decide whether two lists of trees are equal. -/
def decEqAll : (as bs : List Tree) → Decidable (as = bs)
  | [], [] => isTrue rfl
  | [], _ :: _ => isFalse nofun
  | _ :: _, [] => isFalse nofun
  | a :: as, b :: bs => by
      have := a.decEq b
      have := decEqAll as bs
      exact decidable_of_iff (a = b ∧ as = bs) (by simp)

end

instance : DecidableEq Tree := decEq

end RoxLang.Tree
