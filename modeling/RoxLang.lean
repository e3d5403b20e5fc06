import RoxLang.Main
import RoxLang.Scope.Forest
import RoxLang.Tree.Equality
import RoxLang.Proofs.FrontEnds
import RoxLang.Proofs.Scope.History
import RoxLang.Proofs.Run.Refinement
import RoxLang.Proofs.Tree.Alike
import RoxLang.Proofs.Run.Alongside
import RoxLang.Proofs.Run.Correspondence
import RoxLang.Proofs.Run.Discipline
import RoxLang.Proofs.Run.Kinds
import RoxLang.Proofs.Run.Sight
import RoxLang.Proofs.Grammar.Lower
import RoxLang.Proofs.Automaton.Joined
import RoxLang.Proofs.Automaton.Closing
import RoxLang.Proofs.Automaton.Context
import RoxLang.Proofs.Joined
import RoxLang.Proofs.Unfinished
import RoxLang.Proofs.Halting
import RoxLang.Proofs.Automaton.Refusal
import RoxLang.Proofs.Blame
import RoxLang.Proofs.Descent.Parallel
import RoxLang.Proofs.Descent.Progress
import RoxLang.Proofs.Descent.Recovery
import RoxLang.Proofs.Lexeme.Written
import RoxLang.Proofs.Tree.Printed
import RoxLang.Proofs.Brackets
import RoxLang.Proofs.Evaluations
import RoxLang.Proofs.Run.Documented
import RoxLang.Proofs.Prompt
import RoxLang.Proofs.Number.ReadBack
import RoxLang.Proofs.Descent.FirstFault
import RoxLang.Proofs.Descent.Discarded
import RoxLang.Proofs.Descent.Kinds
import RoxLang.Proofs.Descent.Walk
import RoxLang.Proofs.Tree.Legible
