import FiniteState.Alphabet.Descending
import FiniteState.Determinization
import FiniteState.Dfa.Convert
import FiniteState.Dfa.Prune
import FiniteState.Minimization
import FiniteState.Nfa.Combine
import FiniteState.Proofs.Canonical
import FiniteState.Proofs.Coarsest
import FiniteState.Proofs.Enumeration
import FiniteState.Proofs.Minimality
import FiniteState.Proofs.Nfa.Trace
import FiniteState.Proofs.Passes
import FiniteState.UnionFind.Call
import FiniteState.Proofs.Continuations
import FiniteState.Proofs.Tags
import FiniteState.Proofs.Pruning
import FiniteState.Proofs.Redeterminization
import FiniteState.Proofs.PruneMinimize
import FiniteState.Proofs.UnionFind.Calls
import FiniteState.Proofs.UnionFind.History
import FiniteState.Proofs.UnionFind.Queries
import FiniteState.Proofs.Agreement
import FiniteState.Proofs.Conversion
import FiniteState.Proofs.Nfa.Reading
import FiniteState.Proofs.Made
import FiniteState.Proofs.Listing
import FiniteState.Proofs.Strict.Classes
import FiniteState.Proofs.Strict.Dfa
import FiniteState.Proofs.Strict.Nfa
import FiniteState.Proofs.Validity
import FiniteState.Proofs.Limit
import FiniteState.Proofs.Nfa.Language
import FiniteState.Proofs.Rounds
import FiniteState.Proofs.Nfa.Described
import FiniteState.Proofs.Verdict
import FiniteState.Proofs.Restriction
import FiniteState.Proofs.Closure
import FiniteState.Proofs.Vocabulary
import FiniteState.Proofs.UnionFind.Balance
import FiniteState.Proofs.UnionFind.Groups
import FiniteState.Proofs.UnionFind.Grown
import FiniteState.Proofs.ExactRound
import FiniteState.Proofs.Representatives
