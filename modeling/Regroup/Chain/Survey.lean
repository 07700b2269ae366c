import Regroup.Chain.PairTable
import Regroup.Log

set_option autoImplicit false

namespace Regroup

def shortestReordered : Nat := 3

structure RankProfile where
  lowest : Nat
  lowestCount : Nat
  highest : Nat
  highestCount : Nat
  oneBlock : Bool
deriving DecidableEq, Repr

def Chain.profile (c : Chain) (facts : Facts) : RankProfile :=
  let ranks := c.leaves.map facts.rank
  let lowest := ranks.min?.getD 0
  let highest := ranks.max?.getD 0
  { lowest
    lowestCount := ranks.count lowest
    highest
    highestCount := ranks.count highest
    oneBlock := c.leaves.all fun s => (facts.site? s.value).any (·.block = c.root.block) }

def RankProfile.shareLimit (p : RankProfile) : Nat := if p.oneBlock then 8 else 3

-- The policy for a chain of `length` leaves. A single leaf above the lowest rank is better served
-- by sorting than by sharing. Sorting gains nothing where all ranks are equal, nor where a single
-- leaf lies below the highest rank.
def RankProfile.policy (p : RankProfile) (length : Nat) (sharing : Bool) : Policy where
  sharePair := sharing && length ≤ p.shareLimit && p.lowestCount + 1 ≠ length
  sortByRank := p.lowestCount ≠ length && p.highestCount + 1 ≠ length

def Policy.isActive (p : Policy) : Bool := p.sharePair || p.sortByRank

def RankProfile.policyFor (p : RankProfile) (length : Nat) (sharing : Bool) : Except Trap Policy :=
  if length = 0 ∧ (sharing ∨ p.lowestCount ≠ 0) then .error .emptyChain
  else .ok (p.policy length sharing)

structure Found where
  dest : Value
  tree : Tree Arith Scalar
  chain : Chain
deriving DecidableEq, Repr

def Facts.findFrom (facts : Facts) (f : Func) (absorbed : List Value) : List (Site × Arith) → List Found
  | [] => []
  | (site, a) :: rest =>
      if a.dest ∉ absorbed ∧ facts.live.has a.dest ∧ a.regroupable then
        let tree := facts.rootTree f a
        ⟨a.dest, tree, Chain.ofTree site a.op tree⟩ ::
          facts.findFrom f (interior tree ++ absorbed) rest
      else facts.findFrom f absorbed rest

def Facts.findAll (facts : Facts) (f : Func) : List Found := facts.findFrom f [] f.ariths.reverse

structure Candidate where
  dest : Value
  chain : Chain
  profile : RankProfile
deriving DecidableEq, Repr

def Found.candidate (found : Found) (facts : Facts) (sharing : Bool) : Candidate :=
  let profile := found.chain.profile facts
  { dest := found.dest
    chain := { found.chain with policy := profile.policy found.chain.length sharing }
    profile }

structure Survey where
  found : List Found
  candidates : List Candidate
  recorded : Nat
  table : Option PairTable
deriving DecidableEq, Repr

def Func.survey (f : Func) (facts : Facts) (table : Option PairTable) : Except Trap Survey := do
  f.checkIds
  let found := facts.findAll f
  let short := found.filter (·.chain.length ≤ recordLimit)
  let long := found.filter (shortestReordered ≤ ·.chain.length)
  return {
    found
    candidates := long.map (·.candidate facts table.isSome)
    recorded := if table.isSome then short.length else 0
    table := table.map fun t => found.foldl (fun t found => t.record found.chain) t }

def Survey.queue (s : Survey) : List Chain :=
  (s.candidates.map Candidate.chain).filter (·.policy.isActive)

def Candidate.log (name : String) (c : Candidate) : LogLine :=
  let p := c.profile
  let place := if p.oneBlock then " local" else ""
  ⟨.trace, String.join
    [s!"reassoc: {name} chain at {valueText c.dest}: {c.chain.text}",
     s!" ranks {p.lowestCount}x{p.lowest}..{p.highestCount}x{p.highest}{place}",
     s!" cse={c.chain.policy.sharePair} sort={c.chain.policy.sortByRank}"]⟩

def Survey.log (s : Survey) (name : String) : List LogLine := s.candidates.map (Candidate.log name)

end Regroup
