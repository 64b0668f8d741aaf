import ContextFree.Chains
import ContextFree.Omission
import ContextFree.Trim
import ContextFree.UnitRules

/-! # The stages of normalization

The conversion to Chomsky Normal Form has five stages. Each of them transforms the grammar and
says what it did; checkpoints show the grammar under a title.
-/

namespace ContextFree.Normalization

/-- A step of the conversion. -/
inductive Stage where
  /-- Epsilon rules are eliminated. -/
  | epsilon
  /-- Unit rules are eliminated. -/
  | unit
  /-- Heads that cannot be reached are removed. -/
  | reachability
  /-- Heads that derive no string are removed. -/
  | productivity
  /-- Right sides are brought to at most two symbols. -/
  | binarization
  deriving DecidableEq, Repr

/-- What a stage did. -/
inductive Details where
  /-- The heads that derive the empty string. -/
  | nullable (heads : SymbolSet)
  /-- The unit closure of each head. -/
  | closures (closures : UnitClosures)
  /-- The heads that were removed. -/
  | removed (heads : SymbolSet)
  /-- The heads that were removed, and those that could not be reached any more. -/
  | trimmed (removed unreachable : SymbolSet)
  /-- The nonterminals that were minted. -/
  | minted (wrappers : Wrappers) (chains : List Name)

/-- The grammar at one point of the conversion. -/
structure Checkpoint where
  title : String
  grammar : Grammar

namespace Stage

/-- The stages in the order of the conversion. -/
def all : List Stage :=
  [epsilon, unit, reachability, productivity, binarization]

/-- The short name of a stage. -/
def name : Stage → String
  | epsilon => "epsilon"
  | unit => "unit"
  | reachability => "reachability"
  | productivity => "productivity"
  | binarization => "binarization"

/-- The title of the grammar after a stage. -/
def title : Stage → String
  | epsilon => "1. After eliminating ε-productions"
  | unit => "2. After eliminating unit productions"
  | reachability => "3. After eliminating inaccessible symbols"
  | productivity => "4. After eliminating non-productive symbols"
  | binarization => "5b. After breaking down into CNF"

/-- The title of the grammar in the middle of the last stage. -/
def isolatedTitle : String :=
  "5a. After replacing terminals with nonterminals"

/-- Runs a stage. Gives what it did and the checkpoints on its way. -/
def run : Stage → Transform (Details × List Checkpoint)
  | epsilon => return (.nullable (← Transform.removeEpsilonRules), [])
  | unit => return (.closures (← Transform.removeUnaryRules), [])
  | reachability => return (.removed (← Transform.removeUnreachable), [])
  | productivity => do
    let removed ← Transform.removeUnproductive
    return (.trimmed removed (← Transform.removeUnreachable), [])
  | binarization => Minting.withSupply {} do
    let wrappers ← Minting.isolateTerminals
    let isolated := (← get).grammar
    return (.minted wrappers (← Minting.shortenRules), [⟨isolatedTitle, isolated⟩])

/-- The stage of the given name. -/
def ofName? (name : String) : Option Stage :=
  all.find? (·.name = name)

end Stage

end ContextFree.Normalization
