import ContextFree.Grammar.Spelling

/-! # A sample grammar

A grammar that the conversion to normal form has something to do with at every stage.
-/

namespace ContextFree

/-- The names and right sides of the sample grammar. -/
def sampleSpelling : Spelling where
  nonterminals := ["S", "A", "B", "C", "D"]
  terminals := ["a", "b"]
  productions :=
    [("S", ["AC", "bA", "B", "aA"]), ("A", ["ε", "aS", "ABab"]), ("B", ["a", "bS"]),
      ("C", ["abC"]), ("D", ["AB"])]

/-- The sample grammar. -/
def sampleGrammar : Except Fault Grammar :=
  sampleSpelling.grammar "S"

end ContextFree
