/-!
# Problem families

The families of combinatorial problems that are turned into quadratic objectives.
-/

namespace QuantumWorkbench

/-- A family of problems. -/
inductive ProblemKind where
  | maxCut | tsp | portfolio | knapsack | vertexCover | graphColoring | sat | genericQubo
  deriving DecidableEq, Repr

namespace ProblemKind

/-- The families in their usual order. -/
def all : List ProblemKind :=
  [maxCut, tsp, portfolio, knapsack, vertexCover, graphColoring, sat, genericQubo]

/-- The name of a family. -/
def name : ProblemKind → String
  | maxCut => "max_cut"
  | tsp => "tsp"
  | portfolio => "portfolio"
  | knapsack => "knapsack"
  | vertexCover => "vertex_cover"
  | graphColoring => "graph_coloring"
  | sat => "sat"
  | genericQubo => "generic_qubo"

/-- Whether a character is left out when names are compared. -/
def isSeparator (c : Char) : Bool := c = '_' || c = '-' || c = ' '

/-- A letter in lower case. The sign for the unit kelvin is the one letter beyond ASCII whose lower
case is an ASCII letter. -/
def lowerLetter (c : Char) : Char := if c.toNat = 0x212A then 'k' else c.toLower

/-- What is compared of a name: its characters in lower case without separators. -/
def key (text : String) : List Char := (text.toList.filter fun c => !isSeparator c).map lowerLetter

/-- The family of a name; case and separators do not matter. -/
def ofName? (text : String) : Option ProblemKind := all.find? fun k => key k.name = key text

end ProblemKind

end QuantumWorkbench
