import PythonLint.Check.Report
import PythonLint.Tree.Classify

/-!
# The pass over the bracket tree

There are no blanks right inside brackets, before the separators between them, or before the
brackets of a call or an index.
-/

namespace PythonLint

/-- A place inside a bracket group where blanks may not stand. -/
inductive Spot where
  | outside
  /-- Between the brackets of a group without contents. -/
  | hollow
  | first
  /-- Before the closing bracket, after contents. -/
  | last
  | separator (text : String)
  /-- Before the colon between a key and its value. -/
  | keySeparator
deriving DecidableEq, Repr

namespace Spot

/-- One if the condition holds, zero otherwise. -/
def once (condition : Bool) : Nat :=
  if condition then 1 else 0

/-- How often blanks stand at a place of a group. -/
def count (node : Node) : Spot → Nat
  | outside => once (node.opening?.any Node.followsBlank)
  | hollow => once (node.contents.isEmpty && node.closing?.any Node.followsBlank)
  | first => once (node.contents.head?.any Node.followsBlank)
  | last => once (!node.contents.isEmpty && node.closing?.any Node.followsBlank)
  | separator text => node.contents.countP fun child => child.isOp text && child.followsBlank
  | keySeparator => (keySeparators node.contents).countP Node.followsBlank

end Spot

/-- The places of each kind of group where blanks may not stand, in the order in which they are
reported, and what is said of them. -/
def spacingTable : List (BranchKind × Spot × String) :=
  [ (.listDisplay, .hollow, "in empty list"),
    (.listDisplay, .first, "at the beginning of a list"),
    (.listDisplay, .last, "at the end of a list"),
    (.listDisplay, .separator ",", "before comma in list"),
    (.subscript, .outside, "before slicing or indexing"),
    (.subscript, .first, "at the beginning of slicing or indexing"),
    (.subscript, .last, "at the end of slicing or indexing"),
    (.slice, .outside, "before slicing or indexing"),
    (.slice, .first, "at the beginning of slicing"),
    (.slice, .last, "at the end of slicing"),
    (.dictDisplay, .hollow, "in empty dict"),
    (.dictDisplay, .first, "at beginning of dict"),
    (.dictDisplay, .last, "at end of dict"),
    (.dictDisplay, .keySeparator, "before colon in dict"),
    (.setDisplay, .first, "at beginning of set"),
    (.setDisplay, .last, "at end of set"),
    (.setDisplay, .separator ",", "before comma in set"),
    (.tupleDisplay, .first, "at beginning of tuple"),
    (.tupleDisplay, .last, "at end of tuple"),
    (.tupleDisplay, .separator ",", "before comma in tuple"),
    (.callArguments, .outside, "before arguments of function call"),
    (.callArguments, .hollow, "in arguments of function call"),
    (.callArguments, .first, "at beginning of function call arguments"),
    (.callArguments, .last, "at end of function call arguments"),
    (.callArguments, .separator ",", "before comma in function call arguments") ]

def extraneousBlank (reporter : Reporter) (node : Node) (place : String) : Warning :=
  reporter.onLine .extraneousWhitespace ("Extraneous whitespace " ++ place ++ ".") node.start.line

def nodeWarnings (reporter : Reporter) (node : Node) : List Warning :=
  match node with
  | .leaf _ _ => []
  | .branch kind _ _ _ _ =>
    (checksFor spacingTable kind).flatMap fun (spot, place) =>
      List.replicate (spot.count node) (extraneousBlank reporter node place)

/-- The warnings about blanks in the brackets of a tree, inner groups first. -/
def checkTree (reporter : Reporter) (tree : Node) : List Warning :=
  tree.postOrder.flatMap (nodeWarnings reporter)

end PythonLint
