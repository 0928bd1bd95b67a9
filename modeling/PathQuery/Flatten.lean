import PathQuery.Ordered
import PathQuery.Path.Escape
import PathQuery.Tree

/-!
# Flattening documents

The leaves of a document, each under the text of its path. With escapes the text of
a path is a query for its leaf.
-/

namespace PathQuery

namespace Tree

variable {α : Type} [Tree α]

/-- The leaves below a node with their paths from it, in the order of the entries. An empty object
or array is a leaf. -/
def leaves (node : α) : List (List Key × α) :=
  (entries node).attach.flatMap fun ⟨(key, child), _⟩ =>
    if (entries child).isEmpty then [([key], child)]
    else (leaves child).map fun (path, leaf) => (key :: path, leaf)
termination_by size node
decreasing_by exact size_lt_of_mem ‹_›

end Tree

/-- The text of a path: each key behind a slash, with its special characters escaped if asked. -/
def pathText (escaped : Bool) (path : List Key) : String :=
  path.foldl (fun text key =>
    text ++ "/" ++ if escaped then Path.escapeName key.text else key.text) ""

/-- The leaves of a document under the texts of their paths, each with its path. A text that comes
again keeps its place and takes the later leaf. -/
def flatten {α : Type} [Tree α] (root : α) (escaped : Bool) :
    List (String × List Key × α) :=
  Ordered.ofPairs ((Tree.leaves root).map fun (path, leaf) =>
    (pathText escaped path, path, leaf))

end PathQuery
