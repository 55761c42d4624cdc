/-!
# Paths

A path is shown without the parts that lead nowhere: empty parts, and parts that are a single dot.
Two slashes in front are kept as they are, since they may mean something else than one; any other
number of slashes in front is the same as one.
-/

namespace Lox.Path

/-- The parts of a path that lead somewhere. -/
def parts (path : String) : List String :=
  (path.splitOn "/").filter fun p ↦ p ≠ "" ∧ p ≠ "."

/-- The slashes in front of a path. -/
def root (path : String) : String :=
  match (path.toList.takeWhile (· = '/')).length with
  | 0 => ""
  | 2 => "//"
  | _ => "/"

/-- The shortest form of a path that leads to the same place. -/
def normalize (path : String) : String :=
  let whole := root path ++ "/".intercalate (parts path)
  if whole = "" then "." else whole

end Lox.Path
