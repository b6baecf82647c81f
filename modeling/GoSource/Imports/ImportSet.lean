import GoSource.Model.Decl

/-!
# Sets of imports

Imports in the order in which they were found, no two of them the same.
-/

namespace GoSource

/-- Imports that differ in alias, path or comment, in insertion order. -/
structure ImportSet where
  entries : List Import := []
  distinct : entries.Pairwise fun i j => i.same j = false := by exact .nil

namespace ImportSet

/-- Whether the set has the same import, whatever its annotations. -/
def contains (s : ImportSet) (i : Import) : Bool := s.entries.any (·.same i)

/-- The set with `i` at its end, unless the same import is there already. -/
def insert? (s : ImportSet) (i : Import) : Option ImportSet :=
  if h : s.contains i = true then none
  else some {
    entries := s.entries ++ [i]
    distinct := List.pairwise_append.2 ⟨s.distinct, List.pairwise_singleton .., by
      simpa [contains] using h⟩ }

def insert (s : ImportSet) (i : Import) : ImportSet := (s.insert? i).getD s

/-- Inserts one import after another. -/
def insertAll (s : ImportSet) (is : List Import) : ImportSet := is.foldl insert s

end ImportSet

end GoSource
