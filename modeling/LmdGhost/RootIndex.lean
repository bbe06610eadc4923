import LmdGhost.Root
/-!
Positions of roots in a list of nodes. Two indexes that give every root the same position are equal.
-/

namespace LmdGhost

abbrev RootIndex := Std.ExtTreeMap Root Nat

namespace RootIndex

/-- The index without the roots of nodes that are taken away. -/
def forget (index : RootIndex) (roots : List Root) : RootIndex :=
  roots.foldl (fun index root => index.erase root) index

/-- The index after `count` nodes in front of the indexed ones are gone. -/
def shiftDown (index : RootIndex) (count : Nat) : RootIndex :=
  index.map fun _ position => position - count

/-- The positions in order of their roots. -/
def entries (index : RootIndex) : List (Root × Nat) :=
  index.toList

end RootIndex

end LmdGhost
