namespace QueuePair

/-- A path as it was written. -/
structure Path where
  text : String
deriving DecidableEq, Repr

namespace Path

/-- A name inside a directory. Nothing is put between them if the directory is empty or already
ends in a separator. -/
def join (dir : Path) (name : String) : Path :=
  if dir.text.isEmpty || dir.text.toList.getLast? = some '/' then ⟨dir.text ++ name⟩
  else ⟨dir.text ++ "/" ++ name⟩

def pieces : List Char → List (List Char)
  | [] => [[]]
  | c :: rest =>
    if c = '/' then [] :: pieces rest
    else match pieces rest with
      | [] => [[c]]
      | p :: ps => (c :: p) :: ps

/-- The parts of a path. A leading separator is the part `/`, a leading `.` is kept, and all
other empty and `.` pieces name nothing. -/
def parts (p : Path) : List String :=
  let keep (ps : List (List Char)) := (ps.filter fun x => x ≠ [] ∧ x ≠ ['.']).map String.ofList
  match pieces p.text.toList with
  | [] => []
  | first :: rest =>
    if first = [] then (if rest = [] then [] else "/" :: keep rest)
    else if first = ['.'] then "." :: keep rest
    else String.ofList first :: keep rest

def same (p q : Path) : Bool :=
  p.parts = q.parts

end Path

end QueuePair
