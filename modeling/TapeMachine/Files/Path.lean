/-!
File paths: components between slashes. Empty components and single dots stand for the directory
they follow.
-/

namespace TapeMachine.Files

def components (path : String) : List String :=
  (path.toList.splitOn '/').map String.ofList

/-- Whether a path begins at the root. -/
def isAbsolute (path : String) : Bool :=
  path.toList.head? = some '/'

/-- Whether a component stands for the directory it follows. -/
def isSame (component : String) : Bool :=
  component == "" || component == "."

/-- The last component of a path, if it names a file. -/
def fileName? (path : String) : Option String :=
  match ((components path).filter (!isSame ·)).getLast? with
  | some ".." | none => none
  | some name => some name

/-- A file name up to its last dot. A dot at its very front does not count. -/
def stem (name : String) : String :=
  let ending := name.toList.reverse.takeWhile (· ≠ '.')
  let before := name.toList.take (name.length - ending.length - 1)
  if before.isEmpty then name else String.ofList before

/-- The file name of a path without its extension. -/
def stem? (path : String) : Option String :=
  (fileName? path).map stem

end TapeMachine.Files
