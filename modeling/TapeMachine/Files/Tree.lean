import TapeMachine.Fault
import TapeMachine.Files.Path

/-!
Files held in memory, with a working directory among them, and what reading a path finds there.
-/

namespace TapeMachine.Files

inductive Entry where
  | file (content : ByteArray)
  | directory

/-- The working directory, and the entries by their components from the root on. -/
structure Tree where
  home : List String
  entries : List (List String × Entry)

/-- The greatest size of a component in bytes. -/
def maxNameSize : Nat := 255

/-- The greatest size of a path in bytes. -/
def maxPathSize : Nat := 4095

namespace Tree

/-- Where an entry with a given path belongs. -/
def placeIn (home : List String) (path : String) : List String :=
  (if isAbsolute path then [] else home) ++ (components path).filter (!isSame ·)

/-- The later of two entries at one place counts. -/
def ofEntries (home : String) (entries : List (String × Entry)) : Tree :=
  let home := placeIn [] home
  ⟨home, entries.reverse.map fun entry => (placeIn home entry.1, entry.2)⟩

/-- The entry at a place. A directory exists when the working directory or an entry is in it. -/
def entry? (tree : Tree) (place : List String) : Option Entry :=
  match tree.entries.lookup place with
  | some entry => some entry
  | none =>
      if place.isPrefixOf tree.home || tree.entries.any (place.isPrefixOf ·.1) then some .directory
      else none

/-- Goes from one place on to the next component. Two dots at the root stay there. -/
def follow (tree : Tree) (place : List String) (component : String) :
    Except ReadProblem (List String) :=
  match tree.entry? place with
  | none => .error .missing
  | some (.file _) => .error .notDirectory
  | some .directory =>
      if isSame component then .ok place
      else if component == ".." then .ok place.dropLast
      else if maxNameSize < component.utf8ByteSize then .error .longName
      else .ok (place ++ [component])

/-- Reads the file that a path leads to. -/
def read (tree : Tree) (path : String) : Except ReadProblem ByteArray := do
  if path.toList.contains '\x00' then
    throw .nulInName
  if path.isEmpty then
    throw .missing
  if maxPathSize < path.utf8ByteSize then
    throw .longName
  let place ← (components path).foldlM tree.follow (if isAbsolute path then [] else tree.home)
  match tree.entry? place with
  | none => throw .missing
  | some .directory => throw .isDirectory
  | some (.file content) => return content

end Tree

end TapeMachine.Files
