import RouteCompiler.Files.FileSystem

/-!
# Inventories

A file system can be set up from a list of files, and listed as one.
-/

namespace RouteCompiler.FileSystem

/-- Put a file where a path leads, with the directories above it. -/
def install (fs : FileSystem) (path content : String) : FileSystem :=
  let fs := match Path.parent? path with
    | some above => (fs.makeDirectories above).2
    | none => fs
  match fs.write path content with
  | .ok fs => fs
  | .error _ => fs

/-- A path that leads from a place to a place below it. -/
def pathFrom (place below : Place) : String :=
  Text.joinWith "/" (below.drop place.length)

/-- Every file below a place with its content, and every empty directory, by the
paths that lead there from the place. -/
def inventory (fs : FileSystem) (place : Place) : List (String × Option String) :=
  fs.nodes.entries.filterMap fun (below, node) =>
    if place.isPrefixOf below && below != place then
      match node with
      | .file content => some (pathFrom place below, some content)
      | .directory =>
          if fs.isEmptyAt below then some (pathFrom place below, none) else none
    else none

end RouteCompiler.FileSystem
