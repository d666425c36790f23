import RouteCompiler.Files.Path
import RouteCompiler.Ordered.Map

/-!
# File systems

A file system maps absolute paths, as lists of names, to files and directories.
Operations take paths as texts and walk through them as they are written: every
step must lead from a directory, and two dots lead to its parent.

An operation that fails may have done a part of its work, so the state is kept
beside the outcome.
-/

namespace RouteCompiler

/-- Why an operation on files fails. -/
inductive FileFault where
  | notFound
  | busy
  | alreadyExists
  | notDirectory
  | isDirectory
  | invalidArgument
  | nameTooLong
  | notEmpty
  /-- A path holds a character that no path may hold. -/
  | nulInPath
  /-- Anything else, with its text. -/
  | other (text : String)
  deriving DecidableEq, Repr

namespace FileFault

/-- The text of a fault. -/
def message : FileFault → String
  | notFound => "No such file or directory (os error 2)"
  | busy => "Device or resource busy (os error 16)"
  | alreadyExists => "File exists (os error 17)"
  | notDirectory => "Not a directory (os error 20)"
  | isDirectory => "Is a directory (os error 21)"
  | invalidArgument => "Invalid argument (os error 22)"
  | nameTooLong => "File name too long (os error 36)"
  | notEmpty => "Directory not empty (os error 39)"
  | nulInPath => "file name contained an unexpected NUL byte"
  | other text => text

end FileFault

/-- What reading the file at a path gives. -/
abbrev FileReader := String → Except FileFault String

/-- What a path leads to. -/
inductive FileNode where
  | file (content : String)
  | directory
  deriving DecidableEq, Repr

/-- An absolute path as the list of its names. -/
abbrev Place := List String

/-- Files and directories, and where relative paths begin.  The root is always a
directory. -/
structure FileSystem where
  nodes : SortedMap Place FileNode
  workingDirectory : Place

namespace FileSystem

/-- A file system with nothing but the root. -/
def empty : FileSystem :=
  ⟨.empty, []⟩

/-! ## Places -/

/-- What is at a place. -/
def node? (fs : FileSystem) (place : Place) : Option FileNode :=
  if place.isEmpty then some .directory else fs.nodes.find? place

/-- Put a file or a directory at a place. -/
def put (fs : FileSystem) (place : Place) (node : FileNode) : FileSystem :=
  { fs with nodes := fs.nodes.insert place node }

/-- Keep what is at the places that pass a test. -/
def keep (fs : FileSystem) (test : Place → Bool) : FileSystem :=
  { fs with nodes := ⟨fs.nodes.entries.filter fun e => test e.1, fs.nodes.ascending.filter _⟩ }

/-- The names directly below a place. -/
def namesAt (fs : FileSystem) (place : Place) : List String :=
  fs.nodes.keys.filterMap fun p =>
    if p.dropLast = place then p.getLast? else none

/-- Whether nothing is below a place. -/
def isEmptyAt (fs : FileSystem) (place : Place) : Bool :=
  (fs.namesAt place).isEmpty

/-! ## Walking -/

/-- No name is longer, in bytes. -/
def maxNameLength : Nat := 255

/-- No path is longer, in bytes. -/
def maxPathLength : Nat := 4095

/-- Walk from a place through the pieces of a path. -/
def walk (fs : FileSystem) : Place → List (List Char) → Except FileFault Place
  | place, [] => .ok place
  | place, piece :: rest =>
      if fs.node? place = some .directory then
        if Path.isTrivial piece then fs.walk place rest
        else if piece = ['.', '.'] then fs.walk place.dropLast rest
        else if maxNameLength < Text.byteLength piece then .error .nameTooLong
        else
          let next := place ++ [String.ofList piece]
          if (fs.node? next).isSome then fs.walk next rest else .error .notFound
      else .error .notDirectory

/-- Where the walk through a path begins. -/
def start (fs : FileSystem) (path : String) : Place :=
  if Path.isAbsolute path then [] else fs.workingDirectory

/-- A text that may be walked. -/
def checkPath (path : String) : Except FileFault Unit :=
  if path.toList.contains '\x00' then .error .nulInPath
  else if path.isEmpty then .error .notFound
  else if maxPathLength < path.utf8ByteSize then .error .nameTooLong
  else .ok ()

/-- The place that a path leads to; something is there. -/
def locate (fs : FileSystem) (path : String) : Except FileFault Place := do
  checkPath path
  fs.walk (fs.start path) (Path.pieces path)

/-- What the last piece of a path is. -/
inductive Last where
  /-- A name, with whether slashes follow it. -/
  | name (value : List Char) (slash : Bool)
  /-- One dot, or the root. -/
  | dot
  /-- Two dots. -/
  | dots
  deriving DecidableEq, Repr

/-- The last piece of a path, and the pieces before it. -/
def splitLast (path : String) : List (List Char) × Last :=
  let reversed := (Path.pieces path).reverse
  match reversed.dropWhile (· == []) with
  | [] => ([], .dot)
  | piece :: before =>
      let last :=
        if piece = ['.'] then .dot
        else if piece = ['.', '.'] then .dots
        else Last.name piece (reversed.head? == some [])
      (before.reverse, last)

/-- The directory that holds what a path leads to, which need not exist, and the
last piece of the path. -/
def locateParent (fs : FileSystem) (path : String) : Except FileFault (Place × Last) := do
  checkPath path
  let (before, last) := splitLast path
  let directory ← fs.walk (fs.start path) before
  match last with
  | .name value _ =>
      if fs.node? directory = some .directory then
        if maxNameLength < Text.byteLength value then .error .nameTooLong
        else .ok (directory, last)
      else .error .notDirectory
  | _ => .ok (directory, last)

/-! ## Looking -/

/-- Whether a path leads to something. -/
def exists? (fs : FileSystem) (path : String) : Bool :=
  match fs.locate path with
  | .ok _ => true
  | .error _ => false

/-- Whether a path leads to a directory. -/
def isDirectory (fs : FileSystem) (path : String) : Bool :=
  match fs.locate path with
  | .ok place => fs.node? place == some .directory
  | .error _ => false

/-- The content of a file. -/
def read (fs : FileSystem) (path : String) : Except FileFault String := do
  let place ← fs.locate path
  match fs.node? place with
  | some (.file content) => .ok content
  | some .directory => .error .isDirectory
  | none => .error .notFound

/-- The names in a directory. -/
def list (fs : FileSystem) (path : String) : Except FileFault (List String) := do
  let place ← fs.locate path
  match fs.node? place with
  | some .directory => .ok (fs.namesAt place)
  | _ => .error .notDirectory

/-! ## Changing -/

/-- Write a file, which may exist. -/
def write (fs : FileSystem) (path content : String) : Except FileFault FileSystem := do
  match ← fs.locateParent path with
  | (directory, .name value false) =>
      let place := directory ++ [String.ofList value]
      if fs.node? place = some .directory then .error .isDirectory
      else .ok (fs.put place (.file content))
  | _ => .error .isDirectory

/-- Make a directory, which may not exist. -/
def makeDirectory (fs : FileSystem) (path : String) : Except FileFault FileSystem := do
  match ← fs.locateParent path with
  | (directory, .name value _) =>
      let place := directory ++ [String.ofList value]
      if (fs.node? place).isSome then .error .alreadyExists
      else .ok (fs.put place .directory)
  | _ => .error .alreadyExists

/-- Make a directory and the directories above it; `steps` bounds the number of
directories above.  The outcome comes with the state in which it leaves the
file system. -/
def makeDirectoriesWithin : Nat → FileSystem → String → Except FileFault Unit × FileSystem
  | steps, fs, path =>
      if path.isEmpty then (.ok (), fs)
      else
        match fs.makeDirectory path with
        | .ok fs => (.ok (), fs)
        | .error .notFound =>
            match steps, Path.parent? path with
            | steps + 1, some above =>
                match makeDirectoriesWithin steps fs above with
                | (.error fault, fs) => (.error fault, fs)
                | (.ok (), fs) =>
                    match fs.makeDirectory path with
                    | .ok fs => (.ok (), fs)
                    | .error fault =>
                        (if fs.isDirectory path then .ok () else .error fault, fs)
            | _, _ => (.error .notFound, fs)
        | .error fault => (if fs.isDirectory path then .ok () else .error fault, fs)

/-- Make a directory and the directories above it, unless they exist. -/
def makeDirectories (fs : FileSystem) (path : String) : Except FileFault Unit × FileSystem :=
  makeDirectoriesWithin (Path.pieces path).length fs path

/-- Remove a directory with everything below it.  A path that ends in dots
names the directory in a way in which it cannot be removed: only what is below
it is. -/
def removeTree (fs : FileSystem) (path : String) : Except FileFault Unit × FileSystem :=
  match fs.locate path with
  | .error fault => (.error fault, fs)
  | .ok place =>
      if fs.node? place = some .directory then
        let emptied := fs.keep fun p => p == place || !place.isPrefixOf p
        match (splitLast path).2 with
        | .name _ _ => (.ok (), emptied.keep (· != place))
        | .dot => (.error (if place.isEmpty then .busy else .invalidArgument), emptied)
        | .dots => (.error .notEmpty, emptied)
      else (.error .notDirectory, fs)

/-- A place seen after what is at one place has moved to another. -/
def movedPlace (source target place : Place) : Place :=
  if source.isPrefixOf place then target ++ place.drop source.length else place

/-- Move what is at one place to another, with everything below it. -/
def move (fs : FileSystem) (source target : Place) : FileSystem :=
  { fs with
    nodes := .ofList (fs.nodes.entries.map fun e => (movedPlace source target e.1, e.2)) }

/-- Whether what is moved may take a place: nothing is there, or a file where a
file is moved, or an empty directory where a directory is moved. -/
def checkTarget (fs : FileSystem) (movesDirectory slash : Bool) (target : Place) :
    Except FileFault Unit :=
  match fs.node? target, movesDirectory with
  | none, true => .ok ()
  | none, false => if slash then .error .notDirectory else .ok ()
  | some .directory, true => if fs.isEmptyAt target then .ok () else .error .notEmpty
  | some .directory, false => .error .isDirectory
  | some (.file _), true => .error .notDirectory
  | some (.file _), false => if slash then .error .notDirectory else .ok ()

/-- Give a file or a directory another path. -/
def rename (fs : FileSystem) (path newPath : String) : Except FileFault FileSystem := do
  match ← fs.locateParent path, ← fs.locateParent newPath with
  | (sourceParent, .name source sourceSlash), (targetParent, .name target targetSlash) =>
      let source := sourceParent ++ [String.ofList source]
      let target := targetParent ++ [String.ofList target]
      match fs.node? source with
      | none => .error .notFound
      | some node =>
          let movesDirectory := node == .directory
          if !movesDirectory && sourceSlash then .error .notDirectory
          else if source = target then .ok fs
          else if source.isPrefixOf target then .error .invalidArgument
          else do
            fs.checkTarget movesDirectory targetSlash target
            .ok ((fs.keep (· != target)).move source target)
  | _, _ => .error .busy

end FileSystem

end RouteCompiler
