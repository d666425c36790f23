import RouteCompiler.Files.FileSystem

/-!
# Access to files

What a computation may do with files.  The same computation runs on a file
system that is a value, and on the files of a machine.
-/

namespace RouteCompiler

/-- Operations on files.  An operation that fails may have done a part of its
work. -/
class Files (m : Type → Type) where
  readText : String → m (Except FileFault String)
  writeText : String → String → m (Except FileFault Unit)
  listNames : String → m (Except FileFault (List String))
  pathExists : String → m Bool
  isDirectory : String → m Bool
  makeDirectories : String → m (Except FileFault Unit)
  removeTree : String → m (Except FileFault Unit)
  rename : String → String → m (Except FileFault Unit)

namespace FileSystem

/-- The outcome of a change, with the state that follows: a change that fails
leaves the state as it is. -/
def settle (fs : FileSystem) : Except FileFault FileSystem → Except FileFault Unit × FileSystem
  | .ok changed => (.ok (), changed)
  | .error fault => (.error fault, fs)

end FileSystem

instance : Files (StateM FileSystem) where
  readText path := fun fs => (fs.read path, fs)
  writeText path text := fun fs => fs.settle (fs.write path text)
  listNames path := fun fs => (fs.list path, fs)
  pathExists path := fun fs => (fs.exists? path, fs)
  isDirectory path := fun fs => (fs.isDirectory path, fs)
  makeDirectories path := fun fs => fs.makeDirectories path
  removeTree path := fun fs => fs.removeTree path
  rename path newPath := fun fs => fs.settle (fs.rename path newPath)

end RouteCompiler
