/-! Paths of files, as text with slashes between names. -/
namespace BCompiler.Path

/-- The parts of a path between its slashes, some of which may be empty. -/
def parts (path : String) : List String := (path.toList.splitOn '/').map String.ofList

def isAbsolute (path : String) : Bool := path.toList.head? == some '/'

/-- A part that leads nowhere else. -/
def isStill (part : String) : Bool := part == "" || part == "."

/-- The parts of a path up to the last that leads elsewhere, that one first. -/
def moving (path : String) : List String := (parts path).reverse.dropWhile isStill

/-- The last name of a path; the way up is no name. -/
def fileName? (path : String) : Option String :=
  (moving path).head?.filter fun part => part != ".."

/-- A file name in two parts: what stands before its last dot and what follows it. A dot at the
start does not count. -/
def splitName (name : String) : String × Option String :=
  let reversed := name.toList.reverse
  let ending := reversed.takeWhile fun c => c != '.'
  match reversed.drop ending.length with
  | _ :: first :: rest =>
    (String.ofList (first :: rest).reverse, some (String.ofList ending.reverse))
  | _ => (name, none)

/-- What follows the last dot of the file name. -/
def extension? (path : String) : Option String := do (splitName (← fileName? path)).2

/-- Give the file name of a path another extension; what stands behind the name is dropped. A path
without a file name stays as it is. -/
def setExtension (ending path : String) : String :=
  match moving path with
  | [] => path
  | name :: before =>
    if name == ".." then path
    else "/".intercalate (before.reverse ++ [(splitName name).1 ++ "." ++ ending])

/-- The path of a source with its extension, one character long, replaced by `ll`. The path is cut
by that one character first. -/
def moduleFile (source : String) : String :=
  setExtension "ll" (String.ofList source.toList.dropLast)

/-- Whether a path is the single name `-`, which stands for the standard output. -/
def isDash (path : String) : Bool :=
  match parts path with
  | first :: others => first == "-" && others.all isStill
  | [] => false

end BCompiler.Path
