import ArenaScheme.Fault

/-! Files in a tree of directories, and how a path leads to one of them. -/

namespace ArenaScheme

inductive FileTree where
  | file (text : String)
  | directory (entries : List (String × FileTree))

namespace FileTree

/-- The most bytes that the name of a file can have. -/
def maxName : Nat := 255

/-- The most bytes that a path can have. -/
def maxPath : Nat := 4095

/-- Follows the parts of a path. The directories in `above` lie around `here`, the innermost first;
nothing lies around the outermost one. -/
def follow : List String → (here : FileTree) → (above : List FileTree) → Except FileProblem FileTree
  | [], here, _ => .ok here
  | _ :: _, file _, _ => .error .notDirectory
  | part :: parts, here@(directory entries), above =>
    if part = "" ∨ part = "." then follow parts here above
    else if part = ".." then
      match above with
      | [] => follow parts here []
      | outer :: above => follow parts outer above
    else if part.utf8ByteSize > maxName then .error .nameTooLong
    else match entries.lookup part with
      | some entry => follow parts entry (here :: above)
      | none => .error .missing

/-- The text of the file at a path. A path that begins with a slash starts at the outermost
directory, any other one at `here`. -/
def read (here : FileTree) (above : List FileTree) (path : String) : Except FileProblem String := do
  if path.isEmpty then throw .missing
  if path.utf8ByteSize > maxPath then throw .nameTooLong
  let parts := path.splitOn "/"
  let found ←
    if path.startsWith "/" then follow parts (above.getLastD here) [] else follow parts here above
  match found with
  | file text => return text
  | directory _ => throw .isDirectory

end FileTree

end ArenaScheme
