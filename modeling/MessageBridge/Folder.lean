import MessageBridge.Entries
import MessageBridge.Text.Pieces

/-!
# Folders

The files that settings and bridges are read from: their paths, relative to the
folder, with what they hold. A path may go through `.` and `..` as long as it
stays in the folder and every part of it but the last one is a folder itself.
-/

namespace MessageBridge

/-- Files by their paths. -/
abbrev Folder := Entries ByteArray

namespace Folder

/-- Whether there is a folder at a path. -/
def isFolder (folder : Folder) (path : List String) : Bool :=
  folder.any fun (name, _) =>
    let parts := Text.pieces '/' name
    path.length < parts.length && parts.take path.length = path

/-- Follow the parts of a path. The folders walked through stand last first. -/
def walk? (folder : Folder) (walked : List String) : List String → Option (List String)
  | [] => none
  | [last] => if ["", ".", ".."].contains last then none else some (walked.reverse ++ [last])
  | part :: rest =>
    if part.isEmpty || part = "." then walk? folder walked rest
    else if part = ".." then
      match walked with
      | [] => none
      | _ :: walked => walk? folder walked rest
    else if isFolder folder (walked.reverse ++ [part]) then walk? folder (part :: walked) rest
    else none

/-- What the file at a path holds. -/
def file? (folder : Folder) (path : String) : Option ByteArray :=
  let parts := Text.pieces '/' path
  if parts.head? = some "" then none
  else (walk? folder [] parts).bind fun path => Entries.get? ("/".intercalate path) folder

end Folder

end MessageBridge
