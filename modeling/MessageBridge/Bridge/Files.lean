import MessageBridge.Bridge.Validation
import MessageBridge.Folder
import MessageBridge.Settings.Basic

/-!
# Bridges from files

The settings name the files in which bridges are defined. All of them have to be
there before any is looked into.
-/

namespace MessageBridge

/-- What the bridge files at some paths hold. The first one that cannot be read
is reported. -/
def Bridge.resources? (folder : Folder) : List String → Except Failure (List ByteArray)
  | [] => .ok []
  | path :: rest =>
    match folder.file? path with
    | none =>
      .error (.malformed ("cannot read bridge file '" ++ path ++ "'")
        (some "there is no such file"))
    | some bytes => (resources? folder rest).map (bytes :: ·)

/-- The bridges that settings name. -/
def FileSettings.bridges? (folder : Folder) (s : FileSettings) : Except Failure (List Bridge) :=
  (Bridge.resources? folder s.paths).bind Bridge.ofResources?

end MessageBridge
