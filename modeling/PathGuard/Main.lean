import PathGuard.CommandLine

/-!
# The program

Runs a command line on the files and variables at hand. Everything a run may look at is read first;
what comes of it is decided by `PathGuard.CommandLine.run`.
-/

namespace PathGuard.Main

/-- What a path leads to: a file that can be read, or a directory. -/
def look (path : String) : IO (Option FileTree.Content) := do
  try
    let bytes ← IO.FS.readBinFile path
    return some (.file bytes.toList)
  catch _ =>
    -- there is no real path where nothing is
    try
      return if ← (← IO.FS.realPath path).isDir then some .directory else none
    catch _ => return none

def environment : IO Environment := do
  let bytes ← try IO.FS.readBinFile "/proc/self/environ" catch _ => pure .empty
  let settings := (Utf8.decodeLossy bytes.toList).splitOn "\x00"
  return settings.foldl
    (fun e setting =>
      match setting.splitOn "=" with
      | name :: value => if name.isEmpty then e else e.set name ("=".intercalate value)
      | [] => e)
    .empty

/-- The paths that a command line may make the program look at. -/
def paths (e : Environment) (words : List String) : List String :=
  match CommandLine.parse words with
  | .error _ => []
  | .ok (general, command) =>
    let places := match general.document? e with
      | some path => [path]
      | none => Settings.defaultPlaces e
    command.rules :: places ++ places.filterMap Settings.withExtension?

end PathGuard.Main

open PathGuard in
def main (words : List String) : IO UInt32 := do
  let environment ← Main.environment
  let mut found : List (String × FileTree.Content) := []
  for path in Main.paths environment words do
    if let some content ← Main.look path then
      found := (path, content) :: found
  let seen := found
  let outcome := CommandLine.run { look := fun path => seen.lookup path, environment } words
  IO.print outcome.output
  match outcome with
  | .success _ => pure ()
  | .failure cause => IO.eprintln ("Error: " ++ cause.message)
  | .usage => IO.eprint CommandLine.usageText
  return outcome.status.toUInt32
