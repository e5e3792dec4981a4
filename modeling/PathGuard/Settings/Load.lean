import PathGuard.Settings.Decode
import PathGuard.Settings.Variables
import PathGuard.Surroundings
import PathGuard.Toml.Document
import PathGuard.Utf8

/-!
# Loading settings

Settings are put together from a document and the environment, which wins key by key, and then
checked. The document is the file that is named, which then has to be there, or the first of the
default places that is there. The keys of either come in an order that is not theirs to choose.

## Main definitions

- `Settings.ofText`: the settings of a document alone
- `Settings.source`: the document that is read
- `Settings.load`: the settings of a document and the environment
-/

namespace PathGuard

namespace Settings

/-- The layer that the text of a document gives. In settings a key path takes over implied
    tables. -/
def layerOfText (text : String) : Except LoadFault (List (String × Tree)) :=
  match Toml.parse? .claiming text with
  | none => .error (.malformed "the settings are not TOML")
  | some table =>
    if Toml.entriesLegible Ascii.isInteger64 table then .ok (Tree.ofTomlEntries table)
    else .error (.malformed "a number of the settings cannot be read")

/-- The settings that layers give, a later one winning over an earlier one, if they are valid. -/
def ofLayers (layers : List (List (String × Tree))) : Except LoadFault Settings :=
  match ofTree? (layers.foldl Tree.addLayer (.table [])) with
  | none => .error (.malformed "a setting has a value of the wrong kind")
  | some settings => settings.validate

/-- The settings of a text alone, whose keys come in the order given. -/
def ofText (text : String) (order : KeyOrder := .asWritten) : Except LoadFault Settings := do
  ofLayers [order.arrange (← layerOfText text)]

/-- The places where a document is looked for when none is named. -/
def defaultPlaces (environment : Environment) : List String :=
  let home := match environment.get? "HOME" with
    | some "" => none
    | home => home
  ["subrepo-authz.toml", ".subrepo-authz.toml"]
    ++ (home.map (· ++ "/.config/subrepo-authz/config.toml")).toList
    ++ ["/etc/subrepo-authz/config.toml"]

/-- The document that settings are loaded from: the one named, which has to be there, or the first
    of the default places that is there. -/
def source (s : Surroundings) : Option String → Except LoadFault (Option String)
  | some path => if s.hasPath path then .ok (some path) else .error (.notFound .settings path)
  | none => .ok ((defaultPlaces s.environment).find? s.hasPath)

def isIdle (seg : Path.Segment) : Bool :=
  seg == [] || seg == Path.here

/-- Whether a name has an extension: a point that it does not begin with. -/
def hasExtension (name : Path.Segment) : Bool :=
  name.tail.contains '.'

def extension : Path.Segment := ".toml".toList

/-- The path with the extension of a document added to it. To a name with an extension of its own
    it is added where the path ends, and a path that ends in a slash gets a name first; to any other
    name it is added in spite of segments after it that stay where they are. -/
def withExtension? (path : String) : Option String :=
  let reversed := (Path.segments path.toList).reverse
  match reversed.dropWhile isIdle with
  | [] => none
  | name :: before =>
    if name = Path.parent then none
    else if hasExtension name then
      some (path ++ String.ofList
        (if reversed.head? = some [] then ".placeholder".toList ++ extension else extension))
    else some (String.ofList (Path.unsegments ((name ++ extension) :: before).reverse))

/-- The bytes of a document: the file at a path, or else the one whose name has the extension
    added. -/
def documentBytes? (s : Surroundings) (path : String) : Option (List UInt8) :=
  match s.file? path with
  | some bytes => some bytes
  | none => (withExtension? path).bind s.file?

def layerOfFile (s : Surroundings) (path : String) : Except LoadFault (List (String × Tree)) :=
  match documentBytes? s path with
  | none => .error (.malformed "the settings are not a file")
  | some bytes => layerOfText (Utf8.decodeLossy (Utf8.dropMark bytes))

/-- The settings of a document and the environment. The path names the document. -/
def load (s : Surroundings) (path : Option String) : Except LoadFault Settings := do
  let document ← match ← source s path with
    | none => pure []
    | some path => layerOfFile s path
  ofLayers [s.orders.document.arrange document,
    s.orders.environment.arrange (variableLayer s.environment)]

end Settings

end PathGuard
