import Rustorr.Lib.Text

/-! The objects a directory lists, and how they are written (`dlna/didl.rs`). -/

namespace Rustorr.Didl

/-- `isInCharacterRange`: a character XML can carry. -/
def allowed (c : Char) : Bool :=
  c == '\t' || c == '\n' || c == '\r' || ('\x20' ≤ c && c ≤ '\uD7FF') ||
    ('\uE000' ≤ c && c ≤ '\uFFFD') || 0x10000 ≤ c.toNat

def escapeChar (c : Char) : List Char :=
  if c = '"' then "&#34;".toList
  else if c = '\'' then "&#39;".toList
  else if c = '&' then "&amp;".toList
  else if c = '<' then "&lt;".toList
  else if c = '>' then "&gt;".toList
  else if c = '\t' then "&#x9;".toList
  else if c = '\n' then "&#xA;".toList
  else if c = '\r' then "&#xD;".toList
  else if allowed c then [c]
  else ['\uFFFD']

def escape (text : List Char) : List Char := text.flatMap escapeChar

structure Object where
  id : List Char
  parentId : List Char
  restricted : ℕ := 0
  searchable : ℕ := 0
  title : List Char
  class_ : List Char := []
  icon : List Char := []
  date : List Char
  albumArtUri : List Char := []
  deriving DecidableEq

structure Resource where
  protocolInfo : List Char
  url : List Char
  size : ℕ
  deriving DecidableEq

inductive Entry
  | container (object : Object) (childCount : ℕ)
  | item (object : Object) (resources : List Resource)
  deriving DecidableEq

namespace Entry

def object : Entry → Object
  | container object _ => object
  | item object _ => object

def id (entry : Entry) : List Char := entry.object.id

def parentId (entry : Entry) : List Char := entry.object.parentId

/-- Of an item, nothing. -/
def childCount : Entry → ℕ
  | container _ childCount => childCount
  | item _ _ => 0

end Entry

/-- An element that holds a text. -/
def element (tag text : List Char) : List Char :=
  '<' :: tag ++ '>' :: escape text ++ "</".toList ++ tag ++ ['>']

/-- An element that is left out where its text is empty. -/
def optional (tag text : List Char) : List Char := if text = [] then [] else element tag text

/-- `Object::write`. -/
def Object.write (object : Object) (tag extraAttributes children : List Char) : List Char :=
  '<' :: tag ++ " id=\"".toList ++ escape object.id ++ "\" parentID=\"".toList ++
    escape object.parentId ++ "\" restricted=\"".toList ++ Text.decimal object.restricted ++
    "\" searchable=\"".toList ++ Text.decimal object.searchable ++ '"' :: extraAttributes ++ '>' ::
    element "dc:title".toList object.title ++ element "upnp:class".toList object.class_ ++
    optional "upnp:icon".toList object.icon ++ element "dc:date".toList object.date ++
    optional "upnp:albumArtURI".toList object.albumArtUri ++ children ++ "</".toList ++ tag ++ ['>']

def Resource.xml (resource : Resource) : List Char :=
  "<res protocolInfo=\"".toList ++ escape resource.protocolInfo ++ ['"'] ++
    (if resource.size = 0 then []
      else " size=\"".toList ++ Text.decimal resource.size ++ ['"']) ++
    '>' :: escape resource.url ++ "</res>".toList

def Entry.xml : Entry → List Char
  | .container object childCount =>
    object.write "container".toList (" childCount=\"".toList ++ Text.decimal childCount ++ ['"']) []
  | .item object resources => object.write "item".toList [] (resources.flatMap Resource.xml)

def didlLite (entries : List Char) : List Char :=
  "<DIDL-Lite xmlns:dc=\"http://purl.org/dc/elements/1.1/\" xmlns:upnp=\"urn:schemas-upnp-org:metadata-1-0/upnp/\" xmlns=\"urn:schemas-upnp-org:metadata-1-0/DIDL-Lite/\" xmlns:dlna=\"urn:schemas-dlna-org:metadata-1-0/\">".toList ++
    entries ++ "</DIDL-Lite>".toList

end Rustorr.Didl
