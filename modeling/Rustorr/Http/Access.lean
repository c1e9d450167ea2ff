import Mathlib.Data.Prod.Lex
import Rustorr.Http.Conditional
import Rustorr.Lib.Text
import Rustorr.Lib.Utf8

/-! The access lists (`access.rs`): addresses and referers read line by line, and the requests
they block. -/

namespace Rustorr.Waf

open Conditional (Bytes)

/-! ### Addresses -/

inductive IpAddr where
  | v4 (address : BitVec 32)
  | v6 (address : BitVec 128)
  deriving DecidableEq

/-- The value of a digit; letters are digits from 10 on. -/
def toDigit (radix : ℕ) (c : Char) : Option ℕ :=
  let value := if c.isDigit then some (c.toNat - '0'.toNat)
    else if c.toLower.isLower then some (c.toLower.toNat - 'a'.toNat + 10) else none
  value.filter (· < radix)

/-- `read_number`: the digits in front, of which there may be no more than `maxDigits`. -/
def readNumber (radix maxDigits bound : ℕ) (zeroPrefix : Bool) (s : List Char) :
    Option (ℕ × List Char) :=
  let digits := s.takeWhile fun c => (toDigit radix c).isSome
  let value := (digits.filterMap (toDigit radix)).foldl (fun n d => n * radix + d) 0
  if digits = [] ∨ digits.length > maxDigits ∨
      (zeroPrefix = false ∧ digits.head? = some '0' ∧ digits.length > 1) ∨ bound ≤ value then none
  else some (value, s.drop digits.length)

/-- `read_separator`: all but the first part come after a separator. -/
def readSeparated {α : Type} (separator : Char) (index : ℕ)
    (inner : List Char → Option (α × List Char)) (s : List Char) : Option (α × List Char) :=
  if index = 0 then inner s
  else match s with
    | c :: s => if c = separator then inner s else none
    | [] => none

def readOctet (index : ℕ) : List Char → Option (ℕ × List Char) :=
  readSeparated '.' index (readNumber 10 3 256 false)

def readIpv4 (s : List Char) : Option (ℕ × List Char) := do
  let (a, s) ← readOctet 0 s
  let (b, s) ← readOctet 1 s
  let (c, s) ← readOctet 2 s
  let (d, s) ← readOctet 3 s
  return (((a * 256 + b) * 256 + c) * 256 + d, s)

/-- `read_groups`, with room for so many groups more. The flag tells whether the last two are
an IPv4 address. -/
def readGroups : ℕ → List ℕ → List Char → List ℕ × Bool × List Char
  | 0, groups, s => (groups, false, s)
  | room + 1, groups, s =>
    match if room = 0 then none else readSeparated ':' groups.length readIpv4 s with
    | some (v4, rest) => (groups ++ [v4 / 65536, v4 % 65536], true, rest)
    | none => match readSeparated ':' groups.length (readNumber 16 4 65536 true) s with
      | some (group, rest) => readGroups room (groups ++ [group]) rest
      | none => (groups, false, s)

def groupsValue (groups : List ℕ) : ℕ := groups.foldl (fun n g => n * 65536 + g) 0

def readIpv6 (s : List Char) : Option (ℕ × List Char) :=
  let (head, headIpv4, rest) := readGroups 8 [] s
  if head.length = 8 then some (groupsValue head, rest)
  else if headIpv4 then none
  else match rest with
    | ':' :: ':' :: rest =>
      let (tail, _, rest) := readGroups (8 - (head.length + 1)) [] rest
      some (groupsValue (head ++ List.replicate (8 - head.length - tail.length) 0 ++ tail), rest)
    | _ => none

/-- `IpAddr::from_str`. -/
def parseIpAddr (s : List Char) : Option IpAddr :=
  match readIpv4 s with
  | some (n, rest) => if rest = [] then some (.v4 (.ofNat 32 n)) else none
  | none => match readIpv6 s with
    | some (n, rest) => if rest = [] then some (.v6 (.ofNat 128 n)) else none
    | none => none

namespace IpAddr

def width : IpAddr → ℕ
  | v4 _ => 32
  | v6 _ => 128

def number : IpAddr → ℕ
  | v4 address => address.toNat
  | v6 address => address.toNat

end IpAddr

/-- An address with the length of its prefix. The bits after the prefix need not be zero. -/
structure IpNet where
  address : IpAddr
  prefixLen : ℕ
  valid : prefixLen ≤ address.width

namespace IpNet

variable (net : IpNet)

/-- How many addresses there are with one prefix. -/
def size : ℕ := 2 ^ (net.address.width - net.prefixLen)

def network : ℕ := net.address.number / net.size * net.size

def broadcast : ℕ := net.network + (net.size - 1)

def contains (address : IpAddr) : Bool :=
  address.width = net.address.width && net.network ≤ address.number &&
    address.number ≤ net.broadcast

end IpNet

/-- `ip_number`. -/
def ipNumber : IpAddr → Option (ℕ ×ₗ ℕ)
  | .v4 address => some (toLex (4, address.toNat))
  | .v6 address => some (toLex (6, address.toNat))

inductive IpRule where
  | address (address : IpAddr)
  | network (network : IpNet)
  | range (first last : IpAddr)

def IpRule.contains : IpRule → IpAddr → Bool
  | address expected, a => expected = a
  | network net, a => net.contains a
  | range first last, a => match ipNumber first, ipNumber last, ipNumber a with
    | some first, some last, some a => first ≤ a && a ≤ last
    | _, _, _ => false

/-! ### Lists -/

structure WafWarning where
  list : String
  line : Option ℕ
  code : String
  deriving DecidableEq

structure WafLists where
  whitelist : List Char
  blacklist : List Char
  referers : List Char

/-- A line without rule: empty, or a comment. -/
def skipped (raw : List Char) : Bool := raw = [] || raw.head? = some '#'

/-- The lines of a list in turn, with the rules and the warnings so far. -/
def parseLines {ρ : Type} (rule : List Char → Option ρ) (list code : String)
    (text : List Char) : List ρ × List WafWarning :=
  (Text.lines text).zipIdx.foldl
    (fun (rules, warnings) (line, index) =>
      let raw := Utf8.trim line
      if skipped raw then (rules, warnings)
      else match rule raw with
        | some r => (rules ++ [r], warnings)
        | none => (rules, warnings ++ [⟨list, some (index + 1), code⟩]))
    ([], [])

section IpLists

-- how the text of a network is read
variable (parseIpNet : List Char → Option IpNet)

def parseRange (value : List Char) : Option IpRule := do
  let (first, last) ← Text.splitOnce '-' value
  return .range (← parseIpAddr (Utf8.trim first)) (← parseIpAddr (Utf8.trim last))

def parseIpRule (value : List Char) : Option IpRule :=
  ((parseIpNet value).map IpRule.network).orElse fun _ =>
    ((parseIpAddr value).map IpRule.address).orElse fun _ => parseRange value

/-- The line as it is, or what follows its label. -/
def candidates (raw : List Char) : List (List Char) :=
  [raw, match Text.splitOnce ':' raw with
    | some (_, value) => Utf8.trim value
    | none => raw]

def ipRule (raw : List Char) : Option IpRule := (candidates raw).findSome? (parseIpRule parseIpNet)

def parseIpRules (list : String) (text : List Char) : List IpRule × List WafWarning :=
  parseLines (ipRule parseIpNet) list "invalid_ip_range" text

end IpLists

/-- What follows the first `://`. -/
def afterScheme : List Char → Option (List Char)
  | ':' :: '/' :: '/' :: rest => some rest
  | _ :: s => afterScheme s
  | [] => none

/-- `split(':').next()`. -/
def upToPort (s : List Char) : List Char := s.takeWhile (· ≠ ':')

def toAsciiLowercase (s : List Char) : List Char := s.map Char.toLower

/-- `trim_matches(['[', ']', '.'])`, in lower case. -/
def hostText (host : List Char) : List Char :=
  let drop := fun c : Char => c = '[' || c = ']' || c = '.'
  toAsciiLowercase ((host.dropWhile drop).rdropWhile drop)

def refererHost (raw : List Char) : Option (List Char) :=
  if '*' ∈ raw ∨ (raw.any fun c => c ∈ ['/', '?', '#', '@']) ∧ afterScheme raw = none then none
  else match afterScheme raw with
    | some rest => some (upToPort (rest.rdropWhile (· = '/')))
    | none => some (upToPort raw)

def refererRule (raw : List Char) : Option (List Char) :=
  ((refererHost raw).filter (· ≠ [])).map hostText

def parseReferers (text : List Char) : List (List Char) × List WafWarning :=
  parseLines refererRule "referers" "invalid_referer" text

/-- `DEFAULT_BLOCKED_REFERERS`. -/
def defaultBlockedReferers : List String :=
  ["abhq.ru", "abmsx.tech", "akter.black", "bylampa.online", "lampa.click", "lampa.land",
    "lampa1.ru", "line.pm", "nnmtv.pw", "tvigl.info", "uspeh.sbs", "usph.xyz", "xabb.ru"]

structure WafSnapshot where
  warnings : List WafWarning
  whitelist : List IpRule
  blacklist : List IpRule
  referers : List (List Char)

def addHost (referers : List (List Char)) (host : List Char) : List (List Char) :=
  if host ∈ referers then referers else referers ++ [host]

def WafSnapshot.parse (parseIpNet : List Char → Option IpNet) (lists : WafLists) : WafSnapshot :=
  let (whitelist, warnings) := parseIpRules parseIpNet "whitelist" lists.whitelist
  let (blacklist, blackWarnings) := parseIpRules parseIpNet "blacklist" lists.blacklist
  let (userReferers, refererWarnings) := parseReferers lists.referers
  { warnings := warnings ++ blackWarnings ++ refererWarnings
    whitelist
    blacklist
    referers := userReferers.foldl addHost (defaultBlockedReferers.map String.toList) }

/-! ### Requests -/

/-- The first `Referer` and the first `Origin` of a request. -/
structure RequestHeaders where
  referer : Option Bytes
  origin : Option Bytes

/-- `to_str`. -/
def headerText (value : Bytes) : Option (List Char) :=
  if value.all Conditional.isVisibleAscii then some (value.map fun b => Char.ofNat b.toNat)
  else none

/-- `header_host`. -/
def headerHost (value : List Char) : Option (List Char) :=
  (afterScheme value).bind fun rest =>
    let authority := rest.takeWhile (· ≠ '/')
    let host := ((authority.dropWhile (· = '[')).takeWhile fun c => c ≠ ']' && c ≠ ':')
    let host := toAsciiLowercase (host.rdropWhile (· = '.'))
    if host = [] then none else some host

/-- Whether a host is one that is blocked, or below it. -/
def hostMatches (blocked host : List Char) : Bool := host = blocked || ('.' :: blocked).isSuffixOf host

namespace WafSnapshot

variable (s : WafSnapshot)

def blocksReferer (headers : RequestHeaders) : Bool :=
  [headers.referer, headers.origin].any fun value =>
    match (value.bind headerText).bind headerHost with
    | some host => s.referers.any fun blocked => hostMatches blocked host
    | none => false

def blocks (peer : IpAddr) (headers : RequestHeaders) : Bool :=
  if s.blocksReferer headers then true
  else if s.whitelist ≠ [] ∧ (s.whitelist.any fun rule => rule.contains peer) = false then true
  else s.blacklist.any fun rule => rule.contains peer

end WafSnapshot

end Rustorr.Waf
