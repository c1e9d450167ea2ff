import Rustorr.Lib.Json
import Rustorr.Lib.Text

/-! The scanner of `go_decode.rs`: where the first JSON value of a body ends, or
the error Go's decoder reports. -/

namespace Rustorr.GoDecode

open Json (ascii isSpace isDigit isHex word Bytes)

inductive Parse
  | objectKey
  | objectValue
  | arrayValue
  deriving DecidableEq

/-- `seen` counts what was read of an escape or a literal, and is in range. -/
inductive State
  | beginValue
  | beginValueOrEmpty
  | beginStringOrEmpty
  | beginString
  | endValue
  | inString
  | inStringEsc
  | inStringEscU (seen : Fin 4)
  | neg
  | one
  | zero
  | dot
  | dot0
  | e
  | eSign
  | e0
  | literal (name : String) (seen : Fin (word name).length)

inductive Step
  | continue (next : State)
  | closed
  | topEnd

/-! ### Errors -/

def hex (width : ℕ) (n : ℕ) : List Char :=
  let digits := Nat.toDigits 16 n
  List.replicate (width - digits.length) '0' ++ digits

/-- `strconv.Quote` of the byte as a Latin-1 rune, outer quotes swapped. -/
def escaped (byte : UInt8) : List Char :=
  if byte = 0x07 then ['\\', 'a']
  else if byte = 0x08 then ['\\', 'b']
  else if byte = 0x0c then ['\\', 'f']
  else if byte = ascii '\n' then ['\\', 'n']
  else if byte = ascii '\r' then ['\\', 'r']
  else if byte = ascii '\t' then ['\\', 't']
  else if byte = 0x0b then ['\\', 'v']
  else if byte = ascii '\\' then ['\\', '\\']
  else if byte < 0x20 ∨ byte = 0x7f then ['\\', 'x'] ++ hex 2 byte.toNat
  else if (0x80 ≤ byte ∧ byte ≤ 0xa0) ∨ byte = 0xad then ['\\', 'u'] ++ hex 4 byte.toNat
  else [Char.ofNat byte.toNat]

def quoted (byte : UInt8) : List Char :=
  if byte = ascii '\'' then "'\\''".toList
  else if byte = ascii '"' then "'\"'".toList
  else ['\''] ++ escaped byte ++ ['\'']

def invalid (byte : UInt8) (context : List Char) : String :=
  String.ofList ("invalid character ".toList ++ quoted byte ++ [' '] ++ context)

/-! ### Steps -/

def close (stack : List Parse) : Except String (Step × List Parse) := .ok (.closed, stack.tail)

def endValue (byte : UInt8) (space : Bool) : List Parse → Except String (Step × List Parse)
  | [] => .ok (.topEnd, [])
  | top :: stack =>
    if space then .ok (.continue .endValue, top :: stack)
    else match top with
      | .objectKey =>
        if byte = ascii ':' then .ok (.continue .beginValue, .objectValue :: stack)
        else .error (invalid byte "after object key".toList)
      | .objectValue =>
        if byte = ascii ',' then .ok (.continue .beginString, .objectKey :: stack)
        else if byte = ascii '\x7d' then close (top :: stack)
        else .error (invalid byte "after object key:value pair".toList)
      | .arrayValue =>
        if byte = ascii ']' then close (top :: stack)
        else if byte = ascii ',' then .ok (.continue .beginValue, top :: stack)
        else .error (invalid byte "after array element".toList)

def beginValue (byte : UInt8) (space : Bool) (stack : List Parse) :
    Except String (Step × List Parse) :=
  if space then .ok (.continue .beginValue, stack)
  else if byte = ascii '\x7b' then .ok (.continue .beginStringOrEmpty, .objectKey :: stack)
  else if byte = ascii '[' then .ok (.continue .beginValueOrEmpty, .arrayValue :: stack)
  else if byte = ascii '"' then .ok (.continue .inString, stack)
  else if byte = ascii '-' then .ok (.continue .neg, stack)
  else if byte = ascii '0' then .ok (.continue .zero, stack)
  else if isDigit byte then .ok (.continue .one, stack)
  else if byte = ascii 't' then .ok (.continue (.literal "true" ⟨1, by decide⟩), stack)
  else if byte = ascii 'f' then .ok (.continue (.literal "false" ⟨1, by decide⟩), stack)
  else if byte = ascii 'n' then .ok (.continue (.literal "null" ⟨1, by decide⟩), stack)
  else .error (invalid byte "looking for beginning of value".toList)

def beginString (byte : UInt8) (space : Bool) (stack : List Parse) :
    Except String (Step × List Parse) :=
  if space then .ok (.continue .beginString, stack)
  else if byte = ascii '"' then .ok (.continue .inString, stack)
  else .error (invalid byte "looking for beginning of object key string".toList)

/-- An exponent, or the end of the number. -/
def exponent (byte : UInt8) (space : Bool) (stack : List Parse) :
    Except String (Step × List Parse) :=
  if byte = ascii 'e' ∨ byte = ascii 'E' then .ok (.continue .e, stack)
  else endValue byte space stack

def fraction (byte : UInt8) (space : Bool) (stack : List Parse) :
    Except String (Step × List Parse) :=
  if byte = ascii '.' then .ok (.continue .dot, stack) else exponent byte space stack

def step (state : State) (byte : UInt8) (space : Bool) (stack : List Parse) :
    Except String (Step × List Parse) :=
  match state with
  | .beginValueOrEmpty =>
    if space then .ok (.continue .beginValueOrEmpty, stack)
    else if byte = ascii ']' then close stack
    else beginValue byte space stack
  | .beginValue => beginValue byte space stack
  | .beginStringOrEmpty =>
    if space then .ok (.continue .beginStringOrEmpty, stack)
    else if byte = ascii '\x7d' then close stack
    else beginString byte space stack
  | .beginString => beginString byte space stack
  | .endValue => endValue byte space stack
  | .inString =>
    if byte = ascii '"' then .ok (.continue .endValue, stack)
    else if byte = ascii '\\' then .ok (.continue .inStringEsc, stack)
    else if byte < 0x20 then .error (invalid byte "in string literal".toList)
    else .ok (.continue .inString, stack)
  | .inStringEsc =>
    if byte ∈ ['b', 'f', 'n', 'r', 't', '\\', '/', '"'].map ascii then
      .ok (.continue .inString, stack)
    else if byte = ascii 'u' then .ok (.continue (.inStringEscU 0), stack)
    else .error (invalid byte "in string escape code".toList)
  | .inStringEscU seen =>
    if isHex byte then
      if seen = 3 then .ok (.continue .inString, stack)
      else .ok (.continue (.inStringEscU (seen + 1)), stack)
    else .error (invalid byte "in \\u hexadecimal character escape".toList)
  | .neg =>
    if byte = ascii '0' then .ok (.continue .zero, stack)
    else if isDigit byte then .ok (.continue .one, stack)
    else .error (invalid byte "in numeric literal".toList)
  | .one => if isDigit byte then .ok (.continue .one, stack) else fraction byte space stack
  | .zero => fraction byte space stack
  | .dot =>
    if isDigit byte then .ok (.continue .dot0, stack)
    else .error (invalid byte "after decimal point in numeric literal".toList)
  | .dot0 => if isDigit byte then .ok (.continue .dot0, stack) else exponent byte space stack
  | .e =>
    if byte = ascii '+' ∨ byte = ascii '-' then .ok (.continue .eSign, stack)
    else if isDigit byte then .ok (.continue .e0, stack)
    else .error (invalid byte "in exponent of numeric literal".toList)
  | .eSign =>
    if isDigit byte then .ok (.continue .e0, stack)
    else .error (invalid byte "in exponent of numeric literal".toList)
  | .e0 => if isDigit byte then .ok (.continue .e0, stack) else endValue byte space stack
  | .literal name seen =>
    let expected := (word name).get seen
    if byte ≠ expected then
      .error (invalid byte ("in literal ".toList ++ name.toList ++ " (expecting '".toList ++
        [Char.ofNat expected.toNat] ++ "')".toList))
    else if h : seen.val + 1 < (word name).length then
      .ok (.continue (.literal name ⟨seen.val + 1, h⟩), stack)
    else .ok (.continue .endValue, stack)

/-- What `scan` answers at the end of the input. -/
def atEnd (state : State) (stack : List Parse) (started : Bool) (length : ℕ) : Except String ℕ :=
  match state with
  | .endValue =>
    if stack.isEmpty && started then .ok length
    else .error (if started then "unexpected EOF" else "EOF")
  | .one | .zero | .dot0 | .e0 =>
    if stack.isEmpty then .ok length
    else .error (if started then "unexpected EOF" else "EOF")
  | _ => .error (if started then "unexpected EOF" else "EOF")

/-- The loop of `scan`, at `index`. -/
def scanFrom (state : State) (stack : List Parse) (started : Bool) (index : ℕ) :
    Bytes → Except String ℕ
  | [] => atEnd state stack started index
  | byte :: rest =>
    let space := isSpace byte
    match step state byte space stack with
    | .error e => .error e
    | .ok (.continue next, stack) => scanFrom next stack (started || !space) (index + 1) rest
    | .ok (.closed, stack) =>
      if stack.isEmpty then .ok (index + 1)
      else scanFrom .endValue stack (started || !space) (index + 1) rest
    | .ok (.topEnd, _) => .ok index

def scan (input : Bytes) : Except String ℕ := scanFrom .beginValue [] false 0 input

end Rustorr.GoDecode
