import Rustorr.Lib.Table
import Rustorr.Vfs.Path

/-! The in-memory lock system of the WebDAV handler: locks by name and by
token, expiring lazily on each call. -/

namespace Rustorr

inductive LockError where
  | confirmationFailed
  | locked
  | noSuchLock
  deriving DecidableEq, Repr

/-- A failed assertion of the lock table. -/
inductive LockPanic where
  | missingIndex
  | refCountUnderflow
  deriving DecidableEq, Repr

/-- Times and durations are nanoseconds; `none` is an infinite lock. -/
structure LockDetails where
  root : Path
  duration : Option ℕ
  ownerXml : List Char
  zeroDepth : Bool
  deriving DecidableEq, Repr

/-- What the lock table reads of a condition of an `If` header. -/
structure Condition where
  token : List Char
  deriving DecidableEq, Repr

namespace MemLs

structure Node where
  details : LockDetails
  token : List Char
  refCount : ℕ
  expiry : Option ℕ
  held : Bool
  deriving DecidableEq, Repr

end MemLs

structure MemLs where
  byName : AList fun _ : Path => MemLs.Node
  byToken : AList fun _ : List Char => Path
  generation : ℕ

namespace MemLs

open Rustorr.Path

def new (generation : ℕ) : MemLs := ⟨∅, ∅, generation⟩

/-- One lock fewer at or below a name; the last one takes its node along. -/
def dropRef : Option Node → Except LockPanic (Option Node)
  | none => .ok none
  | some node =>
    if node.refCount = 0 then .error .refCountUnderflow
    else if node.refCount - 1 = 0 then .ok none
    else .ok (some { node with refCount := node.refCount - 1 })

/-- The token of the node at `root` is taken back. -/
def clearToken (t : MemLs) (root : Path) : MemLs :=
  match t.byName.lookup root with
  | none => t
  | some node =>
    { t with
      byToken := t.byToken.erase node.token
      byName := t.byName.insert root { node with token := [], expiry := none } }

def remove (t : MemLs) (root : Path) : Except LockPanic MemLs := do
  let t := t.clearToken root
  let byName ← Table.visit (fun _ => dropRef) t.byName (toRoot root)
  return { t with byName }

/-- Whether the lock of a node has run out. -/
def Node.expired (now : ℕ) (node : Node) : Bool :=
  !node.held && !node.token.isEmpty && node.expiry.any (· ≤ now)

def expiredRoots (t : MemLs) (now : ℕ) : List Path :=
  (t.byName.entries.filter fun e => e.2.expired now).map fun e => e.2.details.root

def collectExpired (t : MemLs) (now : ℕ) : Except LockPanic MemLs :=
  (t.expiredRoots now).foldlM remove t

/-- The root of the first condition's lock that applies to `name`. -/
def lookup (t : MemLs) (name : Path) : List Condition → Except LockPanic (Option Path)
  | [] => .ok none
  | condition :: conditions =>
    match t.byToken.lookup condition.token with
    | none => lookup t name conditions
    | some root =>
      match t.byName.lookup root with
      | none => .error .missingIndex
      | some node =>
        if node.held then lookup t name conditions
        else if name = node.details.root then .ok (some root)
        else if node.details.zeroDepth then lookup t name conditions
        else if node.details.root = ['/'] ∨ node.details.root ++ ['/'] <+: name then .ok (some root)
        else lookup t name conditions

/-- The locks that `names` need, each once. -/
def lookupAll (t : MemLs) (conditions : List Condition) :
    List Path → List Path → Except LockPanic (Option (List Path))
  | [], held => .ok (some held)
  | name :: names, held =>
    if name = [] then lookupAll t conditions names held
    else do
      match ← t.lookup (slashClean name) conditions with
      | none => return none
      | some root => lookupAll t conditions names (if root ∈ held then held else held ++ [root])

def setHeld (held : Bool) (t : MemLs) (root : Path) : MemLs :=
  match t.byName.lookup root with
  | none => t
  | some node => { t with byName := t.byName.insert root { node with held } }

def confirm (t : MemLs) (now : ℕ) (name0 name1 : Path) (conditions : List Condition) :
    Except LockPanic (Except LockError (List Path) × MemLs) := do
  let t ← t.collectExpired now
  match ← t.lookupAll conditions [name0, name1] [] with
  | none => return (.error .confirmationFailed, t)
  | some held => return (.ok held, held.foldl (setHeld true) t)

def release (t : MemLs) (roots : List Path) : MemLs := roots.foldl (setHeld false) t

def canCreate (t : MemLs) (name : Path) (zeroDepth : Bool) : Bool :=
  match toRoot name with
  | [] => true
  | first :: above =>
    (match t.byName.lookup first with
      | none => true
      | some node => node.token.isEmpty && zeroDepth) &&
    above.all fun name =>
      match t.byName.lookup name with
      | none => true
      | some node => node.token.isEmpty || node.details.zeroDepth

/-- One lock more at or below a name, whose node is made if there is none. -/
def addRef (name : Path) : Option Node → Option Node
  | some node => some { node with refCount := node.refCount + 1 }
  | none => some ⟨⟨name, none, [], false⟩, [], 1, none, false⟩

def create (t : MemLs) (now : ℕ) (details : LockDetails) :
    Except LockPanic (Except LockError (List Char) × MemLs) := do
  let t ← t.collectExpired now
  let details := { details with root := slashClean details.root }
  if !t.canCreate details.root details.zeroDepth then return (.error .locked, t)
  let byName ← Table.visit (fun name node => .ok (addRef name node)) t.byName (toRoot details.root)
  let generation := t.generation + 1
  let token := Text.decimal generation
  match byName.lookup details.root with
  | none => throw .missingIndex
  | some node =>
    let node := { node with token, expiry := details.duration.map (now + ·), details }
    return (.ok token,
      ⟨byName.insert details.root node, t.byToken.insert token details.root, generation⟩)

def refresh (t : MemLs) (now : ℕ) (token : List Char) (duration : Option ℕ) :
    Except LockPanic (Except LockError LockDetails × MemLs) := do
  let t ← t.collectExpired now
  match t.byToken.lookup token with
  | none => return (.error .noSuchLock, t)
  | some root =>
    match t.byName.lookup root with
    | none => return (.error .noSuchLock, t)
    | some node =>
      if node.held then return (.error .locked, t)
      let details := { node.details with duration }
      let node := { node with details, expiry := duration.map (now + ·) }
      return (.ok details, { t with byName := t.byName.insert root node })

def unlock (t : MemLs) (now : ℕ) (token : List Char) :
    Except LockPanic (Except LockError Unit × MemLs) := do
  let t ← t.collectExpired now
  match t.byToken.lookup token with
  | none => return (.error .noSuchLock, t)
  | some root =>
    if (t.byName.lookup root).any (·.held) then return (.error .locked, t)
    let t ← t.remove root
    return (.ok (), t)

end MemLs

/-- A call of the lock table. -/
inductive LockCall where
  | create (now : ℕ) (details : LockDetails)
  | confirm (now : ℕ) (name0 name1 : Path) (conditions : List Condition)
  | release (roots : List Path)
  | refresh (now : ℕ) (token : List Char) (duration : Option ℕ)
  | unlock (now : ℕ) (token : List Char)
  deriving DecidableEq, Repr

namespace LockCall

def errorOf {α : Type} : Except LockError α → Option LockError
  | .ok _ => none
  | .error e => some e

/-- The table after the call, with the error it answered if it did. -/
def run : LockCall → MemLs → Except LockPanic (Option LockError × MemLs)
  | create now details, t => do
    let (answer, t) ← t.create now details
    return (errorOf answer, t)
  | confirm now name0 name1 conditions, t => do
    let (answer, t) ← t.confirm now name0 name1 conditions
    return (errorOf answer, t)
  | release roots, t => return (none, t.release roots)
  | refresh now token duration, t => do
    let (answer, t) ← t.refresh now token duration
    return (errorOf answer, t)
  | unlock now token, t => do
    let (answer, t) ← t.unlock now token
    return (errorOf answer, t)

def runAll (calls : List LockCall) (t : MemLs) : Except LockPanic MemLs :=
  calls.foldlM (fun t call => do return (← call.run t).2) t

end LockCall

end Rustorr
