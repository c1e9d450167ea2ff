import Rustorr.Http.LockTable
import Rustorr.Lib.Prog

/-! The WebDAV handlers that lock: each is a program over the critical sections
of the lock table and the looks at the file system, which are its await points. -/

namespace Rustorr

def davPrefix : Path := ['/', 'd', 'a', 'v']

/-- What a write operation holds while it runs. -/
inductive Held where
  /-- Locks created because the request named none, by token. -/
  | temporary (tokens : List (List Char))
  /-- Locks the `If` header confirmed, by root. -/
  | confirmed (roots : List Path)
  deriving DecidableEq, Repr

/-- The resource a list of an `If` header is about, as its URL parses. -/
inductive ResourceTag where
  | untagged
  | unusable
  | url (authority : List Char) (path : Path)
  deriving DecidableEq, Repr

structure IfList where
  tag : ResourceTag
  conditions : List Condition
  deriving DecidableEq, Repr

/-- An `If` header as it parses. -/
inductive IfHeader where
  | absent
  | malformed
  | lists (lists : List IfList)
  deriving DecidableEq, Repr

/-- `parse_depth` of a `Depth` header. -/
inductive DepthHeader where
  | absent
  | invalid
  | zero
  | one
  | infinity
  deriving DecidableEq, Repr

inductive LockInfo where
  /-- No body: a refresh. -/
  | empty
  | exclusive (ownerXml : List Char)
  | unsupported
  deriving DecidableEq, Repr

/-- What a look at a path finds. -/
inductive Stat where
  | found
  | notFound
  | invalid
  deriving DecidableEq, Repr

inductive DavAnswer where
  | status (code : ℕ)
  | multiStatus
  /-- The body of a `LOCK` answer, with a token header if the lock is new. -/
  | lock (token : List Char) (details : LockDetails) (newLock : Bool)
  deriving DecidableEq, Repr

/-! ### Critical sections -/

namespace MemLs

def unlockAll (t : MemLs) (now : ℕ) (tokens : List (List Char)) : Except LockPanic MemLs :=
  tokens.foldlM (fun t token => do return (← t.unlock now token).2) t

/-- A zero-depth lock on each named resource, or none. -/
def lockTemporarily (t : MemLs) (now : ℕ) :
    List Path → List (List Char) → Except LockPanic (Except ℕ Held × MemLs)
  | [], tokens => .ok (.ok (.temporary tokens), t)
  | name :: names, tokens =>
    if name = [] then lockTemporarily t now names tokens
    else do
      match ← t.create now ⟨name, none, [], true⟩ with
      | (.ok token, t) => lockTemporarily t now names (tokens ++ [token])
      | (.error error, t) => do
        let t ← t.unlockAll now tokens
        return (.error (if error = .locked then 423 else 500), t)

/-- The first list whose conditions confirm locks for the request. -/
def confirmLists (t : MemLs) (now : ℕ) (host : List Char) (source destination : Path) :
    List IfList → Except LockPanic (Except ℕ Held × MemLs)
  | [] => .ok (.error 412, t)
  | list :: lists =>
    let confirming (lockedSource : Path) : Except LockPanic (Except ℕ Held × MemLs) := do
      match ← t.confirm now lockedSource destination list.conditions with
      | (.ok held, t) => return (.ok (.confirmed held), t)
      | (.error .confirmationFailed, t) => confirmLists t now host source destination lists
      | (.error _, t) => return (.error 500, t)
    match list.tag with
    | .untagged => confirming source
    | .unusable => confirmLists t now host source destination lists
    | .url authority path =>
      if authority ≠ host then confirmLists t now host source destination lists
      else match path.dropPrefix? davPrefix with
        | none => .ok (.error 404, t)
        | some stripped => confirming stripped

def confirmLocks (t : MemLs) (now : ℕ) (header : IfHeader) (host : List Char)
    (source destination : Path) : Except LockPanic (Except ℕ Held × MemLs) :=
  match header with
  | .absent => t.lockTemporarily now [source, destination] []
  | .malformed => .ok (.error 400, t)
  | .lists lists => t.confirmLists now host source destination lists

def releaseHeld (t : MemLs) (now : ℕ) : Held → Except LockPanic MemLs
  | .temporary tokens => t.unlockAll now tokens
  | .confirmed roots => .ok (t.release roots)

end MemLs

/-- What a handler waits for. -/
inductive DavCall where
  | confirmLocks (header : IfHeader) (host : List Char) (source destination : Path)
  | release (held : Held)
  | create (now : ℕ) (details : LockDetails)
  | refresh (now : ℕ) (token : List Char) (duration : Option ℕ)
  | unlock (token : List Char)
  /-- `unlock` with a time read before. -/
  | unlockAt (now : ℕ) (token : List Char)
  | stat (path : Path)

namespace DavCall

def Ans : DavCall → Type
  | confirmLocks _ _ _ _ => Except ℕ Held
  | release _ => Unit
  | create _ _ => Except LockError (List Char)
  | refresh _ _ _ => Except LockError LockDetails
  | unlock _ => Except LockError Unit
  | unlockAt _ _ => Except LockError Unit
  | stat _ => Stat

/-- The call at the time `now`, with what a look at the file system finds. -/
def run (now : ℕ) (seen : Stat) : (c : DavCall) → MemLs → Except LockPanic (c.Ans × MemLs)
  | confirmLocks header host source destination, t =>
    t.confirmLocks now header host source destination
  | release held, t => (t.releaseHeld now held).map fun t => ((), t)
  | create now details, t => t.create now details
  | refresh now token duration, t => t.refresh now token duration
  | unlock token, t => t.unlock now token
  | unlockAt now token, t => t.unlock now token
  | stat _, t => .ok (seen, t)

end DavCall

/-! ### Handlers -/

abbrev Dav (α : Type) : Type := Prog DavCall DavCall.Ans Empty α

structure Context where
  path : Path
  host : List Char
  ifHeader : IfHeader

namespace Context

variable (c : Context)

def fsPath (name : Path) : Path := Path.clean ('/' :: name)

def stat (path : Path) : Dav Stat := Prog.perform (DavCall.stat (fsPath path))

def confirmLocks (source destination : Path) : Dav (Except ℕ Held) :=
  Prog.perform (DavCall.confirmLocks c.ifHeader c.host source destination)

def release (held : Held) : Dav Unit := Prog.perform (DavCall.release held)

def delete : Dav DavAnswer := do
  match ← c.confirmLocks c.path [] with
  | .error code => return .status code
  | .ok held => do
    let info ← stat c.path
    release held
    return .status (if info = .notFound then 404 else 405)

def put : Dav DavAnswer := do
  match ← c.confirmLocks c.path [] with
  | .error code => return .status code
  | .ok held => do
    release held
    return .status 404

def mkcol (empty : Bool) : Dav DavAnswer := do
  match ← c.confirmLocks c.path [] with
  | .error code => return .status code
  | .ok held => do
    release held
    return .status (if empty then 405 else 415)

/-- The code of a `COPY` that got its locks. -/
def copyCode (destination : Path) (depth : DepthHeader) (overwrite : List Char) : Dav ℕ := do
  if depth = .one ∨ depth = .invalid then return 400
  match ← stat c.path with
  | .notFound => return 404
  | .invalid => return 500
  | .found =>
    match ← stat destination with
    | .found => return if overwrite = ['F'] then 412 else 403
    | _ => return 403

/-- The code of a `MOVE` that got its locks. -/
def moveCode (destination : Path) (depth : DepthHeader) (overwrite : List Char) : Dav ℕ := do
  if depth ≠ .absent ∧ depth ≠ .infinity then return 400
  match ← stat destination with
  | .found => return if overwrite = ['T'] then 403 else 412
  | _ => return 403

/-- The `Destination` header is absent, not a URL, or a host and a path. -/
def copyMove (copy : Bool) (header : Option (Option (List Char × Path))) (depth : DepthHeader)
    (overwrite : List Char) : Dav DavAnswer :=
  match header with
  | none => return .status 400
  | some none => return .status 400
  | some (some (host, path)) =>
    if host ≠ [] ∧ host ≠ c.host then return .status 502
    else match path.dropPrefix? davPrefix with
      | none => return .status 404
      | some destination =>
        if destination = [] then return .status 502
        else if destination = c.path then return .status 403
        else do
          match ← c.confirmLocks (if copy then [] else c.path) destination with
          | .error code => return .status code
          | .ok held => do
            let code ← if copy then c.copyCode destination depth overwrite
              else moveCode destination depth overwrite
            release held
            return .status code

/-- A `LOCK` that names its lock in the `If` header. -/
def refreshLock (now : ℕ) (duration : Option ℕ) : Dav DavAnswer :=
  let refreshing (token : List Char) : Dav DavAnswer :=
    if token = [] then return .status 400
    else do
      let refreshed : Except LockError LockDetails ← Prog.perform (DavCall.refresh now token duration)
      match refreshed with
      | .ok details => return .lock token details false
      | .error .noSuchLock => return .status 412
      | .error _ => return .status 500
  match c.ifHeader with
  | .malformed => return .status 400
  | .lists [⟨_, [condition]⟩] => refreshing condition.token
  | _ => refreshing []

/-- A `LOCK` of the resource: it answers with the lock, or unlocks it again where
the resource is missing. -/
def newLock (now : ℕ) (details : LockDetails) : Dav DavAnswer := do
  let created : Except LockError (List Char) ← Prog.perform (DavCall.create now details)
  match created with
  | .error .locked => return .status 423
  | .error _ => return .status 500
  | .ok token => do
    let info ← stat c.path
    if info ≠ .found then
      let _ : Except LockError Unit ← Prog.perform (DavCall.unlockAt now token)
      return .status 500
    return .lock token details true

/-- The `Timeout` header and the body come as they parse. -/
def lock (now : ℕ) (timeout : Option (Option ℕ)) (info : Option LockInfo) (depth : DepthHeader) :
    Dav DavAnswer :=
  match timeout with
  | none => return .status 400
  | some duration =>
    match info with
    | none => return .status 400
    | some .unsupported => return .status 501
    | some .empty => c.refreshLock now duration
    | some (.exclusive ownerXml) =>
      if depth = .one ∨ depth = .invalid then return .status 400
      else c.newLock now ⟨c.path, duration, ownerXml, decide (depth = .zero)⟩

/-- The token is what the `Lock-Token` header has between its brackets. -/
def unlock (token : Option (List Char)) : Dav DavAnswer :=
  match token with
  | none => return .status 400
  | some token => do
    let result : Except LockError Unit ← Prog.perform (DavCall.unlock token)
    match result with
    | .ok () => return .status 204
    | .error .locked => return .status 423
    | .error .noSuchLock => return .status 409
    | .error .confirmationFailed => return .status 500

/-- `names` says of each property the body patches whether it is a live one. -/
def proppatchLocked (names : Option (List Bool)) : Dav DavAnswer := do
  match ← stat c.path with
  | .notFound => return .status 404
  | .invalid => return .status 405
  | .found =>
    match names with
    | none => return .status 400
    | some names => return if names.any id then .multiStatus else .status 500

def proppatch (names : Option (List Bool)) : Dav DavAnswer := do
  match ← c.confirmLocks c.path [] with
  | .error code => return .status code
  | .ok held => do
    let response ← c.proppatchLocked names
    release held
    return response

end Context

/-- A request with what its handler reads of it. -/
inductive DavRequest where
  | delete
  | put
  | mkcol (empty : Bool)
  | copyMove (copy : Bool) (destination : Option (Option (List Char × Path)))
    (depth : DepthHeader) (overwrite : List Char)
  | proppatch (names : Option (List Bool))
  | lock (now : ℕ) (timeout : Option (Option ℕ)) (info : Option LockInfo) (depth : DepthHeader)
  | unlock (token : Option (List Char))

def DavRequest.body (c : Context) : DavRequest → Dav DavAnswer
  | .delete => c.delete
  | .put => c.put
  | .mkcol empty => c.mkcol empty
  | .copyMove copy destination depth overwrite => c.copyMove copy destination depth overwrite
  | .proppatch names => c.proppatch names
  | .lock now timeout info depth => c.lock now timeout info depth
  | .unlock token => Context.unlock token

end Rustorr
