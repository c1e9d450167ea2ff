import Rustorr.Domain
import Rustorr.Lib.Mealy
import Mathlib.Data.List.Basic

/-! The DLNA server and its announcer (`discovery.rs`, `ssdp.rs`, `identity.rs`), and the
requests that stop and start them. Between any two statements of a request others come. -/

namespace Rustorr

structure Address where
  ip : String
  isIpv4 : Bool
  isLoopback : Bool

structure Interface where
  up : Bool
  loopback : Bool
  multicast : Bool
  addresses : List Address

/-- What the names are made of, and whether the coordinator is read-only. -/
structure Host where
  readOnly : Bool
  userFullName : Option String
  hostname : Option String
  interfaces : List Interface
  md5 : String → List UInt8

namespace Host

def DEFAULT_NAME : String := "TorrServer"

/-- The first of the addresses as texts in order. -/
def firstAddress (host : Host) : Option String :=
  let addresses := (host.interfaces.filter fun i => !i.loopback && i.up && i.multicast).flatMap
    fun i => (i.addresses.filter fun a => a.isIpv4 && !a.isLoopback).map Address.ip
  (addresses.mergeSort fun a b => decide (a ≤ b)).head?

def dlnaFriendlyName (host : Host) (configured : String) : String :=
  let user := host.userFullName.getD ""
  let hostname := host.hostname.getD ""
  let fallback := s!"{DEFAULT_NAME}: {user}@{hostname}"
  if configured ≠ "" then configured
  else if user = "" ∧ hostname = "" then DEFAULT_NAME
  else if user ≠ "" ∧ hostname ≠ "" then
    if user = hostname then s!"{DEFAULT_NAME}: {user}"
    else s!"{DEFAULT_NAME}: {user} on {hostname}"
  else if hostname = "localhost" then
    match host.firstAddress with
    | some first => s!"{DEFAULT_NAME} {first}"
    | none => fallback
  else fallback

def deviceUuid (host : Host) (friendlyName : String) : String :=
  let digest := host.md5 friendlyName
  let hex (start end_ : ℕ) : String :=
    String.ofList (((digest.take end_).drop start).flatMap InfoHash.hexByte)
  s!"uuid:{hex 0 4}-{hex 4 6}-{hex 6 8}-{hex 8 10}-{hex 10 16}"

end Host

/-- The settings that discovery reads. -/
structure DlnaSettings where
  enableDlna : Bool
  friendlyName : String
  deriving DecidableEq

namespace DlnaSettings

def default : DlnaSettings := ⟨false, ""⟩

/-- The configured name of the server that is to run. -/
def wanted (s : DlnaSettings) : Option String := if s.enableDlna then some s.friendlyName else none

end DlnaSettings

structure DlnaServer where
  port : ℕ
  friendlyName : String
  udn : String
  deriving DecidableEq

structure SsdpConfig where
  uuid : String
  httpPort : ℕ
  deriving DecidableEq

/-- The statement a request comes to next. -/
inductive HandlerPhase where
  /-- `/settings`; `dlna` is the flag that discovery is told. -/
  | storing (settings : DlnaSettings) (dlna : Bool)
  | replacing (settings : DlnaSettings) (dlna : Bool)
  | settling (dlna : Bool)
  | answering (dlna : Bool)
  /-- `/storage/settings`. -/
  | copying
  | storingCopy (settings : DlnaSettings)
  | replacingCopy (settings : DlnaSettings)
  /-- `/torrents`. -/
  | changing
  | asking
  | rereading
  /-- `stop_dlna`; `next` is the name to start with afterwards. -/
  | stopping (next : Option String)
  | waiting (next : Option String) (server : DlnaServer)
  | silencing (next : Option String)
  /-- `start_dlna`. -/
  | starting (configuredName : String)
  | binding (configuredName : String)
  | announcing (configuredName : String) (port : ℕ)
  | installing (configuredName : String) (port : ℕ)
  | ended
  deriving DecidableEq

inductive DiscoveryRequest where
  | set (settings : DlnaSettings)
  | defaults
  | storage
  | catalog

/-- `stored` is the document in the database and `inEffect` the copy in memory; `dlna` is the
slot with the server and `lock` the request that has its lock. -/
structure Discovery where
  stored : DlnaSettings
  inEffect : DlnaSettings
  dlna : Option DlnaServer
  ssdp : Option SsdpConfig
  lock : Option ℕ
  handlers : List HandlerPhase

inductive DiscoveryEvent where
  | request (r : DiscoveryRequest)
  /-- A request comes to its next statement; `taken` are the ports that cannot be bound. -/
  | proceed (i : ℕ) (fails : Bool) (taken : List ℕ)

namespace HandlerPhase

/-- What a request is still to do with the server once the settings are `inEffect`: stop it
or start it anew under a name. -/
def plan (inEffect : DlnaSettings) : HandlerPhase → Option (Option String)
  | replacing settings dlna => some (if dlna then some settings.friendlyName else none)
  | settling dlna | answering dlna => some (if dlna then some inEffect.friendlyName else none)
  | asking => inEffect.wanted.map some
  | rereading => some (some inEffect.friendlyName)
  | stopping next => some next
  | waiting (some name) _ | silencing (some name) | starting name | binding name
  | announcing name _ => some (some name)
  | _ => none

def afterStop : Option String → HandlerPhase
  | none => ended
  | some name => starting name

def installs : HandlerPhase → Bool
  | installing _ _ => true
  | _ => false

end HandlerPhase

namespace DiscoveryRequest

/-- The first statement of a request. -/
def first (readOnly : Bool) : DiscoveryRequest → HandlerPhase
  | set settings =>
    if readOnly then .answering settings.enableDlna else .storing settings settings.enableDlna
  | defaults => if readOnly then .answering false else .storing .default false
  | storage => if readOnly then .ended else .copying
  | catalog => .changing

end DiscoveryRequest

namespace Discovery

variable (host : Host)

def DLNA_FIRST_PORT : ℕ := 9080

/-- The first port that can be bound. -/
def firstFree (taken : List ℕ) : Option ℕ :=
  (List.range' DLNA_FIRST_PORT (2 ^ 16 - DLNA_FIRST_PORT)).find? fun port => !taken.contains port

def server (configuredName : String) (port : ℕ) : DlnaServer :=
  let friendlyName := host.dlnaFriendlyName configuredName
  ⟨port, friendlyName, host.deviceUuid friendlyName⟩

def announcement (s : DlnaServer) : SsdpConfig := ⟨s.udn, s.port⟩

/-- The servers whose handles something still has: a server whose handle is dropped stops. -/
def running (d : Discovery) : List DlnaServer :=
  d.dlna.toList ++ d.handlers.filterMap fun phase => match phase with
    | .waiting _ server => some server
    | .announcing name port | .installing name port => some (server host name port)
    | _ => none

def goTo (d : Discovery) (i : ℕ) (phase : HandlerPhase) : Discovery :=
  { d with handlers := d.handlers.set i phase }

def statement (d : Discovery) (i : ℕ) (fails : Bool) (taken : List ℕ) : HandlerPhase → Discovery
  | .storing settings dlna =>
    if fails then d.goTo i .ended
    else ({ d with stored := settings } : Discovery).goTo i (.replacing settings dlna)
  | .replacing settings dlna =>
    ({ d with inEffect := settings } : Discovery).goTo i (.settling dlna)
  -- `drop_all_live` and `evict_to_cap`
  | .settling dlna => if fails then d.goTo i .ended else d.goTo i (.answering dlna)
  | .answering dlna =>
    d.goTo i (.stopping (if dlna then some d.inEffect.friendlyName else none))
  -- the storage flags, which change in the copy, are nothing to discovery
  | .copying => d.goTo i (.storingCopy d.inEffect)
  | .storingCopy settings =>
    if fails then d.goTo i .ended
    else ({ d with stored := settings } : Discovery).goTo i (.replacingCopy settings)
  | .replacingCopy settings => ({ d with inEffect := settings } : Discovery).goTo i .ended
  | .changing => if fails then d.goTo i .ended else d.goTo i .asking
  | .asking => if d.inEffect.enableDlna then d.goTo i .rereading else d.goTo i .ended
  | .rereading => d.goTo i (.stopping (some d.inEffect.friendlyName))
  | .stopping next =>
    if d.lock.isSome then d
    else match d.dlna with
      | none => d.goTo i (.afterStop next)
      | some server => ({ d with dlna := none } : Discovery).goTo i (.waiting next server)
  | .waiting next _ => d.goTo i (.silencing next)
  | .silencing next => ({ d with ssdp := none } : Discovery).goTo i (.afterStop next)
  | .starting name =>
    if d.lock.isSome then d
    else ({ d with lock := some i } : Discovery).goTo i (.binding name)
  | .binding name => match firstFree taken with
    | none => ({ d with lock := none } : Discovery).goTo i .ended
    | some port => d.goTo i (.announcing name port)
  | .announcing name port =>
    ({ d with ssdp := some (announcement (server host name port)) } : Discovery).goTo i
      (.installing name port)
  -- a server that another request has put there meanwhile is dropped
  | .installing name port =>
    ({ d with dlna := some (server host name port), lock := none } : Discovery).goTo i .ended
  | .ended => d

def step (d : Discovery) : DiscoveryEvent → Unit × Discovery
  | .request r => ((), { d with handlers := d.handlers ++ [r.first host.readOnly] })
  | .proceed i fails taken => ((), match d.handlers[i]? with
    | none => d
    | some phase => d.statement host i fails taken phase)

/-- A start under the stored settings; it is the first of the handlers. -/
def start (settings : DlnaSettings) : Discovery :=
  ⟨settings, settings, none, none, none, [HandlerPhase.afterStop settings.wanted]⟩

/-- When no request is under way, what runs and is announced is what the stored settings ask
for. -/
def FollowsSettings (d : Discovery) : Prop :=
  (∀ phase ∈ d.handlers, phase = .ended) → match d.stored.wanted with
    | none => d.running host = [] ∧ d.ssdp = none
    | some name => ∃ port, d.running host = [server host name port] ∧
        d.ssdp = some (announcement (server host name port))

/-- Another request is still to stop or start the server as `stored` has it. -/
def Covered (d : Discovery) (stored inEffect : DlnaSettings) (i : ℕ) : Prop :=
  ∃ j : Fin d.handlers.length, j.val ≠ i ∧
    (d.handlers[j].plan inEffect = some stored.wanted)

def Installs (d : Discovery) : Prop := ∃ phase ∈ d.handlers, phase.installs = true

/-- The server is as `stored` has it, or is being put into its slot. -/
def Settled (stored : DlnaSettings) (d : Discovery) : Prop :=
  (stored.wanted = none → d.dlna = none ∧ ¬d.Installs) ∧
    ∀ name ∈ stored.wanted, ∃ a ∈ d.ssdp,
      a = announcement (server host name a.httpPort) ∧
      (.installing name a.httpPort ∈ d.handlers ∨
        d.dlna = some (server host name a.httpPort) ∧ ¬d.Installs)

/-- The statement goes wrong: a request that is not up to date stops or announces the server,
one fails that was to bring it up to date, or other settings than those stored are put in
effect, and no other request is still to bring it up to date. -/
def Slips (d : Discovery) (i : ℕ) (fails : Bool) (taken : List ℕ) : HandlerPhase → Prop
  | .replacing settings _ | .replacingCopy settings =>
    settings.wanted ≠ d.stored.wanted ∧ ¬d.Covered d.stored settings i ∧ ¬d.Settled host d.stored
  | .settling _ => fails = true ∧ ¬d.Covered d.stored d.inEffect i ∧ ¬d.Settled host d.stored
  | .storingCopy settings =>
    fails = false ∧ settings.wanted ≠ d.stored.wanted ∧ ¬d.Covered settings d.inEffect i ∧
      ¬d.Settled host settings
  | .stopping next =>
    d.lock = none ∧ d.stored.wanted ≠ none ∧ next ≠ d.stored.wanted ∧
      ¬d.Covered d.stored d.inEffect i
  | .silencing next =>
    d.stored.wanted ≠ none ∧ next ≠ d.stored.wanted ∧ ¬d.Covered d.stored d.inEffect i
  | .binding _ =>
    firstFree taken = none ∧ ¬d.Covered d.stored d.inEffect i ∧ ¬d.Settled host d.stored
  | .announcing name _ => some name ≠ d.stored.wanted ∧ ¬d.Covered d.stored d.inEffect i
  | _ => False

def Slip (d : Discovery) : DiscoveryEvent → Prop
  | .request _ => False
  | .proceed i fails taken => ∃ phase ∈ d.handlers[i]?, d.Slips host i fails taken phase

instance decidableCovered (d : Discovery) (stored inEffect : DlnaSettings) (i : ℕ) :
    Decidable (d.Covered stored inEffect i) :=
  inferInstanceAs (Decidable (∃ j : Fin d.handlers.length, j.val ≠ i ∧
    d.handlers[j].plan inEffect = some stored.wanted))

instance decidableInstalls (d : Discovery) : Decidable d.Installs :=
  inferInstanceAs (Decidable (∃ phase ∈ d.handlers, phase.installs = true))

instance decidableSettled (stored : DlnaSettings) (d : Discovery) :
    Decidable (d.Settled host stored) :=
  inferInstanceAs (Decidable (_ ∧ _))

instance decidableSlips (d : Discovery) (i : ℕ) (fails : Bool) (taken : List ℕ) :
    DecidablePred (d.Slips host i fails taken) := fun phase => match phase with
  | .replacing _ _ | .replacingCopy _ | .settling _ | .storingCopy _ | .stopping _ | .silencing _
  | .binding _ | .announcing _ _ => inferInstanceAs (Decidable (_ ∧ _))
  | .storing _ _ | .answering _ | .copying | .changing | .asking | .rereading | .waiting _ _
  | .starting _ | .installing _ _ | .ended => inferInstanceAs (Decidable False)

instance decidableSlip (d : Discovery) (e : DiscoveryEvent) : Decidable (d.Slip host e) :=
  match e with
  | .request _ => inferInstanceAs (Decidable False)
  | .proceed i fails taken =>
    inferInstanceAs (Decidable (∃ phase ∈ d.handlers[i]?, d.Slips host i fails taken phase))

end Discovery

end Rustorr
