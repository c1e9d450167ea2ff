import Rustorr.Lifecycle.World

/-! Settings calls under way at once. Each persists the settings, sets the cache's
cap and replaces the copy in memory in separate statements, and another call may
come in between any two. -/

namespace Rustorr

open Function (update)
open Lifecycle (Error)

/-- A call that changes the settings. -/
inductive SettingsUpdate where
  | set (settings : Settings)
  | reset
  | storage (settingsInJson viewedInJson : Option Bool)
  deriving DecidableEq

/-- The settings with the given storage flags. -/
def Settings.withStorage (settingsInJson viewedInJson : Option Bool) (s : Settings) : Settings :=
  { s with
    storeSettingsInJson := settingsInJson.getD s.storeSettingsInJson
    storeViewedInJson := viewedInJson.getD s.storeViewedInJson }

@[simp] theorem Settings.cacheCap_withStorage (a b : Option Bool) (s : Settings) :
    (s.withStorage a b).cacheCap = s.cacheCap := rfl

/-- What the settings are to be after the call, from what they are before it. -/
def SettingsUpdate.apply : SettingsUpdate → Settings → Settings
  | set settings, _ => settings.normalized
  | reset, _ => Settings.default.normalized
  | storage settingsInJson viewedInJson, s => s.withStorage settingsInJson viewedInJson

/-- The statements of the calls that reach what they share. `settle` is
`drop_all_live` and `evict_to_cap`, which change none of it. -/
inductive SettingsCall where
  | settings
  | persist (settings : Settings)
  | setCapBytes (capBytes : ℕ)
  | replace (settings : Settings)
  | settle

abbrev SettingsCall.Ans : SettingsCall → Type
  | settings => Settings
  | persist _ => Except State.Error Unit
  | setCapBytes _ => Unit
  | replace _ => Unit
  | settle => Except Error Unit

abbrev SettingsM : Type → Type := Prog SettingsCall SettingsCall.Ans Error

namespace SettingsUpdate

/-- `set_settings`. -/
def setSettings (readOnly : Bool) (settings : Settings) : SettingsM Unit :=
  if readOnly then pure ()
  else do
    let settings := settings.normalized
    let saved ← Prog.perform (SettingsCall.persist settings)
    Prog.ofExcept (saved.mapError .state)
    let () ← Prog.perform (SettingsCall.setCapBytes settings.cacheCap)
    let () ← Prog.perform (SettingsCall.replace settings)
    let settled ← Prog.perform SettingsCall.settle
    Prog.ofExcept settled

/-- `set_storage_preferences`. -/
def setStoragePreferences (readOnly : Bool) (settingsInJson viewedInJson : Option Bool) :
    SettingsM Unit :=
  if readOnly then pure ()
  else do
    let settings ← Prog.perform SettingsCall.settings
    let settings := settings.withStorage settingsInJson viewedInJson
    let saved ← Prog.perform (SettingsCall.persist settings)
    Prog.ofExcept (saved.mapError .state)
    let () ← Prog.perform (SettingsCall.replace settings)
    pure ()

def body (readOnly : Bool) : SettingsUpdate → SettingsM Unit
  | set settings => setSettings readOnly settings
  | reset => setSettings readOnly Settings.default
  | storage settingsInJson viewedInJson =>
    setStoragePreferences readOnly settingsInJson viewedInJson

end SettingsUpdate

/-- How far a call is between its first statement on the shared settings and the
replacement of the copy in memory. -/
inductive SettingsPhase where
  | outside
  /-- It read the settings to change them. -/
  | read (settings : Settings)
  /-- It saved the settings, the cap is still to be set. -/
  | persisted (settings : Settings)
  /-- The copy in memory is still to be replaced. -/
  | capped (settings : Settings)
  deriving DecidableEq

/-- The phase after a statement. -/
def SettingsCall.next : (c : SettingsCall) → c.Ans → SettingsPhase → SettingsPhase
  | .settings, s, _ => .read s
  | .persist s, .ok (), .read _ => .capped s
  | .persist s, .ok (), _ => .persisted s
  | .persist _, .error _, _ => .outside
  | .setCapBytes _, (), .persisted s => .capped s
  | .setCapBytes _, (), phase => phase
  | .replace _, (), _ => .outside
  | .settle, _, phase => phase

structure SettingsTask where
  update : SettingsUpdate
  body : SettingsM Unit
  phase : SettingsPhase

/-- `document` is the persisted settings, `settings` the copy in memory; `history`
lists the updates in the order in which they were saved. -/
structure SettingsPool where
  readOnly : Bool
  state : State Settings
  capBytes : ℕ
  settings : Settings
  tasks : ℕ → Option SettingsTask
  history : List SettingsUpdate
  results : List (Except Error Unit)

inductive SettingsEvent where
  | request (i : ℕ) (update : SettingsUpdate)
  | call (i : ℕ)
  | answer (i : ℕ)

namespace SettingsPool

/-- A coordinator whose copies of the settings agree. -/
def start (readOnly : Bool) (state : State Settings) (settings : Settings) : SettingsPool :=
  ⟨readOnly, { state with settings := some settings }, settings.cacheCap, settings, fun _ => none,
    [], []⟩

/-- A statement of task `i`. `fails` tells whether the database fails and
`settled` how what follows the replacement ends. -/
def answer (fails : Bool) (settled : Except Error Unit) (p : SettingsPool) :
    (c : SettingsCall) → c.Ans × SettingsPool
  | .settings => (p.settings, p)
  | .persist s =>
    let (result, state) := p.state.setSettings fails s
    (result, { p with state })
  | .setCapBytes n => ((), { p with capBytes := n })
  | .replace s => ((), { p with settings := s })
  | .settle => (settled, p)

/-- The updates a statement saves. -/
def saves (u : SettingsUpdate) : (c : SettingsCall) → c.Ans → List SettingsUpdate
  | .persist _, .ok () => [u]
  | _, _ => []

inductive Step : SettingsPool → SettingsEvent → SettingsPool → Prop
  | request {p i} (u : SettingsUpdate) : p.tasks i = none →
    Step p (.request i u) { p with tasks := update p.tasks i (some ⟨u, u.body p.readOnly, .outside⟩) }
  | call {p i u c k phase} (fails : Bool) (settled : Except Error Unit) :
    p.tasks i = some ⟨u, .call c k, phase⟩ →
    Step p (.call i)
      (let (x, p') := p.answer fails settled c
       { p' with
         tasks := update p.tasks i (some ⟨u, k x, c.next x phase⟩)
         history := p.history ++ saves u c x })
  | answer {p i u r phase} : p.tasks i = some ⟨u, .ret r, phase⟩ →
    Step p (.answer i)
      { p with tasks := update p.tasks i none, results := p.results ++ [.ok ()] }
  | refuse {p i u e phase} : p.tasks i = some ⟨u, .fail e, phase⟩ →
    Step p (.answer i)
      { p with tasks := update p.tasks i none, results := p.results ++ [.error e] }

inductive Reachable (allowed : SettingsPool → SettingsEvent → Prop) (readOnly : Bool)
    (state : State Settings) (settings : Settings) : SettingsPool → Prop
  | start : Reachable allowed readOnly state settings (start readOnly state settings)
  | step {p e p'} : Reachable allowed readOnly state settings p → Step p e p' → allowed p e →
    Reachable allowed readOnly state settings p'

/-- A call comes to its first statement on the settings while another is between
its own and the replacement of the copy in memory. -/
def Slip (p : SettingsPool) : SettingsEvent → Prop
  | .call i => ∃ u c k, p.tasks i = some ⟨u, .call c k, .outside⟩ ∧
    (c = .settings ∨ ∃ s, c = .persist s) ∧
    ∃ j task, p.tasks j = some task ∧ task.phase ≠ .outside
  | _ => False

/-- The settings after the updates of the history. -/
def replay (settings : Settings) (history : List SettingsUpdate) : Settings :=
  history.foldl (fun s u => u.apply s) settings

/-- The document, the cap and the copy in memory are those of one settings. -/
def Agrees (p : SettingsPool) (settings : Settings) : Prop :=
  p.state.settings = some settings ∧ p.capBytes = settings.cacheCap ∧ p.settings = settings

end SettingsPool

end Rustorr
