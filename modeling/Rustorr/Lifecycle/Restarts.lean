import Rustorr.Lib.Mealy
import Rustorr.Lifecycle.SettingsPool

/-! Settings across restarts: a coordinator that starts on a database reads the document
that an earlier one has left, and its commands replace it. -/

namespace Rustorr

open Lifecycle (Error)

/-- `serde_json` of the settings. -/
structure SettingsText (δ : Type) where
  toString : Settings → δ
  fromStr : δ → Option Settings

namespace State

variable {δ : Type}

/-- `State::settings`. -/
def document (fails : Bool) (s : State δ) : Except Error (Option δ) :=
  if fails then .error (.database "load settings") else .ok s.settings

end State

/-- The part of a running coordinator that its settings decide. -/
structure RunningSettings where
  settings : Settings
  capBytes : ℕ
  readOnly : Bool

/-- A database, the coordinator that runs on it, and what a command stored last. -/
structure Lifetime (δ : Type) where
  state : State δ
  running : Option RunningSettings
  stored : Option Settings

inductive LifetimeEvent where
  /-- A process starts; `capBytes` is the cap its cache was made with. -/
  | start (readFails writeFails : Bool) (capBytes : ℕ) (readOnly : Bool)
  /-- A command; `settled` is how what follows the replacement ends. -/
  | command (update : SettingsUpdate) (fails : Bool) (settled : Except Error Unit)

namespace Lifetime

variable {δ : Type} (text : SettingsText δ)

/-- The settings of a coordinator that finds none. -/
def defaults (capBytes : ℕ) : Settings :=
  { Settings.default with cacheSize := if capBytes < 2 ^ 63 then capBytes else 2 ^ 63 - 1 }

/-- What `TorrentCoordinator::new` does with the settings. -/
def startUp (readFails writeFails : Bool) (capBytes : ℕ) (state : State δ) : Settings × State δ :=
  let document := match state.document readFails with
    | .ok document => document
    | .error _ => none
  match document.bind text.fromStr with
  | some settings => (settings.normalized, state)
  | none =>
    let settings := defaults capBytes
    let (_, state) := state.setSettings writeFails (text.toString settings)
    (settings.normalized, state)

/-- A statement of a command. `fails` tells whether the database fails. -/
def answer (fails : Bool) (settled : Except Error Unit) (c : SettingsCall)
    (p : RunningSettings × State δ × Option Settings) :
    Option c.Ans × (RunningSettings × State δ × Option Settings) :=
  match c with
  | .settings => (some p.1.settings, p)
  | .persist s =>
    let (result, state) := p.2.1.setSettings fails (text.toString s)
    (some result, p.1, state, if result.isOk then some s else p.2.2)
  | .setCapBytes n => (some (), { p.1 with capBytes := n }, p.2)
  | .replace s => (some (), { p.1 with settings := s }, p.2)
  | .settle => (some settled, p)

def step (p : Lifetime δ) : LifetimeEvent → Option (Except Error Unit) × Lifetime δ
  | .start readFails writeFails capBytes readOnly =>
    let (settings, state) := startUp text readFails writeFails capBytes p.state
    (none, { p with state := state, running := some ⟨settings, settings.cacheCap, readOnly⟩ })
  | .command u fails settled => match p.running with
    | none => (none, p)
    | some r =>
      let (result, r, state, stored) :=
        Prog.run (answer text fails settled) (u.body r.readOnly) (r, p.state, p.stored)
      (result, ⟨state, some r, stored⟩)

/-- The settings in effect. -/
def inEffect (p : Lifetime δ) : Option Settings := p.running.map RunningSettings.settings

/-- What is asked of a step: a start leaves a document that is stored, and if it can read it,
the settings in effect are those a command stored last; a command that succeeds has stored
its own, but for a coordinator that is read-only. -/
def Survives (p : Lifetime δ) : LifetimeEvent → Prop
  | .start readFails writeFails capBytes readOnly =>
    let p' := (step text p (.start readFails writeFails capBytes readOnly)).2
    (∀ d, p.state.settings = some d → p'.state.settings = some d) ∧
      (readFails = false → ∀ s, p.stored = some s → p'.inEffect = some s)
  | .command u fails settled =>
    ∀ r, p.running = some r → r.readOnly = false →
      (step text p (.command u fails settled)).1 = some (.ok ()) →
        (step text p (.command u fails settled)).2.stored = some (u.apply r.settings) ∧
        (step text p (.command u fails settled)).2.state.settings =
          some (text.toString (u.apply r.settings))

/-- A start that fails to read or to parse what is stored, and does not fail to write its
defaults over it. -/
def Overwrites (p : Lifetime δ) : LifetimeEvent → Prop
  | .start readFails writeFails capBytes _ =>
    ∃ d, p.state.settings = some d ∧ (readFails = true ∨ text.fromStr d = none) ∧
      writeFails = false ∧ d ≠ text.toString (defaults capBytes)
  | .command _ _ _ => False

/-! ### Normal settings -/

theorem normalized_normalized (s : Settings) : s.normalized.normalized = s.normalized := by
  have hclamp : ∀ lo x : ℤ, lo ≤ 100 → max lo (min 100 (max lo (min 100 x))) = max lo (min 100 x) := by
    intro lo x hlo
    omega
  unfold Settings.normalized
  simp only [Settings.mk.injEq, true_and, and_true]
  refine ⟨?_, hclamp 5 _ (by decide), hclamp 0 _ (by decide), ?_, ?_, ?_⟩
  · split
    · exact if_neg (by decide)
    · rfl
  · split <;> rfl
  · split
    · exact if_neg (by decide)
    · rfl
  · split
    · exact if_neg (by decide)
    · rfl

theorem normalized_apply {s : Settings} (hs : s.normalized = s) (u : SettingsUpdate) :
    (u.apply s).normalized = u.apply s := by
  cases u with
  | set settings => exact normalized_normalized settings
  | reset => exact normalized_normalized Settings.default
  | storage a b =>
    show (s.normalized).withStorage a b = s.withStorage a b
    rw [hs]

/-! ### One command -/

/-- A command stores the settings it makes, or changes nothing and says so. -/
theorem run_body (fails : Bool) (settled : Except Error Unit) (u : SettingsUpdate)
    (r : RunningSettings) (state : State δ) (stored : Option Settings) :
    let done := Prog.run (answer text fails settled) (u.body r.readOnly) (r, state, stored)
    if r.readOnly then done.2 = (r, state, stored)
    else if fails then done.2 = (r, state, stored) ∧ ∃ e, done.1 = some (.error e)
    else done.2.1.settings = u.apply r.settings ∧
      done.2.2.1.settings = some (text.toString (u.apply r.settings)) ∧
      done.2.2.2 = some (u.apply r.settings) := by
  obtain ⟨settings, capBytes, readOnly⟩ := r
  cases readOnly with
  | true => cases u <;> rfl
  | false =>
    cases fails with
    | true => cases u <;> exact ⟨rfl, _, rfl⟩
    | false => cases u <;> cases settled <;> exact ⟨rfl, rfl, rfl⟩

/-! ### Whole runs -/

variable {text} {p : Lifetime δ}

/-- What a run without a slip keeps: the document is the one a command stored last, and the
settings in memory are normal. -/
structure Faithful (text : SettingsText δ) (p : Lifetime δ) : Prop where
  stored : ∀ s, p.stored = some s → ∃ d parsed, p.state.settings = some d ∧
    text.fromStr d = some parsed ∧ parsed.normalized = s
  normal : ∀ r, p.running = some r → r.settings.normalized = r.settings

theorem Faithful.start (hp : p.Faithful text) {readFails writeFails : Bool} {capBytes : ℕ}
    {readOnly : Bool} (hslip : ¬Overwrites text p (.start readFails writeFails capBytes readOnly)) :
    (∀ d, p.state.settings = some d →
      (startUp text readFails writeFails capBytes p.state).2.settings = some d) ∧
    (readFails = false → ∀ s, p.stored = some s →
      (startUp text readFails writeFails capBytes p.state).1 = s) := by
  cases hbind : (match p.state.document readFails with
      | .ok document => document
      | .error _ => none).bind text.fromStr with
  | some settings =>
    have hstart : startUp text readFails writeFails capBytes p.state =
        (settings.normalized, p.state) := by
      unfold Lifetime.startUp
      simp only [hbind]
    rw [hstart]
    refine ⟨fun d hd => hd, fun hread s hs => ?_⟩
    -- the document that was read is the one the command stored
    obtain ⟨d, parsed, hd, hparsed, hnormal⟩ := hp.stored s hs
    subst hread
    simp only [State.document, Bool.false_eq_true, if_false, hd, Option.bind_some, hparsed,
      Option.some.injEq] at hbind
    rw [← hbind, hnormal]
  | none =>
    have hstart : startUp text readFails writeFails capBytes p.state =
        ((defaults capBytes).normalized,
          (p.state.setSettings writeFails (text.toString (defaults capBytes))).2) := by
      unfold Lifetime.startUp
      simp only [hbind]
    rw [hstart]
    have hlost : ∀ d, p.state.settings = some d → readFails = true ∨ text.fromStr d = none := by
      intro d hd
      cases readFails with
      | true => exact Or.inl rfl
      | false =>
        simp only [State.document, Bool.false_eq_true, if_false, hd, Option.bind_some] at hbind
        exact Or.inr hbind
    constructor
    · intro d hd
      cases writeFails with
      | true => exact hd
      | false =>
        by_contra hne
        refine hslip ⟨d, hd, hlost d hd, rfl, fun heq => hne ?_⟩
        rw [heq]
        rfl
    · intro hread s hs
      obtain ⟨d, parsed, hd, hparsed, -⟩ := hp.stored s hs
      rcases hlost d hd with hfail | hfail
      · rw [hread] at hfail
        cases hfail
      · rw [hparsed] at hfail
        cases hfail

theorem startUp_normal (text : SettingsText δ) (readFails writeFails : Bool) (capBytes : ℕ)
    (state : State δ) : (startUp text readFails writeFails capBytes state).1.normalized =
      (startUp text readFails writeFails capBytes state).1 := by
  unfold Lifetime.startUp
  dsimp only
  split <;> exact normalized_normalized _

/-- A step without a slip asks nothing more to keep the document faithful. -/
theorem Faithful.step (htext : ∀ s, text.fromStr (text.toString s) = some s) (hp : p.Faithful text)
    {event : LifetimeEvent} (hslip : ¬Overwrites text p event) :
    (step text p event).2.Faithful text := by
  cases event with
  | start readFails writeFails capBytes readOnly =>
    refine ⟨fun s hs => ?_, fun r hr => ?_⟩
    · obtain ⟨d, parsed, hd, hrest⟩ := hp.stored s hs
      exact ⟨d, parsed, (hp.start hslip).1 d hd, hrest⟩
    · cases hr
      exact startUp_normal text readFails writeFails capBytes p.state
  | command u fails settled =>
    cases hr : p.running with
    | none =>
      unfold Lifetime.step
      simp only [hr]
      exact hp
    | some r =>
      have hnormal := hp.normal r hr
      have hbody := run_body text fails settled u r p.state p.stored
      unfold Lifetime.step
      simp only [hr]
      generalize Prog.run (answer text fails settled) (u.body r.readOnly) (r, p.state, p.stored) =
        done at hbody ⊢
      obtain ⟨result, r', state', stored'⟩ := done
      -- a command that changes nothing
      have hsame : (r', state', stored') = (r, p.state, p.stored) →
          Faithful text ⟨state', some r', stored'⟩ := by
        rintro heq
        cases heq
        exact ⟨hp.stored, fun r' hr' => by cases hr'; exact hnormal⟩
      dsimp only at hbody
      split at hbody
      · exact hsame hbody
      · split at hbody
        · exact hsame hbody.1
        · obtain ⟨hsettings, hdocument, hstored⟩ := hbody
          have happly := normalized_apply hnormal u
          refine ⟨fun s hs => ?_, fun r'' hr'' => ?_⟩
          · rw [hstored] at hs
            cases hs
            exact ⟨_, _, hdocument, htext _, happly⟩
          · cases hr''
            rw [hsettings]
            exact happly

theorem Faithful.survives (hp : p.Faithful text) {event : LifetimeEvent}
    (hslip : ¬Overwrites text p event) : Survives text p event := by
  cases event with
  | start readFails writeFails capBytes readOnly =>
    obtain ⟨hkept, hread⟩ := hp.start hslip
    exact ⟨hkept, fun hok s hs => congrArg some (hread hok s hs)⟩
  | command u fails settled =>
    intro r hr hwrites hok
    have hbody := run_body text fails settled u r p.state p.stored
    unfold Lifetime.step at hok ⊢
    simp only [hr] at hok ⊢
    rw [if_neg (by rw [hwrites]; exact Bool.false_ne_true)] at hbody
    split at hbody
    · obtain ⟨-, e, he⟩ := hbody
      cases he.symm.trans hok
    · exact ⟨hbody.2.2, hbody.2.1⟩

theorem not_survives {event : LifetimeEvent} (hslip : Overwrites text p event) :
    ¬Survives text p event := by
  cases event with
  | command u fails settled => exact hslip.elim
  | start readFails writeFails capBytes readOnly =>
    obtain ⟨d, hd, hlost, hwrites, hne⟩ := hslip
    rintro ⟨hkept, -⟩
    have hbind : (match p.state.document readFails with
        | .ok document => document
        | .error _ => none).bind text.fromStr = none := by
      unfold State.document
      cases readFails with
      | true => rfl
      | false =>
        rw [if_neg Bool.false_ne_true, hd]
        exact hlost.resolve_left Bool.false_ne_true
    have hstart : (startUp text readFails writeFails capBytes p.state).2.settings =
        some (text.toString (defaults capBytes)) := by
      unfold Lifetime.startUp
      simp only [hbind, hwrites]
      rfl
    have hd' : (startUp text readFails writeFails capBytes p.state).2.settings = some d := hkept d hd
    rw [hstart] at hd'
    exact hne (Option.some.inj hd').symm

/-- In a run of starts and commands on any database, every step does what is asked of it
exactly when no start overwrites a document that it could not read. -/
theorem settings_survive_iff (text : SettingsText δ)
    (htext : ∀ s, text.fromStr (text.toString s) = some s) (state : State δ)
    (events : List LifetimeEvent) :
    (∀ k event, events[k]? = some event →
      Survives text (Mealy.after (step text) ⟨state, none, none⟩ (events.take k)) event) ↔
    ∀ k event, events[k]? = some event →
      ¬Overwrites text (Mealy.after (step text) ⟨state, none, none⟩ (events.take k)) event := by
  have hnew : Faithful text (⟨state, none, none⟩ : Lifetime δ) :=
    ⟨fun _ hs => (nomatch hs), fun _ hr => (nomatch hr)⟩
  constructor
  · intro hall k event hk hslip
    exact not_survives hslip (hall k event hk)
  · intro hnone k event hk
    have hfaithful := Mealy.forall_after_of_not_bad (step text) (P := Faithful text)
      (B := Overwrites text) (fun p event hp hslip => hp.step htext hslip) hnew hnone k
    exact hfaithful.survives (hnone k event hk)

/-- Documents by what they say; `none` is one that says nothing about settings. -/
def plainText : SettingsText (Option Settings) := ⟨some, id⟩

def larger : Settings := { Settings.default with cacheSize := 1 <<< 30 }

/-- A start, a command and another start. -/
def restarted (readFails : Bool) : List LifetimeEvent :=
  [.start false false 1024 false, .command (.set larger) false (.ok ()),
    .start readFails false 1024 false]

theorem settings_survive_restarted :
    (Mealy.after (step plainText) ⟨.empty, none, none⟩ (restarted false)).inEffect = some larger ∧
      ∀ k event, (restarted false)[k]? = some event →
        Survives plainText (Mealy.after (step plainText) ⟨.empty, none, none⟩
          ((restarted false).take k)) event := by
  refine ⟨by rfl, (settings_survive_iff plainText (fun _ => rfl) .empty (restarted false)).mpr ?_⟩
  intro k event hk hslip
  match k with
  | 0 =>
    cases hk
    obtain ⟨d, hd, -⟩ := hslip
    cases hd
  | 1 =>
    cases hk
    exact hslip
  | 2 =>
    cases hk
    obtain ⟨d, hd, hlost, -⟩ := hslip
    rcases hlost with hlost | hlost
    · cases hlost
    · cases hd
      cases hlost
  | k + 3 => cases hk

/-- A database with a document that does not parse. -/
def unparsed : State (Option Settings) := ⟨∅, some none, ∅, none⟩

/-- The defaults replace the settings of a command when the database fails to answer, and a
document that does not parse. -/
theorem settings_overwritten :
    (Mealy.after (step plainText) ⟨.empty, none, none⟩ (restarted true)).state.settings =
        some (some (defaults 1024)) ∧
      (¬∀ k event, (restarted true)[k]? = some event →
        Survives plainText (Mealy.after (step plainText) ⟨.empty, none, none⟩
          ((restarted true).take k)) event) ∧
      ¬∀ k event, [LifetimeEvent.start false false 1024 false][k]? = some event →
        Survives plainText (Mealy.after (step plainText) ⟨unparsed, none, none⟩
          ([LifetimeEvent.start false false 1024 false].take k)) event := by
  refine ⟨by rfl, fun hall => ?_, fun hall => ?_⟩
  · have hslip : Overwrites plainText (Mealy.after (step plainText) ⟨.empty, none, none⟩
        ((restarted true).take 2)) (.start true false 1024 false) :=
      ⟨some larger, rfl, Or.inl rfl, rfl, by decide⟩
    exact not_survives hslip (hall 2 _ rfl)
  · have hslip : Overwrites plainText ⟨unparsed, none, none⟩
        (.start false false 1024 false) := ⟨none, rfl, Or.inr rfl, rfl, by decide⟩
    exact not_survives hslip (hall 0 _ rfl)

end Lifetime

end Rustorr
