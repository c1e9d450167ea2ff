import Rustorr.Http.Discovery
import Mathlib.Tactic.Common

/-! Runs of the requests that stop and start the DLNA server. -/

namespace Rustorr

namespace HandlerPhase

/-- The request has the lock of the slot. -/
def locks : HandlerPhase → Bool
  | binding _ | announcing _ _ | installing _ _ => true
  | _ => false

/-- The request will silence the announcer or fill the slot. -/
def tends : HandlerPhase → Bool
  | waiting _ _ | silencing _ | installing _ _ => true
  | _ => false

theorem locks_of_installs {p : HandlerPhase} (h : p.installs = true) : p.locks = true := by
  cases p <;> first | rfl | cases h

theorem eq_installing {p : HandlerPhase} (h : p.installs = true) :
    ∃ name port, p = .installing name port := by
  cases p with
  | installing name port => exact ⟨name, port, rfl⟩
  | _ => cases h

theorem plan_afterStop (m : DlnaSettings) (next : Option String) :
    (afterStop next).plan m = next.map some := by
  cases next <;> rfl

theorem installs_afterStop (next : Option String) : (afterStop next).installs = false := by
  cases next <;> rfl

theorem locks_afterStop (next : Option String) : (afterStop next).locks = false := by
  cases next <;> rfl

/-- What is put in effect keeps the plans that are up to date with it. -/
theorem plan_of_agrees {stored m settings : DlnaSettings} {p : HandlerPhase}
    (h : p.plan m = some stored.wanted) (hagrees : settings.wanted = stored.wanted) :
    p.plan settings = some stored.wanted := by
  have hname : ∀ name, some name = stored.wanted → some settings.friendlyName = stored.wanted := by
    intro name hw
    rw [← hagrees] at hw ⊢
    unfold DlnaSettings.wanted at hw ⊢
    split at hw
    · next hon => rw [if_pos hon]
    · cases hw
  cases p with
  | settling dlna | answering dlna =>
    cases dlna with
    | false => exact h
    | true => exact congrArg some (hname _ (Option.some.inj h))
  | asking =>
    obtain ⟨w, -, hw⟩ := Option.map_eq_some_iff.mp h
    show settings.wanted.map some = _
    rw [hagrees, ← hw]
    rfl
  | rereading => exact congrArg some (hname _ (Option.some.inj h))
  | waiting next server | silencing next => cases next <;> exact h
  | _ => exact h

end HandlerPhase

namespace Discovery

variable {host : Host} {d d' : Discovery} {i : ℕ} {p p' : HandlerPhase}

/-- Some request is still to stop or start the server as wanted. -/
def Followed (handlers : List HandlerPhase) (wanted : Option String) (inEffect : DlnaSettings) :
    Prop := ∃ p ∈ handlers, p.plan inEffect = some wanted

theorem followed_of_covered {stored m : DlnaSettings} (h : d.Covered stored m i) :
    Followed (d.handlers.set i p') stored.wanted m := by
  obtain ⟨j, hji, hplan⟩ := h
  refine ⟨d.handlers[j], List.mem_iff_getElem?.mpr ⟨j, ?_⟩, hplan⟩
  rw [List.getElem?_set_ne (Ne.symm hji)]
  exact List.getElem?_eq_getElem j.isLt

theorem mem_set_self (hi : d.handlers[i]? = some p) : p' ∈ d.handlers.set i p' :=
  List.mem_set (List.getElem?_eq_some_iff.mp hi).1 p'

theorem mem_set_of_ne (hi : d.handlers[i]? = some p) {q : HandlerPhase} (hq : q ∈ d.handlers)
    (hne : q ≠ p) : q ∈ d.handlers.set i p' := by
  obtain ⟨j, hj⟩ := List.mem_iff_getElem?.mp hq
  refine List.mem_iff_getElem?.mpr ⟨j, ?_⟩
  rw [List.getElem?_set_ne]
  · exact hj
  · rintro rfl
    rw [hi, Option.some.injEq] at hj
    exact hne hj.symm

/-- A request that moves on keeps its plan, and so do the others. -/
theorem Followed.set {w : Option String} {m m' : DlnaSettings} (h : Followed d.handlers w m)
    (hi : d.handlers[i]? = some p) (hp : p.plan m = some w → p'.plan m' = some w)
    (hothers : ∀ q : HandlerPhase, q.plan m = some w → q.plan m' = some w) :
    Followed (d.handlers.set i p') w m' := by
  obtain ⟨q, hq, hplan⟩ := h
  by_cases hqp : q = p
  · subst hqp
    exact ⟨p', mem_set_self hi, hp hplan⟩
  · exact ⟨q, mem_set_of_ne hi hq hqp, hothers q hplan⟩

theorem not_installs_set (h : ¬d.Installs) (hhandlers : d'.handlers = d.handlers.set i p')
    (hp' : p'.installs = false) : ¬d'.Installs := by
  rintro ⟨q, hq, hinstalls⟩
  rw [hhandlers] at hq
  rcases List.mem_or_eq_of_mem_set hq with hq | rfl
  · exact h ⟨q, hq, hinstalls⟩
  · rw [hp'] at hinstalls
    cases hinstalls

theorem Settled.moves {stored : DlnaSettings} (h : d.Settled host stored)
    (hi : d.handlers[i]? = some p) (hdlna : d'.dlna = d.dlna) (hssdp : d'.ssdp = d.ssdp)
    (hhandlers : d'.handlers = d.handlers.set i p') (hp : p.installs = false)
    (hp' : p'.installs = false) : d'.Settled host stored := by
  refine ⟨fun hw => ?_, fun name hw => ?_⟩
  · obtain ⟨hnone, hquiet⟩ := h.1 hw
    exact ⟨hdlna.trans hnone, not_installs_set hquiet hhandlers hp'⟩
  · obtain ⟨a, ha, heq, hserver⟩ := h.2 name hw
    refine ⟨a, hssdp ▸ ha, heq, ?_⟩
    rcases hserver with hinstalling | ⟨hslot, hquiet⟩
    · refine Or.inl ?_
      rw [hhandlers]
      refine mem_set_of_ne hi hinstalling ?_
      rintro rfl
      cases hp
    · exact Or.inr ⟨hdlna.trans hslot, not_installs_set hquiet hhandlers hp'⟩

/-- The server is or will be as the stored settings have it. -/
def Good (host : Host) (d : Discovery) : Prop :=
  Followed d.handlers d.stored.wanted d.inEffect ∨ d.Settled host d.stored

/-- What holds of the requests, whatever they do to each other. -/
structure Orderly (d : Discovery) : Prop where
  locked : ∀ (i : ℕ) (p : HandlerPhase), d.handlers[i]? = some p → p.locks = true → d.lock = some i
  asked : ∀ settings dlna, .storing settings dlna ∈ d.handlers → dlna = settings.enableDlna
  tended : d.ssdp = none ∨ d.dlna ≠ none ∨ ∃ p ∈ d.handlers, p.tends = true

theorem getElem?_handlers_set {j : ℕ} {q : HandlerPhase}
    (h : (d.handlers.set i p')[j]? = some q) :
    j = i ∧ q = p' ∨ j ≠ i ∧ d.handlers[j]? = some q := by
  rw [List.getElem?_set] at h
  split at h
  · next hij =>
    split at h
    · exact Or.inl ⟨hij.symm, (Option.some.inj h).symm⟩
    · cases h
  · next hij => exact Or.inr ⟨Ne.symm hij, h⟩

theorem Orderly.goTo (h : d.Orderly) (hhandlers : d'.handlers = d.handlers.set i p')
    (hlock : p'.locks = true → d'.lock = some i)
    (hothers : ∀ j ≠ i, d.lock = some j → d'.lock = some j)
    (hasked : ∀ settings dlna, p' = .storing settings dlna → dlna = settings.enableDlna)
    (htended : d'.ssdp = none ∨ d'.dlna ≠ none ∨ ∃ q ∈ d'.handlers, q.tends = true) :
    d'.Orderly := by
  refine ⟨fun j q hj hlocks => ?_, fun settings dlna hq => ?_, htended⟩
  · rw [hhandlers] at hj
    rcases getElem?_handlers_set hj with ⟨rfl, rfl⟩ | ⟨hji, hj⟩
    · exact hlock hlocks
    · exact hothers j hji (h.locked j q hj hlocks)
  · rw [hhandlers] at hq
    rcases List.mem_or_eq_of_mem_set hq with hq | hq
    · exact h.asked settings dlna hq
    · exact hasked settings dlna hq.symm

theorem Orderly.tended_set (h : d.Orderly) (hi : d.handlers[i]? = some p)
    (hhandlers : d'.handlers = d.handlers.set i p') (hdlna : d'.dlna = d.dlna)
    (hssdp : d'.ssdp = d.ssdp) (htends : p.tends = true → p'.tends = true) :
    d'.ssdp = none ∨ d'.dlna ≠ none ∨ ∃ q ∈ d'.handlers, q.tends = true := by
  rw [hssdp, hdlna, hhandlers]
  refine h.tended.imp_right (Or.imp_right fun ⟨q, hq, hqtends⟩ => ?_)
  by_cases hqp : q = p
  · subst hqp
    exact ⟨p', mem_set_self hi, htends hqtends⟩
  · exact ⟨q, mem_set_of_ne hi hq hqp, hqtends⟩

/-- A statement that changes neither the slot nor the announcer nor the lock. -/
theorem Orderly.moves (h : d.Orderly) (hi : d.handlers[i]? = some p)
    (hhandlers : d'.handlers = d.handlers.set i p') (hdlna : d'.dlna = d.dlna)
    (hssdp : d'.ssdp = d.ssdp) (hlock : d'.lock = d.lock)
    (hlocks : p'.locks = true → p.locks = true) (htends : p.tends = true → p'.tends = true)
    (hasked : ∀ settings dlna, p' = .storing settings dlna → dlna = settings.enableDlna) :
    d'.Orderly :=
  h.goTo hhandlers (fun hp' => hlock.trans (h.locked i p hi (hlocks hp')))
    (fun _ _ hj => hlock.trans hj) hasked (h.tended_set hi hhandlers hdlna hssdp htends)

theorem Orderly.statement (h : d.Orderly) (hi : d.handlers[i]? = some p) (fails : Bool)
    (taken : List ℕ) : (d.statement host i fails taken p).Orderly := by
  have hheld := h.locked i p hi
  cases p with
  | storing settings dlna | settling dlna | changing | storingCopy settings =>
    simp only [Discovery.statement]
    split
    · exact h.moves hi rfl rfl rfl rfl nofun nofun nofun
    · exact h.moves hi rfl rfl rfl rfl nofun nofun nofun
  | replacing settings dlna | answering dlna | copying | replacingCopy settings | rereading =>
    exact h.moves hi rfl rfl rfl rfl nofun nofun nofun
  | asking =>
    simp only [Discovery.statement]
    split
    · exact h.moves hi rfl rfl rfl rfl nofun nofun nofun
    · exact h.moves hi rfl rfl rfl rfl nofun nofun nofun
  | stopping next =>
    simp only [Discovery.statement]
    split
    · exact h
    · split
      · refine h.moves hi rfl rfl rfl rfl (fun hl => ?_) nofun (fun _ _ hs => ?_)
        · rw [HandlerPhase.locks_afterStop] at hl
          cases hl
        · cases next <;> cases hs
      · refine h.goTo rfl nofun (fun _ _ hj => hj) nofun (Or.inr (Or.inr ?_))
        exact ⟨_, mem_set_self hi, rfl⟩
  | waiting next server => exact h.moves hi rfl rfl rfl rfl nofun (fun _ => rfl) nofun
  | silencing next =>
    refine h.goTo rfl (fun hl => ?_) (fun _ _ hj => hj) (fun _ _ hs => ?_) (Or.inl rfl)
    · rw [HandlerPhase.locks_afterStop] at hl
      cases hl
    · cases next <;> cases hs
  | starting name =>
    simp only [Discovery.statement]
    split
    · exact h
    · next hfree =>
      have hnone : d.lock = none := Option.not_isSome_iff_eq_none.mp hfree
      refine h.goTo rfl (fun _ => rfl) (fun j _ hj => ?_) nofun ?_
      · rw [hnone] at hj
        cases hj
      · exact h.tended_set hi rfl rfl rfl nofun
  | binding name =>
    simp only [Discovery.statement]
    split
    · refine h.goTo rfl nofun (fun j hji hj => ?_) nofun (h.tended_set hi rfl rfl rfl nofun)
      exact absurd (Option.some.inj (hj.symm.trans (hheld rfl))) hji
    · exact h.moves hi rfl rfl rfl rfl (fun _ => rfl) nofun nofun
  | announcing name port =>
    refine h.goTo rfl (fun _ => hheld rfl) (fun _ _ hj => hj) nofun (Or.inr (Or.inr ?_))
    exact ⟨_, mem_set_self hi, rfl⟩
  | installing name port =>
    refine h.goTo rfl nofun (fun j hji hj => ?_) nofun (Or.inr (Or.inl nofun))
    exact absurd (Option.some.inj (hj.symm.trans (hheld rfl))) hji
  | ended => exact h

theorem good_of_moves (hgood : d.Good host) (hi : d.handlers[i]? = some p)
    (hhandlers : d'.handlers = d.handlers.set i p') (hstored : d'.stored = d.stored)
    (heffect : d'.inEffect = d.inEffect) (hdlna : d'.dlna = d.dlna) (hssdp : d'.ssdp = d.ssdp)
    (hp : p.installs = false) (hp' : p'.installs = false)
    (hplan : ∀ w, p.plan d.inEffect = some w → p'.plan d.inEffect = some w) : d'.Good host := by
  unfold Good
  rw [hstored, heffect, hhandlers]
  refine hgood.imp (fun hf => ?_) fun hs => ?_
  · exact hf.set hi (hplan _) fun _ hq => hq
  · exact hs.moves hi hdlna hssdp hhandlers hp hp'

/-- The request at `p` was the one that is to bring the server up to date, unless another is. -/
theorem good_of_covered {stored m : DlnaSettings} (hcovered : d.Covered stored m i)
    (hhandlers : d'.handlers = d.handlers.set i p') (hstored : d'.stored = stored)
    (heffect : d'.inEffect = m) : d'.Good host := by
  unfold Good
  rw [hstored, heffect, hhandlers]
  exact Or.inl (followed_of_covered hcovered)

/-- A follower that is not the request itself covers it. -/
theorem covered_of_followed {stored m : DlnaSettings}
    (hf : Followed d.handlers stored.wanted m) (hi : d.handlers[i]? = some p)
    (hp : p.plan m ≠ some stored.wanted) : d.Covered stored m i := by
  obtain ⟨q, hq, hplan⟩ := hf
  obtain ⟨j, hj⟩ := List.mem_iff_getElem?.mp hq
  obtain ⟨hlt, rfl⟩ := List.getElem?_eq_some_iff.mp hj
  refine ⟨⟨j, hlt⟩, ?_, hplan⟩
  rintro rfl
  rw [hi, Option.some.injEq] at hj
  rw [hj] at hp
  exact hp hplan

theorem not_installs_of_free (h : d.Orderly) (hfree : d.lock = none) : ¬d.Installs := by
  rintro ⟨q, hq, hinstalls⟩
  obtain ⟨j, hj⟩ := List.mem_iff_getElem?.mp hq
  have hheld := h.locked j q hj (HandlerPhase.locks_of_installs hinstalls)
  rw [hfree] at hheld
  cases hheld

theorem good_replace (hgood : d.Good host) (hi : d.handlers[i]? = some p)
    {settings : DlnaSettings} (hp : p.installs = false) (hp' : p'.installs = false)
    (hplan : ∀ w, p.plan d.inEffect = some w → p'.plan settings = some w)
    (hslip : ¬(settings.wanted ≠ d.stored.wanted ∧ ¬d.Covered d.stored settings i ∧
      ¬d.Settled host d.stored)) :
    (({ d with inEffect := settings } : Discovery).goTo i p').Good host := by
  by_cases hsettled : d.Settled host d.stored
  · exact Or.inr (hsettled.moves hi rfl rfl rfl hp hp')
  by_cases hcovered : d.Covered d.stored settings i
  · exact good_of_covered hcovered rfl rfl rfl
  have hagrees : settings.wanted = d.stored.wanted := by
    by_contra hne
    exact hslip ⟨hne, hcovered, hsettled⟩
  have hf : Followed d.handlers d.stored.wanted d.inEffect := hgood.resolve_right hsettled
  exact Or.inl (hf.set hi (hplan _) fun q hq => HandlerPhase.plan_of_agrees hq hagrees)

theorem good_storingCopy (hgood : d.Good host) {settings : DlnaSettings}
    (hi : d.handlers[i]? = some (.storingCopy settings))
    (hslip : ¬(settings.wanted ≠ d.stored.wanted ∧ ¬d.Covered settings d.inEffect i ∧
      ¬d.Settled host settings)) :
    (({ d with stored := settings } : Discovery).goTo i (.replacingCopy settings)).Good host := by
  by_cases hsettled : d.Settled host settings
  · exact Or.inr (hsettled.moves hi rfl rfl rfl rfl rfl)
  by_cases hcovered : d.Covered settings d.inEffect i
  · exact good_of_covered hcovered rfl rfl rfl
  have hagrees : settings.wanted = d.stored.wanted := by
    by_contra hne
    exact hslip ⟨hne, hcovered, hsettled⟩
  refine hgood.imp (fun hf => ?_) fun hs => ?_
  · show Followed _ settings.wanted d.inEffect
    rw [hagrees]
    exact hf.set hi nofun fun _ hq => hq
  · refine absurd ?_ hsettled
    unfold Settled
    rw [hagrees]
    exact hs

/-- A request that ends before it was to bring the server up to date. -/
theorem good_of_ends (hi : d.handlers[i]? = some p) (hp : p.installs = false)
    (hhandlers : d'.handlers = d.handlers.set i .ended) (hstored : d'.stored = d.stored)
    (heffect : d'.inEffect = d.inEffect) (hdlna : d'.dlna = d.dlna) (hssdp : d'.ssdp = d.ssdp)
    (hslip : ¬(¬d.Covered d.stored d.inEffect i ∧ ¬d.Settled host d.stored)) : d'.Good host := by
  by_cases hsettled : d.Settled host d.stored
  · refine Or.inr ?_
    rw [hstored]
    exact hsettled.moves hi hdlna hssdp hhandlers hp rfl
  · refine good_of_covered ?_ hhandlers hstored heffect
    by_contra hcovered
    exact hslip ⟨hcovered, hsettled⟩

theorem good_stopping (h : d.Orderly) {next : Option String}
    (hi : d.handlers[i]? = some (.stopping next)) (hfree : d.lock = none)
    (hslip : ¬(d.lock = none ∧ d.stored.wanted ≠ none ∧ next ≠ d.stored.wanted ∧
      ¬d.Covered d.stored d.inEffect i)) (hhandlers : d'.handlers = d.handlers.set i p')
    (hstored : d'.stored = d.stored) (heffect : d'.inEffect = d.inEffect) (hdlna : d'.dlna = none)
    (hp' : p'.installs = false) (hplan : p'.plan d.inEffect = next.map some) : d'.Good host := by
  have hquiet : ¬d'.Installs := not_installs_set (not_installs_of_free h hfree) hhandlers hp'
  by_cases hnone : d.stored.wanted = none
  · refine Or.inr ⟨fun _ => ⟨hdlna, hquiet⟩, fun name hw => ?_⟩
    rw [hstored, hnone] at hw
    cases hw
  by_cases hnext : next = d.stored.wanted
  · obtain ⟨name, hname⟩ := Option.ne_none_iff_exists'.mp hnone
    refine Or.inl ⟨p', ?_, ?_⟩
    · rw [hhandlers]
      exact mem_set_self hi
    · rw [heffect, hstored, hplan, hnext, hname]
      rfl
  · refine good_of_covered ?_ hhandlers hstored heffect
    by_contra hcovered
    exact hslip ⟨hfree, hnone, hnext, hcovered⟩

theorem good_silencing (hgood : d.Good host) {next : Option String}
    (hi : d.handlers[i]? = some (.silencing next))
    (hslip : ¬(d.stored.wanted ≠ none ∧ next ≠ d.stored.wanted ∧
      ¬d.Covered d.stored d.inEffect i)) :
    (({ d with ssdp := none } : Discovery).goTo i (.afterStop next)).Good host := by
  by_cases hnone : d.stored.wanted = none
  · refine hgood.imp (fun hf => ?_) fun hs => ?_
    · refine hf.set hi (fun hplan => ?_) fun _ hq => hq
      rw [hnone] at hplan
      cases next <;> cases hplan
    · refine ⟨fun hw => ?_, fun name hw => ?_⟩
      · obtain ⟨hslot, hquiet⟩ := hs.1 hw
        exact ⟨hslot, not_installs_set hquiet rfl (HandlerPhase.installs_afterStop next)⟩
      · rw [show ((({ d with ssdp := none } : Discovery).goTo i
          (.afterStop next)).stored.wanted) = none from hnone] at hw
        cases hw
  by_cases hnext : next = d.stored.wanted
  · obtain ⟨name, hname⟩ := Option.ne_none_iff_exists'.mp hnone
    refine Or.inl ⟨_, mem_set_self hi, ?_⟩
    show (HandlerPhase.afterStop next).plan _ = some d.stored.wanted
    rw [HandlerPhase.plan_afterStop, hnext, hname]
    rfl
  · refine good_of_covered ?_ rfl rfl rfl
    by_contra hcovered
    exact hslip ⟨hnone, hnext, hcovered⟩

theorem good_announcing {name : String} {port : ℕ}
    (hi : d.handlers[i]? = some (.announcing name port))
    (hslip : ¬(some name ≠ d.stored.wanted ∧ ¬d.Covered d.stored d.inEffect i)) :
    (({ d with ssdp := some (announcement (server host name port)) } : Discovery).goTo i
      (.installing name port)).Good host := by
  by_cases hname : some name = d.stored.wanted
  · refine Or.inr ⟨fun hw => ?_, fun wanted hw => ?_⟩
    · exact absurd (hname.trans hw) nofun
    · obtain rfl : name = wanted := Option.some.inj (hname.trans hw)
      exact ⟨_, rfl, rfl, Or.inl (mem_set_self hi)⟩
  · refine good_of_covered ?_ rfl rfl rfl
    by_contra hcovered
    exact hslip ⟨hname, hcovered⟩

theorem good_installing (h : d.Orderly) (hgood : d.Good host) {name : String} {port : ℕ}
    (hi : d.handlers[i]? = some (.installing name port)) :
    (({ d with dlna := some (server host name port), lock := none } : Discovery).goTo i
      .ended).Good host := by
  rcases hgood with hf | hs
  · exact good_of_covered (covered_of_followed hf hi nofun) rfl rfl rfl
  -- only the request itself is at this statement
  have honly : ∀ (j : ℕ) (q : HandlerPhase), d.handlers[j]? = some q → q.installs = true →
      j = i := by
    intro j q hj hinstalls
    have hheld := h.locked j q hj (HandlerPhase.locks_of_installs hinstalls)
    rw [h.locked i _ hi rfl, Option.some.injEq] at hheld
    exact hheld.symm
  refine Or.inr ⟨fun hw => ?_, fun wanted hw => ?_⟩
  · exact absurd ⟨_, List.mem_of_getElem? hi, rfl⟩ (hs.1 hw).2
  · obtain ⟨a, ha, heq, hserver⟩ := hs.2 wanted hw
    refine ⟨a, ha, heq, Or.inr ⟨?_, ?_⟩⟩
    · rcases hserver with hmem | ⟨-, hquiet⟩
      · obtain ⟨j, hj⟩ := List.mem_iff_getElem?.mp hmem
        have hji := honly j _ hj rfl
        rw [hji, hi, Option.some.injEq, HandlerPhase.installing.injEq] at hj
        rw [← hj.1, ← hj.2]
        rfl
      · exact absurd ⟨_, List.mem_of_getElem? hi, rfl⟩ hquiet
    · rintro ⟨q, hq, hinstalls⟩
      obtain ⟨j, hj⟩ := List.mem_iff_getElem?.mp hq
      rcases getElem?_handlers_set hj with ⟨-, rfl⟩ | ⟨hji, hj⟩
      · cases hinstalls
      · exact hji (honly j q hj hinstalls)

theorem good_statement (h : d.Orderly) (hgood : d.Good host) (hi : d.handlers[i]? = some p)
    {fails : Bool} {taken : List ℕ} (hslip : ¬d.Slips host i fails taken p) :
    (d.statement host i fails taken p).Good host := by
  cases p with
  | storing settings dlna =>
    simp only [Discovery.statement]
    split
    · exact good_of_moves hgood hi rfl rfl rfl rfl rfl rfl rfl nofun
    · have hdlna := h.asked settings dlna (List.mem_of_getElem? hi)
      refine Or.inl ⟨_, mem_set_self hi, ?_⟩
      rw [hdlna]
      rfl
  | replacing settings dlna => exact good_replace hgood hi rfl rfl (fun _ hw => hw) hslip
  | replacingCopy settings => exact good_replace hgood hi rfl rfl nofun hslip
  | settling dlna =>
    simp only [Discovery.statement]
    split
    · next hfails =>
      exact good_of_ends hi rfl rfl rfl rfl rfl rfl fun hnot => hslip ⟨hfails, hnot⟩
    · exact good_of_moves hgood hi rfl rfl rfl rfl rfl rfl rfl fun _ hw => hw
  | answering dlna => exact good_of_moves hgood hi rfl rfl rfl rfl rfl rfl rfl fun _ hw => hw
  | copying => exact good_of_moves hgood hi rfl rfl rfl rfl rfl rfl rfl nofun
  | storingCopy settings =>
    simp only [Discovery.statement]
    split
    · exact good_of_moves hgood hi rfl rfl rfl rfl rfl rfl rfl nofun
    · next hok =>
      exact good_storingCopy hgood hi fun hnot => hslip ⟨Bool.not_eq_true _ ▸ hok, hnot⟩
  | changing =>
    simp only [Discovery.statement]
    split
    · exact good_of_moves hgood hi rfl rfl rfl rfl rfl rfl rfl nofun
    · exact good_of_moves hgood hi rfl rfl rfl rfl rfl rfl rfl nofun
  | asking =>
    simp only [Discovery.statement]
    split
    · next hon =>
      refine good_of_moves hgood hi rfl rfl rfl rfl rfl rfl rfl fun w hw => ?_
      unfold HandlerPhase.plan DlnaSettings.wanted at hw
      rw [if_pos hon] at hw
      exact hw
    · next hoff =>
      refine good_of_moves hgood hi rfl rfl rfl rfl rfl rfl rfl fun w hw => ?_
      unfold HandlerPhase.plan DlnaSettings.wanted at hw
      rw [if_neg hoff] at hw
      cases hw
  | rereading => exact good_of_moves hgood hi rfl rfl rfl rfl rfl rfl rfl fun _ hw => hw
  | stopping next =>
    simp only [Discovery.statement]
    split
    · exact hgood
    · next hlocked =>
      have hfree : d.lock = none := Option.not_isSome_iff_eq_none.mp hlocked
      split
      · next hslot =>
        exact good_stopping h hi hfree hslip rfl rfl rfl hslot
          (HandlerPhase.installs_afterStop next) (HandlerPhase.plan_afterStop _ next)
      · exact good_stopping h hi hfree hslip rfl rfl rfl rfl rfl (by cases next <;> rfl)
  | waiting next server =>
    exact good_of_moves hgood hi rfl rfl rfl rfl rfl rfl rfl (by cases next <;> exact fun _ hw => hw)
  | silencing next => exact good_silencing hgood hi hslip
  | starting name =>
    simp only [Discovery.statement]
    split
    · exact hgood
    · exact good_of_moves hgood hi rfl rfl rfl rfl rfl rfl rfl fun _ hw => hw
  | binding name =>
    simp only [Discovery.statement]
    split
    · next hnone =>
      exact good_of_ends hi rfl rfl rfl rfl rfl rfl fun hnot => hslip ⟨hnone, hnot⟩
    · exact good_of_moves hgood hi rfl rfl rfl rfl rfl rfl rfl fun _ hw => hw
  | announcing name port => exact good_announcing hi hslip
  | installing name port => exact good_installing h hgood hi
  | ended => exact hgood

theorem locks_first (readOnly : Bool) (r : DiscoveryRequest) :
    (r.first readOnly).locks = false := by
  cases r <;> cases readOnly <;> rfl

theorem installs_first (readOnly : Bool) (r : DiscoveryRequest) :
    (r.first readOnly).installs = false := by
  cases r <;> cases readOnly <;> rfl

theorem asked_first (readOnly : Bool) (r : DiscoveryRequest) {settings : DlnaSettings}
    {dlna : Bool} (h : .storing settings dlna = r.first readOnly) : dlna = settings.enableDlna := by
  cases r <;> cases readOnly <;> cases h
  · rfl
  · rfl

theorem Orderly.request (h : d.Orderly) (readOnly : Bool) (r : DiscoveryRequest) :
    ({ d with handlers := d.handlers ++ [r.first readOnly] } : Discovery).Orderly := by
  refine ⟨fun j q hj hlocks => ?_, fun settings dlna hq => ?_, ?_⟩
  · rw [List.getElem?_append] at hj
    split at hj
    · exact h.locked j q hj hlocks
    · rw [List.mem_singleton.mp (List.mem_of_getElem? hj), locks_first] at hlocks
      cases hlocks
  · rcases List.mem_append.mp hq with hq | hq
    · exact h.asked settings dlna hq
    · exact asked_first readOnly r (List.mem_singleton.mp hq)
  · refine h.tended.imp_right (Or.imp_right fun ⟨q, hq, htends⟩ => ?_)
    exact ⟨q, List.mem_append_left _ hq, htends⟩

theorem Good.request (hgood : d.Good host) (readOnly : Bool) (r : DiscoveryRequest) :
    ({ d with handlers := d.handlers ++ [r.first readOnly] } : Discovery).Good host := by
  have hquiet : ¬d.Installs → ¬({ d with handlers := d.handlers ++ [r.first readOnly] } :
      Discovery).Installs := by
    rintro hnot ⟨q, hq, hinstalls⟩
    rcases List.mem_append.mp hq with hq | hq
    · exact hnot ⟨q, hq, hinstalls⟩
    · rw [List.mem_singleton.mp hq, installs_first] at hinstalls
      cases hinstalls
  refine hgood.imp (fun ⟨q, hq, hplan⟩ => ⟨q, List.mem_append_left _ hq, hplan⟩) fun hs => ?_
  refine ⟨fun hw => (hs.1 hw).imp_right hquiet, fun name hw => ?_⟩
  obtain ⟨a, ha, heq, hserver⟩ := hs.2 name hw
  exact ⟨a, ha, heq, hserver.imp (List.mem_append_left _) (And.imp_right hquiet)⟩

/-- Whatever the requests do to each other, the lock has one holder and an announcer is never
left without a server or a request that will see to it. -/
theorem Orderly.step (h : d.Orderly) (e : DiscoveryEvent) : (step host d e).2.Orderly := by
  cases e with
  | request r => exact h.request host.readOnly r
  | proceed i fails taken =>
    dsimp only [Discovery.step]
    split
    · exact h
    · next hi => exact h.statement hi fails taken

theorem Good.step (hgood : d.Good host) (h : d.Orderly) {e : DiscoveryEvent}
    (hslip : ¬d.Slip host e) : (step host d e).2.Good host := by
  cases e with
  | request r => exact hgood.request host.readOnly r
  | proceed i fails taken =>
    dsimp only [Discovery.step]
    split
    · exact hgood
    · next hi => exact good_statement h hgood hi fun hslips => hslip ⟨_, hi, hslips⟩

theorem orderly_start (settings : DlnaSettings) : (start settings).Orderly := by
  refine ⟨fun j q hj hlocks => ?_, fun s dlna hq => ?_, Or.inl rfl⟩
  · rw [List.mem_singleton.mp (List.mem_of_getElem? hj), HandlerPhase.locks_afterStop] at hlocks
    cases hlocks
  · have heq := List.mem_singleton.mp hq
    cases hw : settings.wanted <;> rw [hw] at heq <;> cases heq

theorem good_start (settings : DlnaSettings) : (start settings).Good host := by
  cases hw : settings.wanted with
  | none =>
    refine Or.inr ⟨fun _ => ⟨rfl, ?_⟩, fun name hname => ?_⟩
    · rintro ⟨q, hq, hinstalls⟩
      rw [List.mem_singleton.mp hq, HandlerPhase.installs_afterStop] at hinstalls
      cases hinstalls
    · have hnot : name ∈ settings.wanted := hname
      rw [hw] at hnot
      cases hnot
  | some name =>
    refine Or.inl ⟨_, List.mem_singleton.mpr rfl, ?_⟩
    show (HandlerPhase.afterStop settings.wanted).plan settings = some settings.wanted
    rw [HandlerPhase.plan_afterStop, hw]
    rfl

/-- Once every request has returned, what was to come has come. -/
theorem Good.followsSettings (hgood : d.Good host) (h : d.Orderly) : d.FollowsSettings host := by
  intro hended
  have hrunning : d.running host = d.dlna.toList := by
    unfold running
    rw [List.filterMap_eq_nil_iff.mpr, List.append_nil]
    intro q hq
    rw [hended q hq]
  have hsettled : d.Settled host d.stored := by
    refine hgood.resolve_left ?_
    rintro ⟨q, hq, hplan⟩
    rw [hended q hq] at hplan
    cases hplan
  rw [hrunning]
  split
  · next hw =>
    have hslot := (hsettled.1 hw).1
    refine ⟨by rw [hslot]; rfl, h.tended.elim id fun hleft => ?_⟩
    rcases hleft with hne | ⟨q, hq, htends⟩
    · exact absurd hslot hne
    · rw [hended q hq] at htends
      cases htends
  · next name hw =>
    obtain ⟨a, ha, heq, hserver⟩ := hsettled.2 name hw
    rcases hserver with hinstalling | ⟨hslot, -⟩
    · cases hended _ hinstalling
    · refine ⟨a.httpPort, by rw [hslot]; rfl, ?_⟩
      rw [← heq]
      exact ha

/-- In every run without a slip, once the requests have all returned, what runs and is
announced is what the stored settings ask for. -/
theorem discovery_follows_settings (host : Host) (settings : DlnaSettings)
    (events : List DiscoveryEvent)
    (hslip : ∀ k e, events[k]? = some e →
      ¬Slip host (Mealy.after (step host) (start settings) (events.take k)) e) (k : ℕ) :
    FollowsSettings host (Mealy.after (step host) (start settings) (events.take k)) := by
  have hinv := Mealy.forall_after_of_not_bad (step host)
    (P := fun d : Discovery => d.Orderly ∧ d.Good host) (B := Slip host)
    (fun d e hd hgood => ⟨hd.1.step e, hd.2.step hd.1 hgood⟩)
    ⟨orderly_start settings, good_start settings⟩ hslip k
  exact hinv.2.followsSettings hinv.1

/-- A machine on which every server is called "TV". -/
def box : Host := ⟨false, none, some "box", [], fun _ =>
  [39, 29, 223, 130, 154, 254, 236, 228, 77, 135, 50, 117, 127, 186, 26, 102]⟩

def proceeds (i n : ℕ) (taken : List ℕ) : List DiscoveryEvent :=
  List.replicate n (.proceed i false taken)

/-- DLNA is enabled, and a change of the catalog that begins meanwhile restarts the server. -/
def enabling : List DiscoveryEvent :=
  [.request (.set ⟨true, "TV"⟩), .request .catalog] ++ proceeds 1 5 [] ++ proceeds 2 3 [] ++
    proceeds 1 1 [] ++ proceeds 2 1 [] ++ proceeds 1 3 [] ++ proceeds 2 7 [9080]

theorem discovery_follows_settings_enabling :
    (Mealy.after (step box) (start ⟨false, ""⟩) enabling).running box = [server box "TV" 9081] ∧
      ∀ k, FollowsSettings box
        (Mealy.after (step box) (start ⟨false, ""⟩) (enabling.take k)) := by
  have hquiet : ∀ k : Fin enabling.length, ¬Slip box
      (Mealy.after (step box) (start ⟨false, ""⟩) (enabling.take k)) enabling[k] := by
    decide +kernel
  refine ⟨by decide +kernel, discovery_follows_settings box _ enabling fun k e hk => ?_⟩
  obtain ⟨hlt, rfl⟩ := List.getElem?_eq_some_iff.mp hk
  exact hquiet ⟨k, hlt⟩

/-- DLNA is disabled while a change of the catalog is about to restart the server. -/
def disabling : List DiscoveryEvent :=
  proceeds 0 4 [] ++ [.request .catalog, .request (.set ⟨false, "TV"⟩)] ++ proceeds 1 3 [] ++
    proceeds 2 7 [] ++ proceeds 1 5 []

theorem discovery_not_follows_settings :
    (Mealy.after (step box) (start ⟨true, "TV"⟩) disabling).stored = ⟨false, "TV"⟩ ∧
      ¬∀ k, FollowsSettings box
        (Mealy.after (step box) (start ⟨true, "TV"⟩) (disabling.take k)) := by
  refine ⟨by decide +kernel, fun hall => ?_⟩
  have hfollows := hall 99 (by decide +kernel)
  have hwanted : (Mealy.after (step box) (start ⟨true, "TV"⟩) (disabling.take 99)).stored.wanted =
      none := by decide +kernel
  rw [hwanted] at hfollows
  have hrunning : (Mealy.after (step box) (start ⟨true, "TV"⟩) (disabling.take 99)).running box ≠
      [] := by decide +kernel
  exact hrunning hfollows.1

end Discovery

end Rustorr
