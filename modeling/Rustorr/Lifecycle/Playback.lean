import Rustorr.Cache.Recovery
import Rustorr.Lifecycle.Guard
import Rustorr.Cache.Pinned
import Rustorr.Cache.Memory

/-! A playback that is alive is never cut: whatever the interleaving, no step
takes its torrent from the engine or from the cache. -/

namespace Rustorr

open Ghost (guard guardCall guard_monotone)

/-- What a step leaves of the torrent `h`. -/
structure World.Uncut {ε σ : Type} (ops : PieceStore ε σ) (h : InfoHash) (w w' : World σ) :
    Prop where
  loaded : (w.loaded.lookup h).isSome → (w'.loaded.lookup h).isSome
  entry : w.cache.Kept h w'.cache
  store : Cache.Spared ops h w.cache.store w'.cache.store

theorem World.Uncut.of_undisturbed {ε σ : Type} {ops : PieceStore ε σ} {w : World σ}
    {cache : Cache σ} (h : InfoHash) (hcache : Cache.Undisturbed ops w.cache cache) :
    Uncut ops h w { w with cache := cache } :=
  ⟨id, hcache.kept h, hcache.spared h⟩

theorem World.Uncut.of_eq {ε σ : Type} {ops : PieceStore ε σ} {w w' : World σ} (h : InfoHash)
    (hloaded : w'.loaded = w.loaded) (hcache : w'.cache = w.cache) : Uncut ops h w w' :=
  ⟨by rw [hloaded]; exact id, by rw [hcache]; exact Cache.kept_of_eq rfl,
    by rw [hcache]; exact .same⟩

namespace Pool

variable {ε σ : Type} {ops : PieceStore ε σ} {p p' : Pool σ} {i j : ℕ} {g : Ghost}

/-- The pins of a torrent that tasks and readers hold. -/
def outstanding (p : Pool σ) (h : InfoHash) : ℕ :=
  (p.held.countP fun x => x.2.torrent = h) + p.readers.countP fun r => r.pin.torrent = h

/-- The cache counts every pin somebody holds, and a reader pins its own torrent. -/
structure Covered (p : Pool σ) : Prop where
  pins : ∀ h, p.outstanding h ≤ p.world.cache.pinsOf h
  own : ∀ r ∈ p.readers, r.pin.torrent = r.hash

/-- What task `i` relies on is so. -/
structure Knows (p : Pool σ) (i : ℕ) (g : Ghost) : Prop where
  gate : g.gate = true → p.gate = some i
  clear : g.gate = true → ∀ h ∈ g.clear, ∀ r ∈ p.readers, r.hash ≠ h
  pins : ∀ pin, g.pins.count pin ≤ p.held.count (i, pin)

/-- What is left of task `i` follows the discipline. -/
def Safe (p : Pool σ) (i : ℕ) (body : Coordinator.M Unit) : Prop :=
  ∃ g, Knows p i g ∧ Prog.wp guard body g fun _ _ => True

structure Guarded (p : Pool σ) : Prop where
  covered : Covered p
  safe : ∀ i task, p.tasks i = some task → Safe p i task.body

/-! ### What somebody holds -/

theorem Covered.pinned (hp : Covered p) {r : PlaybackReader} (hr : r ∈ p.readers) :
    0 < p.world.cache.pinsOf r.hash := by
  have hcount : 0 < p.readers.countP fun x => x.pin.torrent = r.hash :=
    List.countP_pos_iff.mpr ⟨r, hr, decide_eq_true (hp.own r hr)⟩
  have := hp.pins r.hash
  unfold outstanding at this
  omega

theorem Covered.of_eq (hp : Covered p) (hheld : p'.held = p.held) (hreaders : p'.readers = p.readers)
    (hpins : ∀ h, p'.world.cache.pinsOf h = p.world.cache.pinsOf h) : Covered p' where
  pins h := by
    have := hp.pins h
    unfold outstanding at this ⊢
    rw [hheld, hreaders, hpins]
    exact this
  own := by
    rw [hreaders]
    exact hp.own

theorem Knows.of_eq (hk : Knows p i g) (hgate : p'.gate = p.gate)
    (hreaders : p'.readers = p.readers) (hheld : p'.held = p.held) : Knows p' i g where
  gate h := hgate ▸ hk.gate h
  clear h := hreaders ▸ hk.clear h
  pins pin := hheld ▸ hk.pins pin

/-- A task takes a pin that the cache counts. -/
theorem Covered.gain (hp : Covered p) {pin : Cache.Pin} (hheld : p'.held = p.held ++ [(i, pin)])
    (hreaders : p'.readers = p.readers)
    (hpins : ∀ h, p'.world.cache.pinsOf h =
      if h = pin.torrent then p.world.cache.pinsOf h + 1 else p.world.cache.pinsOf h) :
    Covered p' where
  pins h := by
    have := hp.pins h
    unfold outstanding at this ⊢
    rw [hheld, hreaders, hpins, List.countP_append, List.countP_singleton]
    by_cases hh : h = pin.torrent
    · rw [if_pos hh]
      split <;> omega
    · have hne : ¬pin.torrent = h := Ne.symm hh
      simp only [hh, hne, decide_false, Bool.false_eq_true, if_false]
      omega
  own := by
    rw [hreaders]
    exact hp.own

/-- A pin that somebody held is given back. -/
theorem Covered.lose (hp : Covered p) {pin : Cache.Pin} (hmem : (i, pin) ∈ p.held)
    (hheld : p'.held = p.held.erase (i, pin)) (hreaders : p'.readers = p.readers)
    (hpins : ∀ h, p'.world.cache.pinsOf h =
      p.world.cache.pinsOf h - if h = pin.torrent then 1 else 0) : Covered p' where
  pins h := by
    have := hp.pins h
    unfold outstanding at this ⊢
    rw [hheld, hreaders, hpins, List.countP_erase]
    by_cases hh : h = pin.torrent
    · have hpos : 0 < p.held.countP fun x => x.2.torrent = h :=
        List.countP_pos_iff.mpr ⟨_, hmem, decide_eq_true hh.symm⟩
      simp only [hmem, hh.symm, decide_true, and_self, if_true]
      omega
    · have hne : ¬pin.torrent = h := Ne.symm hh
      simp only [hh, hne, decide_false, Bool.false_eq_true, and_false, if_false]
      omega
  own := by
    rw [hreaders]
    exact hp.own

/-- A pin passes from a task to a reader. -/
theorem Covered.handOver (hp : Covered p) {reader : PlaybackReader}
    (hmem : (i, reader.pin) ∈ p.held) (hown : reader.pin.torrent = reader.hash)
    (hheld : p'.held = p.held.erase (i, reader.pin)) (hreaders : p'.readers = p.readers ++ [reader])
    (hworld : p'.world = p.world) : Covered p' where
  pins h := by
    have := hp.pins h
    unfold outstanding at this ⊢
    rw [hheld, hreaders, hworld, List.countP_erase, List.countP_append, List.countP_singleton]
    by_cases hh : reader.pin.torrent = h
    · have hpos : 0 < p.held.countP fun x => x.2.torrent = h :=
        List.countP_pos_iff.mpr ⟨_, hmem, decide_eq_true hh⟩
      simp only [hmem, hh, decide_true, and_self, if_true]
      omega
    · simp only [hh, decide_false, Bool.false_eq_true, and_false, if_false]
      omega
  own r hr := by
    rw [hreaders] at hr
    rcases List.mem_append.mp hr with hr | hr
    · exact hp.own r hr
    · rw [List.mem_singleton.mp hr]
      exact hown

theorem Covered.dropReader (hp : Covered p) {reader : PlaybackReader}
    (hmem : reader ∈ p.readers) (hheld : p'.held = p.held)
    (hreaders : p'.readers = p.readers.erase reader)
    (hpins : ∀ h, p'.world.cache.pinsOf h =
      p.world.cache.pinsOf h - if h = reader.pin.torrent then 1 else 0) : Covered p' where
  pins h := by
    have := hp.pins h
    unfold outstanding at this ⊢
    rw [hheld, hreaders, hpins, List.countP_erase]
    by_cases hh : h = reader.pin.torrent
    · have hpos : 0 < p.readers.countP fun r => r.pin.torrent = h :=
        List.countP_pos_iff.mpr ⟨_, hmem, decide_eq_true hh.symm⟩
      simp only [hmem, hh.symm, decide_true, and_self, if_true]
      omega
    · have hne : ¬reader.pin.torrent = h := Ne.symm hh
      simp only [hh, hne, decide_false, Bool.false_eq_true, and_false, if_false]
      omega
  own r hr := by
    rw [hreaders] at hr
    exact hp.own r (List.mem_of_mem_erase hr)

theorem Knows.gain (hk : Knows p i g) {pin : Cache.Pin} (hgate : p'.gate = p.gate)
    (hreaders : p'.readers = p.readers) (hheld : p'.held = p.held ++ [(i, pin)]) :
    Knows p' i { g with pins := pin :: g.pins } where
  gate h := hgate ▸ hk.gate h
  clear h := hreaders ▸ hk.clear h
  pins x := by
    have := hk.pins x
    rw [hheld, List.count_append, List.count_cons, List.count_singleton]
    by_cases hx : pin = x
    · simp only [hx, beq_self_eq_true, if_true]
      omega
    · simp only [hx, beq_iff_eq, Prod.mk.injEq, and_false, if_false]
      omega

theorem Knows.lose (hk : Knows p i g) {pin : Cache.Pin} {clear : List InfoHash}
    (hgate : p'.gate = p.gate)
    (hclear : g.gate = true → ∀ h ∈ clear, ∀ r ∈ p'.readers, r.hash ≠ h)
    (hheld : p'.held = p.held.erase (i, pin)) :
    Knows p' i ⟨g.gate, clear, g.pins.erase pin⟩ where
  gate h := hgate ▸ hk.gate h
  clear := hclear
  pins x := by
    have := hk.pins x
    rw [hheld, List.count_erase, List.count_erase]
    by_cases hx : x = pin
    · simp only [hx, beq_self_eq_true, if_true]
      rw [hx] at this
      omega
    · have hne : ¬pin = x := Ne.symm hx
      simp only [hne, beq_iff_eq, Prod.mk.injEq, and_false, if_false]
      omega

theorem Knows.mem_held (hk : Knows p i g) {pin : Cache.Pin} (hpin : pin ∈ g.pins) :
    (i, pin) ∈ p.held :=
  List.count_pos_iff.mp (lt_of_lt_of_le (List.count_pos_iff.mpr hpin) (hk.pins pin))

/-- The step of one task leaves the others what they rely on. -/
theorem Safe.of_step {body : Coordinator.M Unit} (hs : Safe p j body)
    (hgate : p.gate = some j → p'.gate = some j ∧ ∀ r ∈ p'.readers, r ∈ p.readers)
    (hheld : ∀ pin, p.held.count (j, pin) ≤ p'.held.count (j, pin)) : Safe p' j body := by
  obtain ⟨g, hk, hbody⟩ := hs
  refine ⟨g, ⟨fun h => (hgate (hk.gate h)).1, fun h hash hclear r hr => ?_, fun pin => ?_⟩, hbody⟩
  · exact hk.clear h hash hclear r ((hgate (hk.gate h)).2 r hr)
  · exact (hk.pins pin).trans (hheld pin)

/-- A task that holds nothing it may use relies on nothing. -/
theorem safe_of_follows {body : Coordinator.M Unit} (h : Coordinator.Follows false body) :
    Safe p i body := by
  refine ⟨⟨false, [], []⟩, ⟨fun h => ?_, fun h => ?_, fun pin => Nat.zero_le _⟩, ?_⟩
  · cases h
  · cases h
  · exact Prog.wp_mono guard_monotone (fun _ _ _ => trivial) (h _ rfl)

theorem safe_of_finished {body : Coordinator.M Unit} (h : body.finished) : Safe p i body := by
  cases body with
  | ret a => exact safe_of_follows fun _ hg => hg
  | fail e => exact safe_of_follows fun _ hg => hg
  | call a k => cases h

/-- The pool after a step of task `i`: what covers the pins, what the task goes on
with, and what the others keep. -/
theorem Guarded.goOn (hp : Guarded p) {q : Pool σ} (htasks : q.tasks = p.tasks) (hq : Covered q)
    {name : Option Background} {body : Coordinator.M Unit} (hbody : Safe q i body)
    (hgate : ∀ j, j ≠ i → p.gate = some j → q.gate = some j ∧ ∀ r ∈ q.readers, r ∈ p.readers)
    (hheld : ∀ j, j ≠ i → ∀ pin, p.held.count (j, pin) ≤ q.held.count (j, pin)) :
    Guarded (q.goOn i name body) where
  covered := hq.of_eq rfl rfl fun _ => rfl
  safe j task htask := by
    have hsame : ∀ {body}, Safe q j body → Safe (q.goOn i name body) j body :=
      fun hs => hs.of_step (fun h => ⟨h, fun _ hr => hr⟩) fun _ => le_rfl
    by_cases hj : j = i
    · subst hj
      have : task = ⟨name, body⟩ := by
        have htask' : Function.update q.tasks j (some ⟨name, body⟩) j = some task := htask
        rw [Function.update_self] at htask'
        exact (Option.some.inj htask').symm
      subst this
      exact hbody.of_step (fun h => ⟨h, fun _ hr => hr⟩) fun _ => le_rfl
    · have htask' : Function.update q.tasks i (some ⟨name, body⟩) j = some task := htask
      rw [Function.update_of_ne hj, htasks] at htask'
      exact ((hp.safe j task htask').of_step (hgate j hj) (hheld j hj)).of_step
        (fun h => ⟨h, fun _ hr => hr⟩) fun _ => le_rfl

theorem count_erase_other {held : List (ℕ × Cache.Pin)} {pin x : Cache.Pin} (hj : j ≠ i) :
    (held.erase (i, pin)).count (j, x) = held.count (j, x) := by
  rw [List.count_erase_of_ne]
  rintro ⟨⟩
  exact hj rfl

/-- A step that leaves task `i` with nothing to do. -/
theorem Guarded.settle (hp : Guarded p)
    (htasks : ∀ j task, p'.tasks j = some task → p.tasks j = some task) (hcovered : Covered p')
    {task : Task} (htask : p.tasks i = some task) (hfinished : task.body.finished)
    (hgate : ∀ j, j ≠ i → p.gate = some j → p'.gate = some j ∧ ∀ r ∈ p'.readers, r ∈ p.readers)
    (hheld : ∀ j, j ≠ i → ∀ pin, p.held.count (j, pin) ≤ p'.held.count (j, pin)) :
    Guarded p' where
  covered := hcovered
  safe j t ht := by
    have ht' := htasks j t ht
    by_cases hj : j = i
    · rw [hj, htask] at ht'
      cases ht'
      exact safe_of_finished hfinished
    · exact (hp.safe j t ht').of_step (hgate j hj) (hheld j hj)

/-! ### Calls -/

theorem answer_uncut (a : Answers ε) {c : Call} (hc : c.Plain) (w : World σ) {h : InfoHash}
    (hpins : 0 < w.cache.pinsOf h) : World.Uncut ops h w (w.answer ops a c).2 := by
  cases c with
  | add source options =>
    unfold World.answer World.add
    split
    · exact .of_eq h rfl rfl
    · next metadata id _ =>
      refine ⟨fun hloaded => ?_, Cache.kept_of_eq rfl, .same⟩
      show ((w.loaded.insert metadata.hash id).lookup h).isSome
      by_cases hh : h = metadata.hash
      · rw [hh, AList.lookup_insert]
        rfl
      · rwa [AList.lookup_insert_ne hh]
  | removeCache hash =>
    have hkeeps := Cache.remove_keeps ops a.store hash w.cache hpins
    exact ⟨id, hkeeps.1, hkeeps.2⟩
  | setCapBytes capBytes => exact ⟨id, Cache.kept_of_eq rfl, .same⟩
  | ensureUnpinned _ | delete _ | forget _ _ | pin _ _ | dropPin _ => exact hc.elim
  | _ => exact .of_eq h rfl rfl

theorem answer_pinsOf (a : Answers ε) {c : Call} (hc : c.Plain) (w : World σ) (h : InfoHash) :
    (w.answer ops a c).2.cache.pinsOf h = w.cache.pinsOf h := by
  cases c with
  | add source options =>
    unfold World.answer World.add
    split <;> rfl
  | removeCache hash => exact Cache.pinsOf_remove h hash w.cache
  | setCapBytes capBytes => rfl
  | ensureUnpinned _ | delete _ | forget _ _ | pin _ _ | dropPin _ => exact hc.elim
  | _ => rfl

theorem callBy_held (a : Answers ε) {c : Call} (hc : c.Plain) :
    (p.callBy ops i a c).2.held = p.held := by
  cases c with
  | pin _ _ | dropPin _ => exact hc.elim
  | _ => exact List.append_nil p.held

/-- A torrent seen without a pin has no reader. -/
theorem Knows.saw (hp : Covered p) (hk : Knows p i g) (hash : InfoHash) :
    Knows p i (g.saw hash (p.world.cache.ensureUnpinned hash)) := by
  have hgate : ∀ r, (g.saw hash r).gate = g.gate := fun r => by
    unfold Ghost.saw
    split <;> rfl
  have hpins : ∀ r, (g.saw hash r).pins = g.pins := fun r => by
    unfold Ghost.saw
    split <;> rfl
  refine ⟨by rw [hgate]; exact hk.gate, ?_, by rw [hpins]; exact hk.pins⟩
  rw [hgate]
  intro hg h hclear r hr
  unfold Ghost.saw at hclear
  split at hclear
  · exact hk.clear hg h hclear r hr
  · next hpinned =>
    rcases List.mem_cons.mp hclear with rfl | hclear
    · rintro rfl
      have hpos := hp.pinned hr
      obtain ⟨e, he⟩ := Cache.exists_entry_of_pinsOf hpos
      rw [Cache.pinsOf_of_some he] at hpos
      apply hpinned r.hash
      unfold Cache.ensureUnpinned
      simp only [Cache.entry_eq_ok.mpr he, hpos, if_true]
    · exact hk.clear hg h hclear r hr

variable (ops) in
theorem callBy_guarded (hp : Covered p) (hk : Knows p i g) (a : Answers ε) {c : Call}
    {Q : c.Ans → Ghost → Prop} (hc : guardCall c g Q) :
    Covered (p.callBy ops i a c).2 ∧
      ∃ g', Q (p.callBy ops i a c).1 g' ∧ Knows (p.callBy ops i a c).2 i g' := by
  have hplain : ∀ {c : Call} {Q : c.Ans → Ghost → Prop}, c.Plain → (∀ x, Q x g) →
      Covered (p.callBy ops i a c).2 ∧
        ∃ g', Q (p.callBy ops i a c).1 g' ∧ Knows (p.callBy ops i a c).2 i g' := fun hc hQ =>
    ⟨hp.of_eq (callBy_held a hc) rfl (answer_pinsOf a hc p.world), g, hQ _,
      hk.of_eq rfl rfl (callBy_held a hc)⟩
  have hheld : p.held ++ [] = p.held := List.append_nil p.held
  cases c with
  | ensureUnpinned hash =>
    exact ⟨hp.of_eq hheld rfl fun _ => rfl, _, hc _, (hk.saw hp hash).of_eq rfl rfl hheld⟩
  | delete hash => exact ⟨hp.of_eq hheld rfl fun _ => rfl, g, hc.2 _, hk.of_eq rfl rfl hheld⟩
  | forget hash id =>
    refine ⟨hp.of_eq hheld rfl fun _ => ?_, g, hc.2, hk.of_eq rfl rfl hheld⟩
    show (p.world.forget hash id).cache.pinsOf _ = _
    unfold World.forget
    split <;> rfl
  | pin hash range =>
    have hcount := fun h => Cache.pinsOf_pinInner h hash range p.world.cache
    cases hpin : (p.world.cache.pinInner hash range).1 with
    | error e =>
      simp only [hpin] at hcount
      have hheld' : (p.callBy ops i a (.pin hash range)).2.held = p.held := by
        show p.held ++ (Call.gained (.pin hash range) (p.world.cache.pinInner hash range).1).map _ = _
        rw [hpin]
        exact hheld
      refine ⟨hp.of_eq hheld' rfl hcount, g, ?_, hk.of_eq rfl rfl hheld'⟩
      show Q (p.world.cache.pinInner hash range).1 g
      rw [hpin]
      exact hc.1 e
    | ok pin =>
      simp only [hpin] at hcount
      have hheld' : (p.callBy ops i a (.pin hash range)).2.held = p.held ++ [(i, pin)] := by
        show p.held ++ (Call.gained (.pin hash range) (p.world.cache.pinInner hash range).1).map _ = _
        rw [hpin]
        rfl
      refine ⟨hp.gain hheld' rfl hcount, _, ?_, hk.gain rfl rfl hheld'⟩
      show Q (p.world.cache.pinInner hash range).1 _
      rw [hpin]
      exact hc.2 pin (Cache.pinInner_torrent hpin)
  | dropPin pin =>
    have hheld' : (p.callBy ops i a (.dropPin pin)).2.held = p.held.erase (i, pin) :=
      List.append_nil _
    refine ⟨hp.lose (hk.mem_held hc.1) hheld' rfl fun h => ?_, _, hc.2,
      hk.lose rfl hk.clear hheld'⟩
    exact Cache.pinsOf_dropPin h pin p.world.cache
  | _ => exact hplain trivial hc

variable (ops) in
/-- No call the discipline allows touches the torrent of a reader. -/
theorem callBy_uncut (hp : Covered p) (hk : Knows p i g) (a : Answers ε) {c : Call}
    {Q : c.Ans → Ghost → Prop} (hc : guardCall c g Q) {r : PlaybackReader} (hr : r ∈ p.readers) :
    c ≠ .delete r.hash ∧ (∀ id, c ≠ .forget r.hash id) ∧
      World.Uncut ops r.hash p.world (p.callBy ops i a c).2.world := by
  have hplain : c.Plain → World.Uncut ops r.hash p.world (p.callBy ops i a c).2.world :=
    fun hc => answer_uncut a hc p.world (hp.pinned hr)
  cases c with
  | ensureUnpinned hash => exact ⟨nofun, nofun, .of_eq _ rfl rfl⟩
  | delete hash =>
    refine ⟨fun h => ?_, nofun, .of_eq _ rfl rfl⟩
    cases h
    exact hk.clear hc.1.1 _ hc.1.2 r hr rfl
  | forget hash id =>
    have hne : hash ≠ r.hash := fun h => hk.clear hc.1.1 _ hc.1.2 r hr h.symm
    refine ⟨nofun, fun id h => ?_, ?_⟩
    · cases h
      exact hne rfl
    · show World.Uncut ops r.hash p.world (p.world.forget hash id)
      unfold World.forget
      split
      · refine ⟨fun h => ?_, Cache.kept_of_eq rfl, .same⟩
        show ((p.world.loaded.erase hash).lookup r.hash).isSome
        rwa [AList.lookup_erase_ne hne.symm]
      · exact .of_eq _ rfl rfl
  | pin hash range =>
    refine ⟨nofun, nofun, id, Cache.kept_pinInner r.hash hash range _, ?_⟩
    show Cache.Spared ops r.hash _ (p.world.cache.pinInner hash range).2.store
    rw [Cache.pinInner_store]
    exact .same
  | dropPin pin =>
    refine ⟨nofun, nofun, id, Cache.kept_dropPin r.hash pin _, ?_⟩
    show Cache.Spared ops r.hash _ (p.world.cache.dropPin pin).store
    rw [Cache.dropPin_store]
    exact .same
  | _ => exact ⟨nofun, nofun, hplain trivial⟩

/-- A call changes the pins of its own task only. -/
theorem callBy_held_of_ne (a : Answers ε) (c : Call) (hj : j ≠ i) (pin : Cache.Pin) :
    p.held.count (j, pin) ≤ (p.callBy ops i a c).2.held.count (j, pin) := by
  unfold callBy
  dsimp only
  rw [List.count_append]
  refine le_trans ?_ (Nat.le_add_right _ _)
  split
  · rw [List.count_erase_of_ne]
    rintro ⟨⟩
    exact hj rfl
  · exact le_rfl

/-! ### Steps -/

variable (ops) in
theorem undisturbed_traffic (env : ε) (hash : InfoHash) (t : World.Traffic) (w : World σ) :
    ∃ cache, w.traffic ops env hash t = { w with cache := cache } ∧
      Cache.Undisturbed ops w.cache cache := by
  cases t with
  | openTorrent layout => exact ⟨_, rfl, Cache.undisturbed_openTorrent hash layout _⟩
  | write file offset data => exact ⟨_, rfl, Cache.undisturbed_write hash file offset data _⟩
  | read file offset len => exact ⟨_, rfl, Cache.undisturbed_read hash file offset len _⟩
  | pieceCompleted piece => exact ⟨_, rfl, Cache.undisturbed_pieceCompleted hash piece _⟩

theorem uncut_dropPin (h : InfoHash) (pin : Cache.Pin) (w : World σ) :
    World.Uncut ops h w { w with cache := w.cache.dropPin pin } := by
  refine ⟨id, Cache.kept_dropPin h pin _, ?_⟩
  rw [Cache.dropPin_store]
  exact .same

/-- A step that a task makes with nobody else's knowledge at stake. -/
theorem Guarded.alone (hp : Guarded p) {name : Option Background} {a : Act}
    {k : a.Ans → Coordinator.M Unit} (htask : p.tasks i = some ⟨name, .call a k⟩) :
    ∃ g, Knows p i g ∧ guard a g fun x s => Prog.wp guard (k x) s fun _ _ => True := by
  obtain ⟨g, hk, hbody⟩ := hp.safe i _ htask
  exact ⟨g, hk, hbody⟩

theorem Guarded.step {act : Option Act} (hp : Guarded p) (hstep : Step ops p act p') :
    Guarded p' := by
  cases hstep with
  | @lock i name k htask hfree =>
    obtain ⟨g, hk, hg, hrest⟩ := hp.alone htask
    refine hp.goOn (q := { p with gate := some i }) rfl (hp.covered.of_eq rfl rfl fun _ => rfl)
      ⟨⟨true, [], g.pins⟩, ⟨fun _ => rfl, ?_, hk.pins⟩, hrest⟩ (fun j hj hgate => ?_)
      fun _ _ _ => le_rfl
    · exact fun _ h hclear => absurd hclear List.not_mem_nil
    · rw [hfree] at hgate
      cases hgate
  | @unlock i name k htask =>
    obtain ⟨g, hk, hg, hrest⟩ := hp.alone htask
    have howner := hk.gate hg
    refine hp.goOn (q := { p with gate := none }) rfl (hp.covered.of_eq rfl rfl fun _ => rfl)
      ⟨⟨false, g.clear, g.pins⟩, ⟨fun h => ?_, fun h => ?_, hk.pins⟩, hrest⟩ (fun j hj hgate => ?_)
      fun _ _ _ => le_rfl
    · cases h
    · cases h
    rw [howner] at hgate
    exact absurd (Option.some.inj hgate).symm hj
  | @call i name caller c k a htask =>
    obtain ⟨g, hk, hrest⟩ := hp.alone htask
    obtain ⟨hcovered, g', hrest', hk'⟩ := callBy_guarded ops hp.covered hk a hrest
    exact hp.goOn (q := (p.callBy ops i a c).2) rfl hcovered ⟨g', hk', hrest'⟩
      (fun j hj hgate => ⟨hgate, fun _ hr => hr⟩)
      fun j hj pin => callBy_held_of_ne a c hj pin
  | @atomically i name β f k htask =>
    obtain ⟨g, hk, hrest⟩ := hp.alone htask
    exact hp.goOn (q := { p with world := { p.world with fields := (f p.world.fields).2 } }) rfl
      (hp.covered.of_eq rfl rfl fun _ => rfl) ⟨g, hk.of_eq rfl rfl rfl, hrest _⟩
      (fun j hj hgate => ⟨hgate, fun _ hr => hr⟩) fun _ _ _ => le_rfl
  | @spawn i name task k j htask hj =>
    obtain ⟨g, hk, hrest⟩ := hp.alone htask
    have hspawned : Guarded (p.goOn j (some task) task.body) :=
      hp.goOn rfl hp.covered (safe_of_follows (Coordinator.follows_background task))
        (fun _ _ hgate => ⟨hgate, fun _ hr => hr⟩) fun _ _ _ => le_rfl
    exact hspawned.goOn rfl hspawned.covered ⟨g, hk.of_eq rfl rfl rfl, hrest⟩
      (fun _ _ hgate => ⟨hgate, fun _ hr => hr⟩) fun _ _ _ => le_rfl
  | @cancel i name task k htask hgone =>
    obtain ⟨g, hk, hrest⟩ := hp.alone htask
    exact hp.goOn rfl hp.covered ⟨g, hk, hrest⟩ (fun j hj hgate => ⟨hgate, fun _ hr => hr⟩)
      fun _ _ _ => le_rfl
  | @handOver i name reader k htask =>
    obtain ⟨g, hk, ⟨hg, hpin, hown⟩, hrest⟩ := hp.alone htask
    have howner := hk.gate hg
    refine hp.goOn
      (q := { p with held := p.held.erase (i, reader.pin), readers := p.readers ++ [reader] }) rfl
      (hp.covered.handOver (hk.mem_held hpin) hown rfl rfl rfl)
      ⟨_, hk.lose rfl ?_ rfl, hrest⟩ (fun j hj hgate => ?_) fun j hj pin => ?_
    · intro _ h hclear r hr
      rw [List.mem_filter, decide_eq_true_eq] at hclear
      rcases List.mem_append.mp hr with hr | hr
      · exact hk.clear hg h hclear.1 r hr
      · rw [List.mem_singleton.mp hr]
        exact hclear.2.symm
    · rw [howner] at hgate
      exact absurd (Option.some.inj hgate).symm hj
    · exact (count_erase_other hj).ge
  | request r hi =>
    exact hp.goOn rfl hp.covered (safe_of_follows (Coordinator.follows_request r))
      (fun _ _ hgate => ⟨hgate, fun _ hr => hr⟩) fun _ _ _ => le_rfl
  | @abandon i task htask =>
    exact hp.goOn rfl hp.covered (safe_of_finished rfl) (fun j hj hgate => ⟨hgate, fun _ hr => hr⟩)
      fun _ _ _ => le_rfl
  | @dropHeld i task pin htask hfinished hpin =>
    refine hp.settle (fun _ _ h => h) ?_ htask hfinished
      (fun j hj hgate => ⟨hgate, fun _ hr => hr⟩) fun j hj x => (count_erase_other hj).ge
    exact hp.covered.lose hpin rfl rfl fun h => Cache.pinsOf_dropPin h pin p.world.cache
  | dropGuard htask hfinished howner =>
    refine hp.settle (fun _ _ h => h) (hp.covered.of_eq rfl rfl fun _ => rfl) htask hfinished
      (fun j hj hgate => ?_) fun _ _ _ => le_rfl
    rw [howner] at hgate
    exact absurd (Option.some.inj hgate).symm hj
  | @exit i task htask hfinished hgate hheld =>
    refine hp.settle (fun j t h => ?_) (hp.covered.of_eq rfl rfl fun _ => rfl) htask hfinished
      (fun j hj hgate => ⟨hgate, fun _ hr => hr⟩) fun _ _ _ => le_rfl
    have h' : Function.update p.tasks i none j = some t := h
    by_cases hj : j = i
    · rw [hj, Function.update_self] at h'
      cases h'
    · rwa [Function.update_of_ne hj] at h'
  | @dropReader reader j hreader hj =>
    refine hp.goOn (q := { p with readers := p.readers.erase reader }.dropPin reader.pin) rfl
      (hp.covered.dropReader hreader rfl rfl fun h => ?_)
      (safe_of_follows (Coordinator.follows_background (.release reader.hash)))
      (fun _ _ hgate => ⟨hgate, fun _ hr => List.mem_of_mem_erase hr⟩) fun _ _ _ => le_rfl
    exact Cache.pinsOf_dropPin h reader.pin p.world.cache
  | traffic env hash t =>
    obtain ⟨cache, htraffic, hcache⟩ := undisturbed_traffic ops env hash t p.world
    rw [htraffic]
    refine ⟨hp.covered.of_eq rfl rfl hcache.pinsOf, fun i task htask => ?_⟩
    exact (hp.safe i task htask).of_step (fun hgate => ⟨hgate, fun _ hr => hr⟩) fun _ => le_rfl

theorem guarded_start (world : World σ) : Guarded (start world) :=
  ⟨⟨fun _ => Nat.zero_le _, fun _ h => absurd h List.not_mem_nil⟩, nofun⟩

theorem Reachable.guarded {world : World σ} (hp : Reachable ops world p) : Guarded p := by
  induction hp with
  | start => exact guarded_start world
  | step _ hstep ih => exact ih.step hstep

/-- No step of any interleaving takes the torrent of a live playback from the
engine, nor its entry or bytes from the cache. -/
theorem playback_uncut {world : World σ} {act : Option Act} (hp : Reachable ops world p)
    (hstep : Step ops p act p') {r : PlaybackReader} (hr : r ∈ p.readers) :
    (∀ caller, act ≠ some (.call caller (.delete r.hash))) ∧
      (∀ caller id, act ≠ some (.call caller (.forget r.hash id))) ∧
      (∃ e, p.world.cache.torrents.lookup r.hash = some e) ∧
      World.Uncut ops r.hash p.world p'.world := by
  have hp := hp.guarded
  have hentry := Cache.exists_entry_of_pinsOf (hp.covered.pinned hr)
  cases hstep with
  | @call i name caller c k a htask =>
    obtain ⟨g, hk, hrest⟩ := hp.alone htask
    obtain ⟨hdelete, hforget, huncut⟩ := callBy_uncut ops hp.covered hk a hrest hr
    refine ⟨fun caller' h => ?_, fun caller' id h => ?_, hentry, huncut⟩
    · cases h
      exact hdelete rfl
    · cases h
      exact hforget id rfl
  | @dropHeld i task pin htask hfinished hpin =>
    exact ⟨nofun, nofun, hentry, uncut_dropPin r.hash pin p.world⟩
  | @dropReader reader j hreader hj =>
    exact ⟨nofun, nofun, hentry, uncut_dropPin r.hash reader.pin p.world⟩
  | traffic env hash t =>
    obtain ⟨cache, htraffic, hcache⟩ := undisturbed_traffic ops env hash t p.world
    refine ⟨nofun, nofun, hentry, ?_⟩
    rw [htraffic]
    exact .of_undisturbed r.hash hcache
  | _ => exact ⟨nofun, nofun, hentry, .of_eq _ rfl rfl⟩

/-- An environment in which nothing fails. -/
def quiet : Answers Unit :=
  ⟨none, [], 0, .error (.torrent ""), .error (.torrent ""), .ok 4, .ok [], fun _ => false, ()⟩

def playedTorrent : InfoHash := ⟨List.replicate 20 3, rfl⟩

def playedLayout : TorrentLayout :=
  ⟨4, [4], 4, 1, Disk.oneFileLayout.pieceLength_ne, Disk.oneFileLayout.pieceLength_lt,
    Disk.oneFileLayout.totalLength_eq, Disk.oneFileLayout.totalLength_lt,
    Disk.oneFileLayout.pieceCount_eq, Disk.oneFileLayout.pieceCount_lt⟩

/-- A torrent that is live, loaded and open in the cache. -/
def playedWorld : World MemoryStore :=
  let live : LiveTorrent := ⟨⟨playedTorrent, [], "a", [⟨0, "a", 4⟩], []⟩, "a", "", "", "", 0⟩
  ⟨(∅ : AList fun _ : InfoHash => ℕ).insert playedTorrent 7,
    ((Cache.new MemoryStore.new 8).openTorrent MemoryStore.pieceStore () playedTorrent
      playedLayout).2,
    State.empty,
    ⟨∅, ∅, ∅, (∅ : AList fun _ : InfoHash => LiveTorrent).insert playedTorrent live,
      Settings.default, 1, 1, false⟩⟩

/-- A request plays the torrent, act by act, and the engine reads beside it. -/
theorem playback_uncut_playing :
    ∃ (p p' : Pool MemoryStore) (r : PlaybackReader), r.hash = playedTorrent ∧ r ∈ p.readers ∧
      Step MemoryStore.pieceStore p none p' ∧
      World.Uncut MemoryStore.pieceStore r.hash p.world p'.world := by
  have started : Reachable MemoryStore.pieceStore playedWorld _ := .start
  have requested := started.step (Step.request (i := 0) (.play playedTorrent 1 0 none none) rfl)
  have locked := requested.step (Step.lock (i := 0) rfl rfl)
  have stopped := locked.step (Step.atomically (i := 0) rfl)
  have loaded := stopped.step (Step.call (i := 0) quiet rfl)
  have found := loaded.step (Step.atomically (i := 0) rfl)
  have opened := found.step (Step.call (i := 0) quiet rfl)
  have pinned := opened.step (Step.call (i := 0) quiet rfl)
  have playing := pinned.step (Step.handOver (i := 0) rfl)
  have hread : ∀ p, Step MemoryStore.pieceStore p none _ := fun p =>
    .traffic (p := p) () playedTorrent (.read ⟨0⟩ 0 4)
  have huncut := playback_uncut playing (hread _) (List.mem_singleton_self _)
  exact ⟨_, _, _, rfl, List.mem_singleton_self _, hread _, huncut.2.2.2⟩

end Pool

end Rustorr
