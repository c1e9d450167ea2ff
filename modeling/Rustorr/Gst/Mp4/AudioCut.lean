import Mathlib.Algebra.Order.Field.Basic
import Rustorr.Gst.Mp4.Halves

/-! The audio is cut where the video ends: which samples are taken, and which queues cannot be cut. -/

namespace Rustorr.Mp4

open BigEndian Except

/-! ### Times that are reached -/

/-- Each time up to the first one reached fits 64 bits. -/
def Timely (reached : ℕ → Bool) (times : List ℕ) : Prop :=
  ∀ before time after, times = before ++ time :: after → (∀ t ∈ before, reached t = false) →
    time < 2 ^ 64

variable {reached : ℕ → Bool} {time count : ℕ} {before after times more : List ℕ}

theorem timely_nil : Timely reached [] :=
  fun _ _ _ h => absurd h.symm (List.append_ne_nil_of_right_ne_nil _ (List.cons_ne_nil _ _))

theorem timely_cons : Timely reached (time :: times) ↔
    time < 2 ^ 64 ∧ (reached time = false → Timely reached times) := by
  constructor
  · intro h
    refine ⟨h [] time times rfl fun _ hmem => absurd hmem List.not_mem_nil, fun hfirst => ?_⟩
    intro before last after heq hbefore
    exact h (time :: before) last after (by rw [heq, List.cons_append])
      (List.forall_mem_cons.mpr ⟨hfirst, hbefore⟩)
  · rintro ⟨hfirst, hrest⟩ before last after heq hbefore
    cases before with
    | nil =>
      rw [← (List.cons.inj heq).1]
      exact hfirst
    | cons t before =>
      obtain ⟨rfl, htimes⟩ := List.cons.inj heq
      obtain ⟨ht, hbefore⟩ := List.forall_mem_cons.mp hbefore
      exact hrest ht before last after htimes hbefore

theorem timely_append : Timely reached (times ++ more) ↔
    Timely reached times ∧ ((∀ t ∈ times, reached t = false) → Timely reached more) := by
  induction times with
  | nil => exact ⟨fun h => ⟨timely_nil, fun _ => h⟩, fun h => h.2 fun _ hmem => absurd hmem List.not_mem_nil⟩
  | cons t times ih =>
    rw [List.cons_append, timely_cons, timely_cons, ih, List.forall_mem_cons]
    constructor
    · rintro ⟨ht, hrest⟩
      exact ⟨⟨ht, fun hfirst => (hrest hfirst).1⟩, fun ⟨hfirst, hall⟩ => (hrest hfirst).2 hall⟩
    · rintro ⟨⟨ht, hrest⟩, hmore⟩
      exact ⟨ht, fun hfirst => ⟨hrest hfirst, fun hall => hmore ⟨hfirst, hall⟩⟩⟩

/-- There is one first time that is reached. -/
theorem first_unique {before' after' : List ℕ} {time' : ℕ}
    (h : before ++ time :: after = before' ++ time' :: after') (hbefore : ∀ t ∈ before, reached t = false)
    (hbefore' : ∀ t ∈ before', reached t = false) (htime : reached time = true)
    (htime' : reached time' = true) : before = before' ∧ time = time' ∧ after = after' := by
  induction before generalizing before' with
  | nil =>
    cases before' with
    | nil => exact ⟨rfl, List.cons.inj h⟩
    | cons t before' =>
      obtain ⟨rfl, -⟩ := List.cons.inj h
      rw [hbefore' time List.mem_cons_self] at htime
      cases htime
  | cons t before ih =>
    cases before' with
    | nil =>
      obtain ⟨rfl, -⟩ := List.cons.inj h
      rw [hbefore t List.mem_cons_self] at htime'
      cases htime'
    | cons t' before' =>
      obtain ⟨rfl, hlater⟩ := List.cons.inj h
      obtain ⟨rfl, hrest⟩ := ih hlater (List.forall_mem_cons.mp hbefore).2 (List.forall_mem_cons.mp hbefore').2
      exact ⟨rfl, hrest⟩

/-- A sample ends when those up to it have passed. -/
theorem end_eq_timeAfter {start : ℕ} {samples : List Sample}
    (h : endsFrom start samples = before ++ time :: after) :
    time = start + durationOf (samples.take (before.length + 1)) := by
  induction samples generalizing start before with
  | nil =>
    have hne := List.append_ne_nil_of_right_ne_nil before (List.cons_ne_nil time after)
    exact absurd h.symm hne
  | cons s samples ih =>
    rw [endsFrom] at h
    rw [List.take_succ_cons, durationOf_cons]
    cases before with
    | nil =>
      rw [← (List.cons.inj h).1]
      rfl
    | cons t before =>
      rw [ih (List.cons.inj h).2, List.length_cons, Nat.add_assoc]

namespace Reader

variable {r : Reader} {videoEnd : ℕ}

/-! ### The scan -/

theorem scanSamples_isOk {samples : List Sample} {start : ℕ} :
    (∃ out, scanSamples reached samples start count = .ok out) ↔ Timely reached (endsFrom start samples) := by
  induction samples generalizing start count with
  | nil => exact ⟨fun _ => timely_nil, fun _ => ⟨_, rfl⟩⟩
  | cons s samples ih =>
    rw [endsFrom, timely_cons]
    unfold scanSamples
    constructor
    · rintro ⟨out, h⟩
      obtain ⟨next, hnext, h⟩ := bind_eq_ok.mp h
      obtain ⟨hlt, rfl⟩ := of_add64_eq_ok hnext
      refine ⟨hlt, fun hfirst => ?_⟩
      rw [if_neg (by rw [hfirst]; exact Bool.false_ne_true)] at h
      exact ih.mp ⟨out, h⟩
    · rintro ⟨hlt, hrest⟩
      rw [add64_of_lt hlt, ok_bind]
      split
      · exact ⟨_, rfl⟩
      · next hfirst => exact ih.mpr (hrest (Bool.not_eq_true _ ▸ hfirst))

theorem scanRuns_isOk {runs : List Run} {start : ℕ} (hruns : ∀ run ∈ runs, run.samples ≠ []) :
    (∃ out, scanRuns reached runs start count = .ok out) ↔
      Timely reached (endsFrom start (runs.flatMap Run.samples)) := by
  induction runs generalizing start count with
  | nil => exact ⟨fun _ => timely_nil, fun _ => ⟨_, rfl⟩⟩
  | cons run rest ih =>
    obtain ⟨hrun, hrest⟩ := List.forall_mem_cons.mp hruns
    rw [List.flatMap_cons, endsFrom_append, timely_append]
    unfold scanRuns
    rw [failIf_of_not hrun, ok_bind]
    constructor
    · rintro ⟨out, h⟩
      obtain ⟨⟨next, count', found⟩, hscan, h⟩ := bind_eq_ok.mp h
      refine ⟨scanSamples_isOk.mp ⟨_, hscan⟩, fun hnone => ?_⟩
      obtain ⟨n, -, hfirst, htime⟩ := scanSamples_ok hscan
      rcases hfirst with ⟨rfl, -⟩ | ⟨-, before, time, after, heq, -, htime, -⟩
      · rw [htime rfl] at h
        exact (ih hrest).mp ⟨out, h⟩
      · rw [hnone time (by rw [heq]; exact List.mem_append_right _ List.mem_cons_self)] at htime
        cases htime
    · rintro ⟨hsamples, hmore⟩
      obtain ⟨⟨next, count', found⟩, hscan⟩ := scanSamples_isOk.mpr hsamples
      rw [hscan, ok_bind]
      obtain ⟨n, -, hfirst, htime⟩ := scanSamples_ok hscan
      cases found with
      | true => exact ⟨_, rfl⟩
      | false =>
        rcases hfirst with ⟨-, -, hnone⟩ | ⟨hfound, -⟩
        · rw [htime rfl]
          exact (ih hrest).mpr (hmore hnone)
        · cases hfound

/-- The last sample of a fragment ends when the fragment does. -/
theorem endTime_of_timely {f : Fragment} (h : f.Whole) (htimely : Timely reached f.sampleEnds)
    (hnone : ∀ t ∈ f.sampleEnds, reached t = false) :
    timeAfter f.decodeTime f.samples = f.endTime := by
  have hlength : f.sampleEnds.length = f.samples.length := length_endsFrom _ _
  have hpos : f.samples ≠ [] := by
    obtain ⟨first, rest, heq⟩ := List.exists_cons_of_ne_nil h.runs
    have hfirst := (h.run first (by rw [heq]; exact List.mem_cons_self)).samples
    unfold Fragment.samples
    rw [heq, List.flatMap_cons]
    exact List.append_ne_nil_of_left_ne_nil hfirst _
  obtain ⟨ends, last, hends⟩ := (List.eq_nil_or_concat' f.sampleEnds).resolve_left fun hnil => by
    rw [hnil, List.length_nil] at hlength
    exact hpos (List.length_eq_zero_iff.mp hlength.symm)
  have hlt := htimely ends last [] hends fun t hmem => hnone t (by
    rw [hends]
    exact List.mem_append_left _ hmem)
  have hlast := end_eq_timeAfter hends
  rw [hends, List.length_append, List.length_singleton] at hlength
  rw [List.take_of_length_le hlength.symm.le] at hlast
  unfold Fragment.endTime
  rw [h.duration, ← hlast, Nat.mod_eq_of_lt hlt, hlast]
  rfl

theorem findAudioSplitSampleCount_isOk {f : Fragment} (h : f.Whole)
    (hvideo : r.videoTrack.timescale ≠ 0) :
    (∃ out, r.findAudioSplitSampleCount f videoEnd = .ok out) ↔
      Timely (r.reaches videoEnd f.timescale) f.sampleEnds := by
  have hruns : ∀ run ∈ f.runs, run.samples ≠ [] := fun run hmem => (h.run run hmem).samples
  unfold findAudioSplitSampleCount
  rw [failIf_of_not (not_or.mpr ⟨h.timescale, hvideo⟩), ok_bind]
  constructor
  · rintro ⟨out, hfind⟩
    obtain ⟨found, hscan, -⟩ := bind_eq_ok.mp hfind
    exact (scanRuns_isOk hruns).mp ⟨found, hscan⟩
  · intro htimely
    obtain ⟨⟨time, count, found⟩, hscan⟩ := (scanRuns_isOk hruns).mpr htimely
    obtain ⟨n, -, hfirst, htime⟩ := scanRuns_ok hscan
    unfold reaches at hscan
    simp only
    rw [hscan, ok_bind]
    cases found with
    | true => exact ⟨_, rfl⟩
    | false =>
      rcases hfirst with ⟨-, -, hnone⟩ | ⟨hfound, -⟩
      · have hend : time = f.endTime := (htime rfl).trans (endTime_of_timely h htimely hnone)
        simp only
        rw [if_neg Bool.false_ne_true, failIf_of_not (not_not.mpr hend)]
        exact ⟨_, rfl⟩
      · cases hfound

end Reader

/-! ### The queue -/

/-- What a queue must be like to be cut: the times fit up to the first one reached, and each part of
a run of the fragment that is cut there makes a run. -/
structure CleanTo (reached : ℕ → Bool) (queue : List Fragment) : Prop where
  timely : Timely reached (Reader.queueEnds queue)
  parts : ∀ first f rest before time after, queue = first ++ f :: rest →
    f.sampleEnds = before ++ time :: after →
    (∀ t ∈ Reader.queueEnds first ++ before, reached t = false) → reached time = true → after ≠ [] →
    ∀ part ∈ partsOf f.runs (before.length + 1), MakesRun part

theorem cleanTo_nil : CleanTo reached [] :=
  ⟨timely_nil, fun _ _ _ _ _ _ h =>
    absurd h.symm (List.append_ne_nil_of_right_ne_nil _ (List.cons_ne_nil _ _))⟩

theorem cleanTo_cons {f : Fragment} {rest : List Fragment} : CleanTo reached (f :: rest) ↔
    (Timely reached f.sampleEnds ∧
      ∀ before time after, f.sampleEnds = before ++ time :: after → (∀ t ∈ before, reached t = false) →
        reached time = true → after ≠ [] → ∀ part ∈ partsOf f.runs (before.length + 1), MakesRun part) ∧
      ((∀ t ∈ f.sampleEnds, reached t = false) → CleanTo reached rest) := by
  constructor
  · intro h
    have htimely := h.timely
    unfold Reader.queueEnds at htimely
    rw [List.flatMap_cons, timely_append] at htimely
    refine ⟨⟨htimely.1, fun before time after => ?_⟩, fun hnone => ⟨htimely.2 hnone, ?_⟩⟩
    · exact h.parts [] f rest before time after rfl
    · intro first g rest' before time after hqueue hends hbefore
      apply h.parts (f :: first) g rest' before time after (by rw [hqueue, List.cons_append]) hends
      intro t hmem
      unfold Reader.queueEnds at hmem
      rw [List.flatMap_cons, List.append_assoc] at hmem
      exact (List.mem_append.mp hmem).elim (hnone t) (hbefore t)
  · rintro ⟨⟨htimely, hparts⟩, hrest⟩
    constructor
    · unfold Reader.queueEnds
      rw [List.flatMap_cons, timely_append]
      exact ⟨htimely, fun hnone => (hrest hnone).timely⟩
    · intro first g rest' before time after hqueue hends hbefore
      cases first with
      | nil =>
        obtain ⟨rfl, -⟩ := List.cons.inj hqueue
        exact hparts before time after hends hbefore
      | cons f' first =>
        obtain ⟨rfl, hlater⟩ := List.cons.inj hqueue
        have hnone : ∀ t ∈ f.sampleEnds, reached t = false := fun t hmem =>
          hbefore t (List.mem_append_left _ (List.mem_append_left _ hmem))
        apply (hrest hnone).parts first g rest' before time after hlater hends
        intro t hmem
        apply hbefore t
        unfold Reader.queueEnds
        rw [List.flatMap_cons, List.append_assoc]
        exact List.mem_append_right _ hmem

/-- The queue after a selection: as it was, or cut at the first time that is reached. -/
inductive CutTo (reached : ℕ → Bool) (queue : List Fragment) : List Fragment → ℕ → Prop
  | uncut (hnone : ∀ t ∈ Reader.queueEnds queue, reached t = false) : CutTo reached queue queue 0
  | cut {before time after first f rest audio} (hends : Reader.queueEnds queue = before ++ time :: after)
      (htime : reached time = true) (hbefore : ∀ t ∈ before, reached t = false)
      (hqueue : queue = first ++ f :: rest)
      (htaken : (audio.take (first.length + 1)).flatMap Fragment.samples =
        (queue.flatMap Fragment.samples).take (before.length + 1))
      (hsplit : audio = queue ∨
        ∃ left right, audio = first ++ left :: right :: rest ∧ AreHalves f left right) :
      CutTo reached queue audio (first.length + 1)

theorem CutTo.cons {f : Fragment} {rest audio : List Fragment} (h : CutTo reached rest audio count)
    (hnone : ∀ t ∈ f.sampleEnds, reached t = false) :
    CutTo reached (f :: rest) (f :: audio) (if count = 0 then 0 else count + 1) := by
  cases h with
  | uncut hrest =>
    apply CutTo.uncut
    intro t hmem
    unfold Reader.queueEnds at hmem
    rw [List.flatMap_cons] at hmem
    exact (List.mem_append.mp hmem).elim (hnone t) (hrest t)
  | @cut before time after first g rest' _ hends htime hbefore hqueue htaken hsplit =>
    rw [if_neg (Nat.succ_ne_zero _)]
    have hlength : f.sampleEnds.length = f.samples.length := length_endsFrom _ _
    refine @CutTo.cut _ _ (f.sampleEnds ++ before) time after (f :: first) g rest' _ ?_ htime ?_ ?_ ?_ ?_
    · unfold Reader.queueEnds at hends ⊢
      rw [List.flatMap_cons, hends, List.append_assoc]
    · intro t hmem
      exact (List.mem_append.mp hmem).elim (hnone t) (hbefore t)
    · rw [hqueue, List.cons_append]
    · rw [List.length_cons, List.take_succ_cons, List.flatMap_cons, htaken, List.flatMap_cons,
        List.length_append, hlength, Nat.add_assoc, List.take_length_add_append]
    · rcases hsplit with rfl | ⟨left, right, rfl, hhalves⟩
      · exact Or.inl rfl
      · exact Or.inr ⟨left, right, rfl, hhalves⟩

namespace Reader

variable {r : Reader} {videoEnd : ℕ} {timescale : UInt32}

theorem selectAudioFrom_cuts {queue audio : List Fragment} (hwhole : ∀ f ∈ queue, f.Whole)
    (htimescale : ∀ f ∈ queue, f.timescale = timescale)
    (h : r.selectAudioFrom videoEnd queue = .ok (audio, count)) :
    CutTo (r.reaches videoEnd timescale) queue audio count := by
  induction queue generalizing audio count with
  | nil =>
    unfold selectAudioFrom at h
    cases h
    exact CutTo.uncut fun _ hmem => absurd hmem List.not_mem_nil
  | cons f rest ih =>
    obtain ⟨hf, hrest⟩ := List.forall_mem_cons.mp hwhole
    obtain ⟨hscale, hscales⟩ := List.forall_mem_cons.mp htimescale
    rcases selectAudioFrom_cases h with
      ⟨n, rest', k, hfind, hselect, rfl, rfl⟩ | ⟨n, total, hfind, htotal, -, -, rfl, hcase⟩
    · have hfirst := findAudioSplitSampleCount_ok hfind
      rw [hscale] at hfirst
      rcases hfirst with ⟨-, -, hnone⟩ | ⟨hfound, -⟩
      · exact (ih hrest hscales hselect).cons hnone
      · cases hfound
    · have hfirst := findAudioSplitSampleCount_ok hfind
      rw [hscale] at hfirst
      rcases hfirst with ⟨hfound, -⟩ | ⟨-, before, time, after, hends, rfl, htime, hbefore⟩
      · cases hfound
      · have hlength : f.sampleEnds.length = f.samples.length := length_endsFrom _ _
        have hcount := fragmentSampleCount_ok htotal
        have hqueue : queueEnds (f :: rest) = before ++ time :: (after ++ queueEnds rest) := by
          unfold queueEnds
          rw [List.flatMap_cons, hends, List.append_assoc, List.cons_append]
        refine @CutTo.cut _ _ before time (after ++ queueEnds rest) [] f rest _ hqueue htime hbefore rfl ?_ ?_
        · rcases hcase with ⟨hall, rfl⟩ | ⟨left, right, hlt, hsplit, rfl⟩
          · rw [List.length_nil, List.take_succ_cons, List.take_zero, List.flatMap_singleton,
              List.flatMap_cons, hall, hcount, hlength, List.take_left]
          · have hleft := (hf.laid.isSplitAt hsplit).first.2
            rw [List.length_nil, List.take_succ_cons, List.take_zero, List.flatMap_singleton, hleft,
              List.flatMap_cons, List.take_append_of_le_length (by omega)]
        · rcases hcase with ⟨-, rfl⟩ | ⟨left, right, -, hsplit, rfl⟩
          · exact Or.inl rfl
          · exact Or.inr ⟨left, right, rfl, (hf.laid.isSplitAt hsplit).toAreHalves⟩

theorem selectAudioFrom_isOk {queue : List Fragment} (hwhole : ∀ f ∈ queue, f.Whole)
    (htimescale : ∀ f ∈ queue, f.timescale = timescale) (hvideo : r.videoTrack.timescale ≠ 0) :
    (∃ out, r.selectAudioFrom videoEnd queue = .ok out) ↔
      CleanTo (r.reaches videoEnd timescale) queue := by
  induction queue with
  | nil => exact ⟨fun _ => cleanTo_nil, fun _ => ⟨_, rfl⟩⟩
  | cons f rest ih =>
    obtain ⟨hf, hrest⟩ := List.forall_mem_cons.mp hwhole
    obtain ⟨hscale, hscales⟩ := List.forall_mem_cons.mp htimescale
    have hlength : f.sampleEnds.length = f.sampleCount := length_sampleEnds f
    have hscan := @findAudioSplitSampleCount_isOk r videoEnd f hf hvideo
    rw [hscale] at hscan
    rw [cleanTo_cons, ← hscan]
    constructor
    · rintro ⟨⟨audio, count⟩, h⟩
      rcases selectAudioFrom_cases h with
        ⟨n, rest', k, hfind, hselect, -, -⟩ | ⟨n, total, hfind, htotal, -, -, -, hcase⟩
      · have hfirst := findAudioSplitSampleCount_ok hfind
        rw [hscale] at hfirst
        rcases hfirst with ⟨-, -, hnone⟩ | ⟨hfound, -⟩
        · refine ⟨⟨⟨_, hfind⟩, fun before time after hends _ htime => ?_⟩, fun _ =>
            (ih hrest hscales).mp ⟨_, hselect⟩⟩
          rw [hnone time (by rw [hends]; exact List.mem_append_right _ List.mem_cons_self)] at htime
          cases htime
        · cases hfound
      · have hfirst := findAudioSplitSampleCount_ok hfind
        rw [hscale] at hfirst
        rcases hfirst with ⟨hfound, -⟩ | ⟨-, before, time, after, hends, rfl, htime, hbefore⟩
        · cases hfound
        · refine ⟨⟨⟨_, hfind⟩, fun before' time' after' hends' hbefore' htime' hafter => ?_⟩, fun hnone => ?_⟩
          · obtain ⟨rfl, rfl, rfl⟩ :=
              first_unique (hends.symm.trans hends') hbefore hbefore' htime htime'
            have hcount := fragmentSampleCount_ok htotal
            rw [hends, List.length_append, List.length_cons] at hcount
            rcases hcase with ⟨hall, -⟩ | ⟨left, right, hlt, hsplit, -⟩
            · have hlast := List.length_pos_iff.mpr hafter
              omega
            · rw [hf.laid.sampleCount, Except.ok.injEq] at htotal
              have htime64 := hscan.mp ⟨_, hfind⟩ before time after hends hbefore
              rw [end_eq_timeAfter hends] at htime64
              exact (hf.split_iff (Nat.succ_pos _) (by omega) htime64).mp ⟨left, right, hsplit⟩
          · rw [hnone time (by rw [hends]; exact List.mem_append_right _ List.mem_cons_self)] at htime
            cases htime
    · rintro ⟨⟨⟨⟨n, found⟩, hfind⟩, hparts⟩, hmore⟩
      have hfirst := findAudioSplitSampleCount_ok hfind
      rw [hscale] at hfirst
      unfold selectAudioFrom
      rw [hfind, ok_bind]
      rcases hfirst with ⟨rfl, -, hnone⟩ | ⟨rfl, before, time, after, hends, rfl, htime, hbefore⟩
      · obtain ⟨⟨rest', k⟩, hselect⟩ := (ih hrest hscales).mpr (hmore hnone)
        simp only
        rw [if_pos Bool.false_ne_true, hselect, ok_bind]
        exact ⟨_, rfl⟩
      · rw [hends, List.length_append, List.length_cons] at hlength
        simp only
        rw [if_neg (not_not.mpr trivial), hf.laid.sampleCount, ok_bind,
          failIf_of_not (by omega), ok_bind]
        split
        · next hlt =>
          have hafter : after ≠ [] := by
            rintro rfl
            rw [List.length_nil] at hlength
            omega
          have htime64 := hscan.mp ⟨_, hfind⟩ before time after hends hbefore
          rw [end_eq_timeAfter hends] at htime64
          obtain ⟨left, right, hsplit⟩ := (hf.split_iff (Nat.succ_pos _) hlt htime64).mpr
            (hparts before time after hends hbefore htime hafter)
          rw [hsplit]
          exact ⟨_, rfl⟩
        · exact ⟨_, rfl⟩

end Reader

/-! ### What the parser accepted -/

/-- A fragment that was parsed and given its payload, and what becomes of such a one in a queue: its
last duration is settled by the next one, it is cut in two, or it is moved with the payload. -/
inductive Accepted (video audio : TrackIds) : Fragment → Prop
  | parsed {moof videoHint audioHint pending f start len payloadFromMoof}
      (hparse : parseSourceMoof moof video audio videoHint audioHint = .ok pending)
      (hattach : attachPayload { pending with payloadStart := 0 } start len payloadFromMoof = .ok f) :
      Accepted video audio f
  | settled {f current settled : Fragment} {hint} (hf : Accepted video audio f)
      (hend : f.decodeTime + f.duration < 2 ^ 64) (hcurrent : current.decodeTime < 2 ^ 64)
      (hresolve : Reader.resolveInferredDuration f current = .ok (settled, hint)) :
      Accepted video audio settled
  | left {f left right : Fragment} {n} (hf : Accepted video audio f)
      (hsplit : splitFragmentAtSample f n = .ok (left, right)) : Accepted video audio left
  | right {f left right : Fragment} {n} (hf : Accepted video audio f)
      (hsplit : splitFragmentAtSample f n = .ok (left, right)) : Accepted video audio right
  | moved {f : Fragment} (hf : Accepted video audio f) (start : ℕ) :
      Accepted video audio (Reader.rebase start f)

variable {video audio : TrackIds} {f : Fragment}

theorem Accepted.whole (h : Accepted video audio f) : f.Whole := by
  induction h with
  | parsed hparse hattach =>
    obtain ⟨h₁, h₂, h₃, h₄, h₅, h₆, h₇, h₈⟩ := summed_of_parseSourceMoof hparse
    exact whole_of_attachPayload ⟨h₁, h₂, h₃, h₄, h₅, h₆, h₇, h₈⟩ hattach
  | settled _ hend hcurrent hresolve ih => exact ih.resolve hend hcurrent hresolve
  | left _ hsplit ih => exact (ih.halves hsplit).1
  | right _ hsplit ih => exact (ih.halves hsplit).2
  | moved _ start ih => exact ih.rebase start

/-- The audio fragments count in the units of the audio track. -/
theorem Accepted.timescale (h : Accepted video audio f) (hid : f.trackId ≠ video.id) :
    f.timescale = audio.timescale := by
  induction h with
  | parsed hparse hattach =>
    obtain ⟨-, -, -, runs, rfl⟩ := attachPayload_ok hattach
    rcases (parseSourceMoof_ok hparse).track with ⟨heq, -⟩ | ⟨-, -, -, heq⟩
    · exact absurd heq hid
    · exact heq
  | settled _ _ _ hresolve ih =>
    obtain ⟨-, -, ⟨runs, duration, rfl⟩, -⟩ := resolveInferredDuration_ok hresolve
    exact ih hid
  | @left f left right n hf hsplit ih =>
    obtain ⟨htrack, htimescale, -, -⟩ := (hf.whole.laid.isSplitAt hsplit).track left List.mem_cons_self
    rw [htimescale]
    exact ih (htrack ▸ hid)
  | @right f left right n hf hsplit ih =>
    obtain ⟨htrack, htimescale, -, -⟩ :=
      (hf.whole.laid.isSplitAt hsplit).track right (List.mem_cons_of_mem _ List.mem_cons_self)
    rw [htimescale]
    exact ih (htrack ▸ hid)
  | @moved f hf start ih =>
    have hsame : (Reader.rebase start f).trackId = f.trackId ∧
        (Reader.rebase start f).timescale = f.timescale := by
      unfold Reader.rebase
      split
      · exact ⟨rfl, rfl⟩
      · exact ⟨rfl, rfl⟩
    rw [hsame.2]
    exact ih (hsame.1 ▸ hid)

theorem timescale_of_parseInitTracks {init : List UInt8}
    (h : parseInitTracks init = .ok (video, audio)) : video.timescale ≠ 0 := by
  unfold parseInitTracks at h
  obtain ⟨moov, -, h⟩ := bind_eq_ok.mp h
  obtain ⟨tracks, -, h⟩ := bind_eq_ok.mp h
  obtain ⟨u, hvideo, h⟩ := bind_eq_ok.mp h
  rw [failIf_eq_ok, not_or] at hvideo
  simp only at h
  split at h
  · cases h
    exact hvideo.2
  · obtain ⟨u, -, h⟩ := bind_eq_ok.mp h
    cases h
    exact hvideo.2

namespace Reader

/-- A reader whose tracks are those of its init segment, with accepted fragments of audio. -/
structure AudioQueued (r : Reader) : Prop where
  tracks : ∃ init, parseInitTracks init = .ok (r.videoTrack, r.audioTrack)
  accepted : ∀ f ∈ r.audio, Accepted r.videoTrack r.audioTrack f
  track : ∀ f ∈ r.audio, f.trackId ≠ r.videoTrack.id

/-- The video ends at this time of the audio or before it, each in the units of its track. -/
def VideoOver (r : Reader) (videoEnd time : ℕ) : Prop :=
  (videoEnd : ℚ) / (r.videoTrack.timescale.toNat : ℚ) ≤ (time : ℚ) / (r.audioTrack.timescale.toNat : ℚ)

/-- The first fragments of the queue hold the samples up to the first that ends when the video is
over; the last of them may be the left half of a fragment of the queue before. -/
def CutAt (r : Reader) (videoEnd : ℕ) (audio : List Fragment) (count : ℕ) : Prop :=
  ∃ before time after first f rest, queueEnds r.audio = before ++ time :: after ∧
    r.VideoOver videoEnd time ∧ (∀ t ∈ before, ¬r.VideoOver videoEnd t) ∧
    r.audio = first ++ f :: rest ∧ count = first.length + 1 ∧
    (audio.take count).flatMap Fragment.samples =
      (r.audio.flatMap Fragment.samples).take (before.length + 1) ∧
    (audio = r.audio ∨ ∃ left right, audio = first ++ left :: right :: rest ∧ AreHalves f left right)

/-- The selection answers, and cuts just there. -/
def CutsExactly (r : Reader) (videoEnd : ℕ) : Prop :=
  ∃ audio count, r.selectAudioCount videoEnd = .ok ({ r with audio }, count) ∧
    ((∃ t ∈ queueEnds r.audio, r.VideoOver videoEnd t) → r.CutAt videoEnd audio count) ∧
    ((∀ t ∈ queueEnds r.audio, ¬r.VideoOver videoEnd t) → count = 0 ∧ audio = r.audio)

/-- The samples end within 64 bits up to the one that is cut after; and where that is not the last of
its fragment, the samples of each run before the cut, and after it, last and take up bytes. -/
structure Cuttable (r : Reader) (videoEnd : ℕ) : Prop where
  timely : ∀ before time after, queueEnds r.audio = before ++ time :: after →
    (∀ t ∈ before, ¬r.VideoOver videoEnd t) → time < 2 ^ 64
  parts : ∀ first f rest before time after, r.audio = first ++ f :: rest →
    f.sampleEnds = before ++ time :: after → (∀ t ∈ queueEnds first ++ before, ¬r.VideoOver videoEnd t) →
    r.VideoOver videoEnd time → after ≠ [] → ∀ part ∈ partsOf f.runs (before.length + 1), MakesRun part

variable {r : Reader} {videoEnd : ℕ}

theorem reaches_iff (hvideo : r.videoTrack.timescale ≠ 0) (haudio : r.audioTrack.timescale ≠ 0) (time : ℕ) :
    r.reaches videoEnd r.audioTrack.timescale time = true ↔ r.VideoOver videoEnd time := by
  have hpos : ∀ {n : UInt32}, n ≠ 0 → (0 : ℚ) < (n.toNat : ℚ) := by
    intro n hn
    rw [Nat.cast_pos, Nat.pos_iff_ne_zero]
    exact fun hzero => hn (UInt32.toNat_inj.mp hzero)
  unfold reaches scaledGreaterOrEqual VideoOver
  rw [div_le_div_iff₀ (hpos hvideo) (hpos haudio), decide_eq_true_eq, ge_iff_le, ← Nat.cast_mul,
    ← Nat.cast_mul, Nat.cast_le]

theorem forall_not_over {times : List ℕ} (h : ∀ t, r.reaches videoEnd r.audioTrack.timescale t = true ↔
    r.VideoOver videoEnd t) : (∀ t ∈ times, r.reaches videoEnd r.audioTrack.timescale t = false) ↔
      ∀ t ∈ times, ¬r.VideoOver videoEnd t := by
  apply forall₂_congr
  intro t _
  rw [← h, Bool.not_eq_true]

theorem AudioQueued.reaches_iff (h : r.AudioQueued) (hne : r.audio ≠ []) (time : ℕ) :
    r.reaches videoEnd r.audioTrack.timescale time = true ↔ r.VideoOver videoEnd time := by
  obtain ⟨init, hinit⟩ := h.tracks
  obtain ⟨f, rest, heq⟩ := List.exists_cons_of_ne_nil hne
  have hmem : f ∈ r.audio := by
    rw [heq]
    exact List.mem_cons_self
  have haudio := (h.accepted f hmem).whole.timescale
  rw [(h.accepted f hmem).timescale (h.track f hmem)] at haudio
  exact Reader.reaches_iff (timescale_of_parseInitTracks hinit) haudio time

theorem cuttable_iff (h : r.AudioQueued) :
    r.Cuttable videoEnd ↔ CleanTo (r.reaches videoEnd r.audioTrack.timescale) r.audio := by
  by_cases hne : r.audio = []
  · rw [hne]
    refine iff_of_true ⟨?_, ?_⟩ cleanTo_nil
    · intro before time after hends
      rw [hne] at hends
      exact absurd hends.symm (List.append_ne_nil_of_right_ne_nil _ (List.cons_ne_nil _ _))
    · intro first f rest before time after hqueue
      rw [hne] at hqueue
      exact absurd hqueue.symm (List.append_ne_nil_of_right_ne_nil _ (List.cons_ne_nil _ _))
  · have hnone : ∀ times : List ℕ, (∀ t ∈ times, r.reaches videoEnd r.audioTrack.timescale t = false) ↔
        ∀ t ∈ times, ¬r.VideoOver videoEnd t := fun times => forall_not_over (h.reaches_iff hne)
    constructor
    · intro hcut
      constructor
      · intro before time after hends hbefore
        exact hcut.timely before time after hends ((hnone before).mp hbefore)
      · intro first f rest before time after hqueue hends hbefore htime
        exact hcut.parts first f rest before time after hqueue hends ((hnone _).mp hbefore)
          ((h.reaches_iff hne time).mp htime)
    · intro hclean
      constructor
      · intro before time after hends hbefore
        exact hclean.timely before time after hends ((hnone before).mpr hbefore)
      · intro first f rest before time after hqueue hends hbefore htime
        exact hclean.parts first f rest before time after hqueue hends ((hnone _).mpr hbefore)
          ((h.reaches_iff hne time).mpr htime)

/-- The audio is cut at the first sample that ends when the video is over, just where the times fit
and no part of a run at the cut is void. -/
theorem cuts_exactly_iff (h : r.AudioQueued) (videoEnd : ℕ) :
    r.CutsExactly videoEnd ↔ r.Cuttable videoEnd := by
  obtain ⟨init, hinit⟩ := h.tracks
  have hvideo := timescale_of_parseInitTracks hinit
  have hwhole : ∀ f ∈ r.audio, f.Whole := fun f hf => (h.accepted f hf).whole
  have htimescale : ∀ f ∈ r.audio, f.timescale = r.audioTrack.timescale := fun f hf =>
    (h.accepted f hf).timescale (h.track f hf)
  have hok := @selectAudioFrom_isOk r videoEnd _ _ hwhole htimescale hvideo
  rw [cuttable_iff h, ← hok]
  unfold CutsExactly selectAudioCount
  constructor
  · rintro ⟨audio, count, hselect, -⟩
    obtain ⟨out, hout, -⟩ := bind_eq_ok.mp hselect
    exact ⟨out, hout⟩
  · rintro ⟨⟨audio, count⟩, hselect⟩
    refine ⟨audio, count, by rw [hselect]; rfl, ?_⟩
    cases selectAudioFrom_cuts hwhole htimescale hselect with
    | uncut hnone =>
      refine ⟨?_, fun _ => ⟨rfl, rfl⟩⟩
      rintro ⟨t, hmem, hover⟩
      have hne : r.audio ≠ [] := by
        intro hnil
        rw [hnil] at hmem
        exact absurd hmem List.not_mem_nil
      rw [← h.reaches_iff hne, hnone t hmem] at hover
      cases hover
    | @cut before time after first f rest _ hends htime hbefore hqueue htaken hsplit =>
      have hne : r.audio ≠ [] := by
        rw [hqueue]
        exact List.append_ne_nil_of_right_ne_nil _ (List.cons_ne_nil _ _)
      rw [h.reaches_iff hne] at htime
      rw [forall_not_over (h.reaches_iff hne)] at hbefore
      refine ⟨fun _ => ⟨before, time, after, first, f, rest, hends, htime, hbefore, hqueue, rfl, htaken,
        hsplit⟩, fun hnone => ?_⟩
      have hmem : time ∈ queueEnds r.audio := by
        rw [hends]
        exact List.mem_append_right _ List.mem_cons_self
      exact absurd htime (hnone time hmem)

/-- Two seconds of audio, cut after the first. -/
theorem cuts_exactly_iff_second :
    ∃ r : Reader, r.audio.map Fragment.samples = [[second, second]] ∧
      (r.CutsExactly 1000 ↔ r.Cuttable 1000) := by
  have hrun : (do
      let tracks ← (parseInitTracks bothInit).mapError other
      let moof := (mediaOf 2 0 [second, second] [8, 9]).take 96
      let pending ← (parseSourceMoof moof tracks.1 tracks.2 0 0).mapError other
      let f ← attachPayload { pending with payloadStart := 0 } 0 2 104
      .ok (decide (f.trackId ≠ tracks.1.id), f.samples)) =
      (.ok (true, [second, second]) : Except ReaderError (Bool × List Sample)) := by
    decide +kernel
  obtain ⟨⟨video, audio⟩, htracks, hrun⟩ := bind_eq_ok.mp hrun
  obtain ⟨pending, hpending, hrun⟩ := bind_eq_ok.mp hrun
  obtain ⟨f, hf, hrun⟩ := bind_eq_ok.mp hrun
  obtain ⟨hid, hsamples⟩ := Prod.mk.inj (Except.ok.inj hrun)
  rw [mapError_eq_ok] at htracks hpending
  refine ⟨{ new (.finite 1) 0 false with videoTrack := video, audioTrack := audio, audio := [f] }, ?_, ?_⟩
  · exact congrArg (fun samples => [samples]) hsamples
  · apply cuts_exactly_iff
    constructor
    · exact ⟨bothInit, htracks⟩
    · exact List.forall_mem_singleton.mpr (Accepted.parsed hpending hf)
    · exact List.forall_mem_singleton.mpr (of_decide_eq_true hid)

end Reader

end Rustorr.Mp4
