import Rustorr.Gst.Mp4.AudioCut

/-! The media that passes through a reader: what its source brings is what its segments hold and what
is still queued, each sample with its bytes, in order. -/

namespace Rustorr.Mp4

open BigEndian Except

/-- A sample as it is written, with its bytes. -/
abbrev Media := (UInt8 × Bool × Sample) × List UInt8

/-- The samples of a run as they are written, and whether their durations were left out. -/
def Run.marked (run : Run) : List (Bool × UInt8 × Bool × Sample) :=
  run.written.map fun s => (run.hasInferredDuration, s)

def Fragment.marked (f : Fragment) : List (Bool × UInt8 × Bool × Sample) := f.runs.flatMap Run.marked

/-- Marked samples with their bytes, one after the other. -/
def withMarks (payload : List UInt8) (start : ℕ) (samples : List (Bool × UInt8 × Bool × Sample)) :
    List (Bool × Media) :=
  (samples.map Prod.fst).zip (withBytes payload start (samples.map Prod.snd))

/-- What the source says with a fragment whose `mdat` has this payload. -/
def Fragment.arrivals (payload : List UInt8) (f : Fragment) : List (Bool × Media) :=
  withMarks payload 0 f.marked

/-- The same sample, but for a duration that was left out. -/
def Settles (before after : Bool × UInt8 × Bool × Sample) : Prop :=
  (after.1 = true → before.1 = true) ∧
    (∃ duration, after.2 = (before.2.1, before.2.2.1, { before.2.2.2 with duration })) ∧
    (before.1 = false → after.2 = before.2)

/-- So it is with its bytes. -/
def Becomes (before after : Bool × Media) : Prop :=
  Settles (before.1, before.2.1) (after.1, after.2.1) ∧ after.2.2 = before.2.2

/-- A sample that arrived, as it is in a segment. -/
def Carries (arrived : Bool × Media) (m : Media) : Prop := Becomes arrived (false, m)

/-- The samples of a queue with their bytes. -/
def held (source : List UInt8) (queue : List Fragment) : List (Bool × Media) :=
  queue.flatMap fun f => f.arrivals (f.payload source)

/-- What a queue held and what arrived is what left it and what it holds now. -/
def Passed (source : List UInt8) (queue : List Fragment) (arrived : List (Bool × Media))
    (left : List Media) (source' : List UInt8) (queue' : List Fragment) : Prop :=
  List.Forall₂ Becomes (held source queue ++ arrived) (left.map (fun m => (false, m)) ++ held source' queue')

/-! ### Samples that become others -/

section Samples

variable {a b c : Bool × UInt8 × Bool × Sample} {x y z : Bool × Media}

theorem Settles.refl (a : Bool × UInt8 × Bool × Sample) : Settles a a :=
  ⟨fun h => h, ⟨a.2.2.2.duration, rfl⟩, fun _ => rfl⟩

theorem Settles.trans (h : Settles a b) (h' : Settles b c) : Settles a c := by
  obtain ⟨hmark, ⟨duration, heq⟩, hsame⟩ := h
  obtain ⟨hmark', ⟨duration', heq'⟩, hsame'⟩ := h'
  refine ⟨fun hc => hmark (hmark' hc), ⟨duration', ?_⟩, fun hfalse => ?_⟩
  · rw [heq', heq]
  · have hb : b.1 = false := by
      rw [Bool.eq_false_iff]
      exact fun htrue => Bool.false_ne_true (hfalse.symm.trans (hmark htrue))
    rw [hsame' hb, hsame hfalse]

/-- A mark that is taken off changes nothing else. -/
theorem Settles.unmark (mark : Bool) (s : UInt8 × Bool × Sample) : Settles (mark, s) (false, s) :=
  ⟨fun h => absurd h Bool.false_ne_true, ⟨s.2.2.duration, rfl⟩, fun _ => rfl⟩

theorem Settles.size (h : Settles a b) : b.2.2.2.size = a.2.2.2.size := by
  obtain ⟨-, ⟨duration, heq⟩, -⟩ := h
  rw [heq]

theorem Becomes.refl (x : Bool × Media) : Becomes x x := ⟨Settles.refl _, rfl⟩

theorem Becomes.trans (h : Becomes x y) (h' : Becomes y z) : Becomes x z :=
  ⟨h.1.trans h'.1, h'.2.trans h.2⟩

theorem Becomes.carries (h : Becomes x y) : Carries x y.2 :=
  ⟨h.1.trans (Settles.unmark y.1 y.2.1), h.2⟩

end Samples

theorem forall₂_becomes_refl (l : List (Bool × Media)) : List.Forall₂ Becomes l l :=
  List.forall₂_same.mpr fun x _ => Becomes.refl x

theorem forall₂_becomes_trans {l₁ l₂ l₃ : List (Bool × Media)} (h : List.Forall₂ Becomes l₁ l₂)
    (h' : List.Forall₂ Becomes l₂ l₃) : List.Forall₂ Becomes l₁ l₃ := by
  induction h generalizing l₃ with
  | nil => exact h'
  | cons hhead _ ih =>
    cases h' with
    | cons hhead' htail' => exact .cons (hhead.trans hhead') (ih htail')

/-! ### Samples and bytes -/

theorem withMarks_cons (payload : List UInt8) (start : ℕ) (s : Bool × UInt8 × Bool × Sample)
    (samples : List (Bool × UInt8 × Bool × Sample)) :
    withMarks payload start (s :: samples) =
      (s.1, s.2, (payload.drop start).take s.2.2.2.size.toNat) ::
        withMarks payload (start + s.2.2.2.size.toNat) samples := rfl

/-- Samples that settle keep their bytes. -/
theorem forall₂_withMarks {before after : List (Bool × UInt8 × Bool × Sample)}
    (h : List.Forall₂ Settles before after) (payload : List UInt8) (start : ℕ) :
    List.Forall₂ Becomes (withMarks payload start before) (withMarks payload start after) := by
  induction h generalizing start with
  | nil => exact .nil
  | cons hhead _ ih =>
    rw [withMarks_cons, withMarks_cons, hhead.size]
    exact .cons ⟨hhead, rfl⟩ (ih _)

theorem withMarks_append (payload : List UInt8) (start : ℕ) (a b : List (Bool × UInt8 × Bool × Sample)) :
    withMarks payload start (a ++ b) = withMarks payload start a ++
      withMarks payload (start + bytesOf (a.map fun s => s.2.2.2)) b := by
  induction a generalizing start with
  | nil => rfl
  | cons s a ih =>
    rw [List.cons_append, withMarks_cons, withMarks_cons, ih, List.cons_append, List.map_cons, bytesOf_cons,
      Nat.add_assoc]

theorem map_withMarks (payload : List UInt8) (start : ℕ) (samples : List (Bool × UInt8 × Bool × Sample)) :
    (withMarks payload start samples).map Prod.snd = withBytes payload start (samples.map Prod.snd) := by
  induction samples generalizing start with
  | nil => rfl
  | cons s samples ih => rw [withMarks_cons, List.map_cons, ih, List.map_cons, withBytes]

theorem map_marked (f : Fragment) : f.marked.map Prod.snd = f.written := by
  unfold Fragment.marked Fragment.written
  rw [List.map_flatMap]
  congr 1
  funext run
  unfold Run.marked
  rw [List.map_map]
  exact List.map_id _

theorem map_marked_samples (f : Fragment) : f.marked.map (fun s => s.2.2.2) = f.samples := by
  rw [← map_written_samples, ← map_marked, List.map_map]
  rfl

/-- Bytes that lie inside a part of a source are read from the part. -/
theorem withBytes_part (source : List UInt8) (start len : ℕ) {n : ℕ} {samples : List (UInt8 × Bool × Sample)}
    (h : n + bytesOf (samples.map fun s => s.2.2) ≤ len) :
    withBytes ((source.drop start).take len) n samples = withBytes source (start + n) samples := by
  induction samples generalizing n with
  | nil => rfl
  | cons s samples ih =>
    rw [List.map_cons, bytesOf_cons, ← Nat.add_assoc] at h
    have hle := (Nat.le_add_right _ _).trans h
    have hbytes : (((source.drop start).take len).drop n).take s.2.2.size.toNat =
        (source.drop (start + n)).take s.2.2.size.toNat := by
      rw [List.drop_take, List.drop_drop, List.take_take, Nat.min_eq_left (by omega)]
    rw [withBytes, withBytes, hbytes, ih h, Nat.add_assoc]

theorem Fragment.Laid.media_payload {f : Fragment} (h : f.Laid) (source : List UInt8) :
    (f.arrivals (f.payload source)).map Prod.snd = f.media source := by
  unfold Fragment.arrivals Fragment.payload
  rw [map_withMarks, map_marked, h.media_eq]
  rw [withBytes_part, Nat.add_zero]
  rw [Nat.zero_add, map_written_samples, h.payloadLen]

theorem map_held {queue : List Fragment} (h : ∀ f ∈ queue, f.Laid) (source : List UInt8) :
    (held source queue).map Prod.snd = queue.flatMap (Fragment.media source) := by
  unfold held
  rw [List.map_flatMap]
  induction queue with
  | nil => rfl
  | cons f rest ih =>
    obtain ⟨hf, hrest⟩ := List.forall_mem_cons.mp h
    rw [List.flatMap_cons, List.flatMap_cons, hf.media_payload, ih hrest]

/-! ### Queues -/

variable {source more : List UInt8} {queue queue' : List Fragment}

theorem held_append (source : List UInt8) (queue more : List Fragment) :
    held source (queue ++ more) = held source queue ++ held source more :=
  List.flatMap_append

/-- Media that is the same, with no marks left on it. -/
theorem forall₂_unmarked {a b : List (Bool × Media)} (h : b.map Prod.snd = a.map Prod.snd)
    (hb : ∀ x ∈ b, x.1 = false) : List.Forall₂ Becomes a b := by
  induction a generalizing b with
  | nil =>
    rw [List.map_nil, List.map_eq_nil_iff] at h
    rw [h]
    exact .nil
  | cons x a ih =>
    obtain ⟨y, b', rfl, hhead, htail⟩ := List.map_eq_cons_iff.mp h
    obtain ⟨hy, hrest⟩ := List.forall_mem_cons.mp hb
    refine .cons ⟨⟨fun htrue => ?_, ⟨x.2.1.2.2.duration, ?_⟩, fun _ => ?_⟩, ?_⟩ (ih htail hrest)
    · exact absurd (hy.symm.trans htrue) Bool.false_ne_true
    · exact congrArg Prod.fst hhead
    · exact congrArg Prod.fst hhead
    · exact congrArg Prod.snd hhead

theorem unmarked_of_explicit {f : Fragment} (h : ∀ run ∈ f.runs, run.hasInferredDuration = false)
    (payload : List UInt8) : ∀ x ∈ f.arrivals payload, x.1 = false := by
  intro x hmem
  have hmark : x.1 ∈ f.marked.map Prod.fst := (List.of_mem_zip hmem).1
  obtain ⟨s, hs, heq⟩ := List.mem_map.mp hmark
  obtain ⟨run, hrun, hmarked⟩ := List.mem_flatMap.mp hs
  obtain ⟨written, -, rfl⟩ := List.mem_map.mp hmarked
  rw [← heq]
  exact h run hrun

/-- What was queued stays as it is while more payload is stored. -/
theorem held_grows (h : ∀ f ∈ queue, f.payloadStart + f.payloadLen ≤ source.length) :
    held (source ++ more) queue = held source queue := by
  unfold held
  apply List.flatMap_congr
  intro f hf
  have hfits := h f hf
  unfold Fragment.payload
  rw [List.drop_append_of_le_length (by omega), List.take_append_of_le_length]
  rw [List.length_drop]
  omega

/-- So it does while the payload before it is dropped. -/
theorem held_rebase {start : ℕ} (hstart : ∀ f ∈ queue, start ≤ f.payloadStart)
    (hlen : ∀ f ∈ queue, 0 < f.payloadLen) :
    held (source.drop start) (queue.map (Reader.rebase start)) = held source queue := by
  unfold held
  rw [List.flatMap_map]
  apply List.flatMap_congr
  intro f hf
  have hle := hstart f hf
  have hmarked : (Reader.rebase start f).marked = f.marked := by
    unfold Reader.rebase
    split <;> rfl
  have hpayload : (Reader.rebase start f).payload (source.drop start) = f.payload source := by
    unfold Reader.rebase
    rw [if_pos (hlen f hf)]
    unfold Fragment.payload
    rw [List.drop_drop, Nat.add_sub_cancel' hle]
  unfold Fragment.arrivals
  rw [hmarked, hpayload]

/-- A fragment that is cut in two holds the same media. -/
theorem held_split {f left right : Fragment} {n : ℕ} (h : f.Laid)
    (hsplit : splitFragmentAtSample f n = .ok (left, right)) (source : List UInt8) :
    List.Forall₂ Becomes (held source [f]) (held source [left, right]) := by
  have hparts := h.isSplitAt hsplit
  have hlaid : ∀ half ∈ [left, right], half.Laid := by
    intro half hmem
    rcases List.mem_pair.mp hmem with rfl | rfl
    · exact hparts.first.1
    · exact hparts.last.1
  apply forall₂_unmarked
  · rw [map_held hlaid, map_held (List.forall_mem_singleton.mpr h), List.flatMap_singleton, List.flatMap_cons,
      List.flatMap_singleton]
    exact hparts.media source
  · intro x hmem
    obtain ⟨half, hhalf, hx⟩ := List.mem_flatMap.mp hmem
    exact unmarked_of_explicit (hparts.explicit half hhalf) _ x hx

theorem marked_eq (run : Run) : run.marked =
    run.samples.map fun s => (run.hasInferredDuration, run.version, run.hasCompositionTimeOffsets, s) := by
  unfold Run.marked Run.written
  rw [List.map_map]
  rfl

theorem settles_unmarked (runs : List Run) : List.Forall₂ Settles (runs.flatMap Run.marked)
    ((runs.map fun run => { run with hasInferredDuration := false }).flatMap Run.marked) := by
  induction runs with
  | nil => exact .nil
  | cons run rest ih =>
    rw [List.map_cons, List.flatMap_cons, List.flatMap_cons]
    refine List.rel_append ?_ ih
    rw [marked_eq, marked_eq, List.forall₂_map_left_iff, List.forall₂_map_right_iff, List.forall₂_same]
    exact fun s _ => Settles.unmark _ _

theorem settles_settle {run : Run} (hrun : run.Whole) (hmarked : run.hasInferredDuration = true)
    (exact : UInt32) : List.Forall₂ Settles run.marked (run.settle exact).marked := by
  obtain ⟨samples, last, hlast⟩ := (List.eq_nil_or_concat' run.samples).resolve_left hrun.samples
  obtain ⟨hsamples, -⟩ := settle_samples exact hlast
  rw [marked_eq, marked_eq, hsamples, hlast, List.map_append, List.map_append]
  apply List.rel_append
  · rw [List.forall₂_map_left_iff, List.forall₂_map_right_iff, List.forall₂_same]
    exact fun s _ => Settles.unmark _ _
  · refine .cons ⟨fun h => absurd h Bool.false_ne_true, ⟨exact, rfl⟩, fun hfalse => ?_⟩ .nil
    exact absurd (hmarked.symm.trans hfalse) (Ne.symm Bool.false_ne_true)

/-- A fragment whose last duration is settled changes in nothing else. -/
theorem settles_resolve {previous current settled : Fragment} {hint : UInt32} (hlaid : previous.Laid)
    (h : Reader.resolveInferredDuration previous current = .ok (settled, hint)) :
    List.Forall₂ Settles previous.marked settled.marked := by
  obtain ⟨before, run, after, exact, hruns, hmarked, -, -, -, -, -, rfl⟩ := resolve_cases h
  have hrun : run.Whole := by
    apply hlaid.run
    rw [hruns]
    exact List.mem_append_right _ List.mem_cons_self
  unfold Fragment.marked
  rw [hruns, List.flatMap_append, List.flatMap_append, List.flatMap_cons, List.flatMap_cons]
  apply List.rel_append (settles_unmarked before)
  exact List.rel_append (settles_settle hrun hmarked _) (settles_unmarked after)

theorem held_settled {previous current settled : Fragment} {hint : UInt32} (hlaid : previous.Laid)
    (h : Reader.resolveInferredDuration previous current = .ok (settled, hint)) (source : List UInt8) :
    List.Forall₂ Becomes (held source [previous]) (held source [settled]) := by
  have hsettles := settles_resolve hlaid h
  obtain ⟨-, -, ⟨runs, duration, rfl⟩, -⟩ := resolveInferredDuration_ok h
  unfold held
  rw [List.flatMap_singleton, List.flatMap_singleton]
  exact forall₂_withMarks hsettles _ 0

/-! ### What passes -/

namespace Passed

variable {source' source'' : List UInt8} {queue'' : List Fragment} {arrived arrived' : List (Bool × Media)}
  {left left' : List Media}

theorem of_held (h : List.Forall₂ Becomes (held source queue) (held source' queue')) :
    Passed source queue [] [] source' queue' := by
  unfold Passed
  rw [List.append_nil]
  exact h

theorem of_eq (h : held source' queue' = held source queue) : Passed source queue [] [] source' queue' := by
  apply of_held
  rw [h]
  exact forall₂_becomes_refl _

theorem trans (h : Passed source queue arrived left source' queue')
    (h' : Passed source' queue' arrived' left' source'' queue'') :
    Passed source queue (arrived ++ arrived') (left ++ left') source'' queue'' := by
  unfold Passed at h h' ⊢
  have hfirst : List.Forall₂ Becomes ((held source queue ++ arrived) ++ arrived')
      ((left.map (fun m => (false, m)) ++ held source' queue') ++ arrived') :=
    List.rel_append h (forall₂_becomes_refl arrived')
  have hsecond : List.Forall₂ Becomes (left.map (fun m => (false, m)) ++ (held source' queue' ++ arrived'))
      (left.map (fun m => (false, m)) ++ (left'.map (fun m => (false, m)) ++ held source'' queue'')) :=
    List.rel_append (forall₂_becomes_refl _) h'
  rw [List.append_assoc, List.append_assoc] at hfirst
  rw [List.map_append, List.append_assoc]
  exact forall₂_becomes_trans hfirst hsecond

theorem refl (source : List UInt8) (queue : List Fragment) : Passed source queue [] [] source queue :=
  of_eq rfl

/-- The first fragments of a queue leave it with their media. -/
theorem take (hlaid : ∀ f ∈ queue, f.Laid) (source : List UInt8) (count : ℕ) :
    Passed source queue [] ((queue.take count).flatMap (Fragment.media source)) source (queue.drop count) := by
  have htaken : List.Forall₂ Becomes (held source (queue.take count))
      (((queue.take count).flatMap (Fragment.media source)).map fun m => (false, m)) := by
    apply forall₂_unmarked
    · rw [map_held fun f hf => hlaid f (List.mem_of_mem_take hf), List.map_map]
      exact List.map_id _
    · intro x hmem
      obtain ⟨m, -, rfl⟩ := List.mem_map.mp hmem
      rfl
  unfold Passed
  rw [List.append_nil]
  have hqueue := held_append source (queue.take count) (queue.drop count)
  rw [List.take_append_drop] at hqueue
  rw [hqueue]
  exact List.rel_append htaken (forall₂_becomes_refl _)

/-- A fragment that is queued brings what its `mdat` held. -/
theorem queued (source : List UInt8) (queue : List Fragment) (f : Fragment) :
    Passed source queue (f.arrivals (f.payload source)) [] source (queue ++ [f]) := by
  have hqueue : held source (queue ++ [f]) = held source queue ++ f.arrivals (f.payload source) := by
    rw [held_append]
    exact congrArg (fun l => held source queue ++ l) (List.flatMap_singleton _ f)
  unfold Passed
  rw [hqueue]
  exact forall₂_becomes_refl _

end Passed

end Rustorr.Mp4
