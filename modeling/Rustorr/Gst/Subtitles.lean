import Rustorr.Gst.Playlist
import Rustorr.Lib.Signed
import Rustorr.Lib.Utf8
import Rustorr.Lib.Utf8Slice

/-! Subtitles (`subtitles.rs`): the clocks of the cues that the encoder writes, the cues kept of them
and the file of a segment (`service.rs`). What the cue pattern captures is given; what overflows is a
fault. -/

namespace Rustorr.Gst

open Checked Except
open I64 (padded)
open Text (parseU64 splitOnce)

namespace Subtitles

structure Clock where
  hours : ℕ
  minutes : ℕ
  seconds : ℕ
  milliseconds : ℕ
  deriving DecidableEq

def Clock.ns (c : Clock) : ℕ :=
  (c.hours * 3600 + c.minutes * 60 + c.seconds) * 1000000000 + c.milliseconds * 1000000

/-- `replacen(',', ".", 1)`. -/
def pointed (value : List Char) : List Char :=
  match splitOnce ',' value with
  | some (before, behind) => before ++ '.' :: behind
  | none => value

/-- Three characters, filled up with zeros to three bytes. -/
def thousandths (text : List Char) : List Char :=
  let text := text.take 3
  text ++ List.replicate (3 - Utf8Slice.size text) '0'

def secondsOf (text : List Char) : Option (ℕ × ℕ) := do
  let parts ← splitOnce '.' text
  if '.' ∈ parts.2 then none
  else
    let seconds ← parseU64 parts.1
    if 59 < (seconds : ℕ) then none
    else
      let milliseconds ← parseU64 (thousandths parts.2)
      some (seconds, milliseconds)

/-- The numbers of a clock. -/
def fieldsOf (value : List Char) : Option Clock :=
  match (Utf8.trim (pointed value)).splitOn ':' with
  | [hours, minutes, seconds] => do
    let hours ← parseU64 hours
    let minutes ← parseU64 minutes
    if 59 < (minutes : ℕ) then none
    else
      let seconds ← secondsOf seconds
      some ⟨hours, minutes, seconds.1, seconds.2⟩
  | _ => none

def Clock.toNs (c : Clock) : Except Fault ℕ := do
  let hours ← mul c.hours 3600
  let minutes ← mul c.minutes 60
  let sum ← add hours minutes
  let sum ← add sum c.seconds
  let ns ← mul sum 1000000000
  let fraction ← mul c.milliseconds 1000000
  add ns fraction

def parseClock (value : List Char) : Except Fault (Option ℕ) :=
  match fieldsOf value with
  | none => .ok none
  | some c => c.toNs.map some

def formatClock (valueNs : ℕ) : List Char :=
  let totalMs := valueNs / 1000000
  let totalSeconds := totalMs / 1000
  padded 2 (totalSeconds / 3600 : ℕ) ++ ':' :: (padded 2 (totalSeconds / 60 % 60 : ℕ) ++
    ':' :: (padded 2 (totalSeconds % 60 : ℕ) ++ '.' :: padded 3 (totalMs % 1000 : ℕ)))

/-! ### The cues of a track -/

/-- What the pattern captures of one cue. -/
structure Capture where
  start : List Char
  end_ : List Char
  text : List Char

structure Cue where
  startNs : ℕ
  endNs : ℕ
  text : List Char
  deriving DecidableEq

/-- Cues that lie before the seek point by more than a segment are shifted by it. -/
def Cue.shifted (seekNs maxBackDiffNs : ℕ) (cue : Cue) : Cue :=
  if 0 < seekNs ∧ cue.startNs < seekNs - maxBackDiffNs then
    ⟨U64.saturatingAdd cue.startNs seekNs, U64.saturatingAdd cue.endNs seekNs, cue.text⟩
  else cue

/-- One round of `append_vtt`: a cue is recorded once. -/
def addCapture (seekNs maxBackDiffNs : ℕ) (cues : List Cue) (capture : Capture) :
    Except Fault (List Cue) := do
  let start ← parseClock capture.start
  let end_ ← parseClock capture.end_
  match start, end_ with
  | some startNs, some endNs =>
    let text := Utf8.trim capture.text
    if endNs ≤ startNs ∨ text = [] then .ok cues
    else
      let cue := Cue.shifted seekNs maxBackDiffNs ⟨startNs, endNs, text⟩
      .ok (if cue ∈ cues then cues else cues ++ [cue])
  | _, _ => .ok cues

def appendVtt (seekNs maxBackDiffNs : ℕ) (cues : List Cue) (captures : List Capture) :
    Except Fault (List Cue) := captures.foldlM (addCapture seekNs maxBackDiffNs) cues

/-! ### The file of a segment -/

def header (startNs : ℕ) : Except Fault (List Char) := do
  let whole ← mul (startNs / 1000000000) 90000
  let rest ← mul (startNs % 1000000000) 90000
  let clock ← add whole (rest / 1000000000)
  .ok ("WEBVTT\nX-TIMESTAMP-MAP=LOCAL:00:00:00.000,MPEGTS:".toList ++ Text.decimal clock ++ "\n\n".toList)

/-- The end of a cue in the range, from where the range begins. -/
def clippedEnd (fromNs toNs : ℕ) (cue : Cue) : Except Fault ℕ :=
  if cue.endNs < toNs then sub cue.endNs fromNs else sub toNs fromNs

def renderCue (fromNs toNs : ℕ) (cue : Cue) : Except Fault (List Char) :=
  if cue.endNs ≤ fromNs ∨ toNs ≤ cue.startNs then .ok []
  else do
    let start := cue.startNs - fromNs
    let end_ ← clippedEnd fromNs toNs cue
    if end_ ≤ start then .ok []
    else .ok (formatClock start ++ " --> ".toList ++ formatClock end_ ++ '\n' :: cue.text ++ "\n\n".toList)

/-- The cues that overlap the range, and whether the video was read far enough for all of them. -/
def render (cues : List Cue) (videoReadTo fromNs toNs : ℕ) : Except Fault (List Char × Bool) := do
  let head ← header fromNs
  let texts ← cues.mapM (renderCue fromNs toNs)
  .ok (head ++ texts.flatten, decide (toNs ≤ fromNs ∨ toNs ≤ videoReadTo))

end Subtitles

/-- `subtitle_range`. -/
def TaskInfo.subtitleRange (info : TaskInfo) (segment : ℤ) : Except Fault (ℕ × ℕ) :=
  match info.cue.bind fun cue => cue.segment segment with
  | some cue => .ok (cue.startNs, cue.endNs)
  | none => do
    let start ← info.segmentStartNs segment
    let size ← mul (max info.segmentSeconds 1).toNat 1000000000
    let stop := U64.saturatingAdd start size
    if 0 < info.durationNs then
      let last := info.durationNs.toNat
      .ok (start, if last ≤ start then start else if last < stop then last else stop)
    else .ok (start, stop)

namespace Subtitles

/-! ### Clocks -/

theorem Clock.toNs_of_lt {c : Clock} (h : c.ns < 2 ^ 64) : c.toNs = .ok c.ns := by
  unfold Clock.ns at *
  have hfraction : c.milliseconds * 1000000 < 2 ^ 64 := (Nat.le_add_left _ _).trans_lt h
  have hwhole := (Nat.le_add_right _ _).trans_lt h
  have hsum := (Nat.le_mul_of_pos_right _ (by decide)).trans_lt hwhole
  have hfirst := (Nat.le_add_right _ _).trans_lt hsum
  have hhours := (Nat.le_add_right _ _).trans_lt hfirst
  have hminutes := (Nat.le_add_left _ _).trans_lt hfirst
  unfold Clock.toNs
  rw [mul_of_lt hhours, ok_bind, mul_of_lt hminutes, ok_bind, add_of_lt hfirst, ok_bind,
    add_of_lt hsum, ok_bind, mul_of_lt hwhole, ok_bind, mul_of_lt hfraction, ok_bind, add_of_lt h]

/-- No step is greater than the whole. -/
theorem Clock.lt_of_toNs {c : Clock} {ns : ℕ} (h : c.toNs = .ok ns) : c.ns < 2 ^ 64 := by
  unfold Clock.toNs at h
  obtain ⟨hours, hhours, h⟩ := bind_eq_ok.mp h
  obtain ⟨minutes, hminutes, h⟩ := bind_eq_ok.mp h
  obtain ⟨first, hfirst, h⟩ := bind_eq_ok.mp h
  obtain ⟨sum, hsum, h⟩ := bind_eq_ok.mp h
  obtain ⟨whole, hwhole, h⟩ := bind_eq_ok.mp h
  obtain ⟨fraction, hfraction, h⟩ := bind_eq_ok.mp h
  obtain ⟨-, rfl⟩ := of_mul_eq_ok hhours
  obtain ⟨-, rfl⟩ := of_mul_eq_ok hminutes
  obtain ⟨-, rfl⟩ := of_add_eq_ok hfirst
  obtain ⟨-, rfl⟩ := of_add_eq_ok hsum
  obtain ⟨-, rfl⟩ := of_mul_eq_ok hwhole
  obtain ⟨-, rfl⟩ := of_mul_eq_ok hfraction
  exact (of_add_eq_ok h).1

/-- The time on a clock fits 64 bits. -/
def Fits (value : List Char) : Prop := ∀ c, fieldsOf value = some c → c.ns < 2 ^ 64

theorem parseClock_of_fits {value : List Char} (h : Fits value) :
    parseClock value = .ok ((fieldsOf value).map Clock.ns) := by
  unfold parseClock
  cases hfields : fieldsOf value with
  | none => rfl
  | some c =>
    simp only
    rw [Clock.toNs_of_lt (h c hfields)]
    rfl

theorem fits_iff {value : List Char} : (∃ ns, parseClock value = .ok ns) ↔ Fits value := by
  constructor
  · rintro ⟨ns, h⟩ c hc
    unfold parseClock at h
    rw [hc] at h
    simp only at h
    cases hns : c.toNs with
    | error e =>
      rw [hns] at h
      cases h
    | ok n => exact Clock.lt_of_toNs hns
  · exact fun h => ⟨_, parseClock_of_fits h⟩

/-! ### Clocks that were written -/

theorem notMem_padded {width n : ℕ} {c : Char} (hc : c.isDigit = false) : c ∉ padded width (n : ℤ) := by
  intro hmem
  rw [I64.isDigit_of_mem_padded (Int.natCast_nonneg n) hmem] at hc
  cases hc

theorem splitOnce_of_notMem {c : Char} {s : List Char} (h : c ∉ s) : splitOnce c s = none := by
  induction s with
  | nil => rfl
  | cons d s ih =>
    obtain ⟨hd, hs⟩ := List.ne_and_not_mem_of_not_mem_cons h
    rw [splitOnce, if_neg hd.symm, ih hs, Option.map_none]

/-- Three digits are read as they are. -/
theorem thousandths_padded {n : ℕ} (h : n < 1000) : thousandths (padded 3 (n : ℤ)) = padded 3 (n : ℤ) := by
  have hlength : (padded 3 (n : ℤ)).length = 3 := I64.length_padded (by decide) (by omega)
  have hsize : Utf8Slice.size (padded 3 (n : ℤ)) = 3 := by
    rw [Utf8Slice.size_of_isDigit fun c hc => I64.isDigit_of_mem_padded (Int.natCast_nonneg n) hc, hlength]
  have htake : (padded 3 (n : ℤ)).take 3 = padded 3 (n : ℤ) := List.take_of_length_le hlength.le
  unfold thousandths
  simp only [htake, hsize]
  exact List.append_nil _

theorem secondsOf_written {seconds milliseconds : ℕ} (hseconds : seconds < 60)
    (hmilliseconds : milliseconds < 1000) :
    secondsOf (padded 2 (seconds : ℤ) ++ '.' :: padded 3 (milliseconds : ℤ)) =
      some (seconds, milliseconds) := by
  have hpoint := @notMem_padded 3 milliseconds '.' rfl
  unfold secondsOf
  rw [Text.splitOnce_append (notMem_padded rfl), Option.bind_eq_bind, Option.bind_some]
  simp only [if_neg hpoint]
  rw [I64.parseU64_padded (by omega), Option.bind_eq_bind, Option.bind_some]
  simp only
  rw [if_neg (by omega), thousandths_padded hmilliseconds, I64.parseU64_padded (by omega),
    Option.bind_some]

theorem fieldsOf_formatClock {t : ℕ} (h : t < 2 ^ 64) : fieldsOf (formatClock t) =
    some ⟨t / 1000000 / 1000 / 3600, t / 1000000 / 1000 / 60 % 60, t / 1000000 / 1000 % 60,
      t / 1000000 % 1000⟩ := by
  have hjoin : formatClock t = Text.join ':' [padded 2 (t / 1000000 / 1000 / 3600 : ℕ),
      padded 2 (t / 1000000 / 1000 / 60 % 60 : ℕ), padded 2 (t / 1000000 / 1000 % 60 : ℕ) ++
        '.' :: padded 3 (t / 1000000 % 1000 : ℕ)] := by
    simp [formatClock, Text.join, List.intercalate]
  generalize hhours : t / 1000000 / 1000 / 3600 = hours at *
  generalize hminutes : t / 1000000 / 1000 / 60 % 60 = minutes at *
  generalize hseconds : t / 1000000 / 1000 % 60 = seconds at *
  generalize hmilliseconds : t / 1000000 % 1000 = milliseconds at *
  have hmem : ∀ c ∈ formatClock t, c.isDigit = true ∨ c = ':' ∨ c = '.' := by
    intro c hc
    rw [hjoin] at hc
    have hall : ∀ {width n : ℕ}, c ∈ padded width (n : ℤ) → c.isDigit = true :=
      fun hc => I64.isDigit_of_mem_padded (Int.natCast_nonneg _) hc
    simp only [Text.join, List.intercalate, List.intersperse, List.flatten_cons, List.flatten_nil,
      List.mem_append, List.mem_cons, List.not_mem_nil, or_false] at hc
    rcases hc with hc | hc | hc | hc | hc | hc | hc
    · exact Or.inl (hall hc)
    · exact Or.inr (Or.inl hc)
    · exact Or.inl (hall hc)
    · exact Or.inr (Or.inl hc)
    · exact Or.inl (hall hc)
    · exact Or.inr (Or.inr hc)
    · exact Or.inl (hall hc)
  have hpointed : pointed (formatClock t) = formatClock t := by
    unfold pointed
    rw [splitOnce_of_notMem]
    intro hcomma
    rcases hmem ',' hcomma with h | h | h <;> cases h
  have htrim : Utf8.trim (formatClock t) = formatClock t := by
    apply Utf8.trim_of_forall
    intro c hc
    rcases hmem c hc with hdigit | rfl | rfl
    · exact Utf8.isWhitespace_of_isDigit hdigit
    · rfl
    · rfl
  have hsplit : (formatClock t).splitOn ':' = [padded 2 (hours : ℤ), padded 2 (minutes : ℤ),
      padded 2 (seconds : ℤ) ++ '.' :: padded 3 (milliseconds : ℤ)] := by
    rw [hjoin]
    apply Text.splitOn_join
    · simp [@notMem_padded 2 hours ':' rfl, @notMem_padded 2 minutes ':' rfl,
        @notMem_padded 2 seconds ':' rfl, @notMem_padded 3 milliseconds ':' rfl]
    · simp
  unfold fieldsOf
  rw [hpointed, htrim, hsplit]
  simp only [Option.bind_eq_bind]
  rw [I64.parseU64_padded (by omega), Option.bind_some, I64.parseU64_padded (by omega), Option.bind_some]
  simp only
  rw [if_neg (by omega), secondsOf_written (by omega) (by omega), Option.bind_some]

theorem parseClock_formatClock {t : ℕ} (h : t < 2 ^ 64) :
    parseClock (formatClock t) = .ok (some (t / 1000000 * 1000000)) := by
  have hfields := fieldsOf_formatClock h
  have hns : (⟨t / 1000000 / 1000 / 3600, t / 1000000 / 1000 / 60 % 60, t / 1000000 / 1000 % 60,
      t / 1000000 % 1000⟩ : Clock).ns = t / 1000000 * 1000000 := by
    unfold Clock.ns
    simp only
    omega
  have hfits : Fits (formatClock t) := by
    intro c hc
    rw [hfields, Option.some_inj] at hc
    rw [← hc, hns]
    omega
  rw [parseClock_of_fits hfits, hfields, Option.map_some, hns]

/-! ### Adding cues -/

theorem addCapture_ok_iff {seekNs back : ℕ} {cues : List Cue} {capture : Capture} :
    (∃ cues', addCapture seekNs back cues capture = .ok cues') ↔ Fits capture.start ∧ Fits capture.end_ := by
  unfold addCapture
  constructor
  · rintro ⟨cues', h⟩
    obtain ⟨start, hstart, h⟩ := bind_eq_ok.mp h
    obtain ⟨end_, hend, -⟩ := bind_eq_ok.mp h
    exact ⟨fits_iff.mp ⟨_, hstart⟩, fits_iff.mp ⟨_, hend⟩⟩
  · rintro ⟨hstart, hend⟩
    rw [parseClock_of_fits hstart, ok_bind, parseClock_of_fits hend, ok_bind]
    cases (fieldsOf capture.start).map Clock.ns with
    | none => exact ⟨_, rfl⟩
    | some startNs =>
      cases (fieldsOf capture.end_).map Clock.ns with
      | none => exact ⟨_, rfl⟩
      | some endNs =>
        simp only
        split
        · exact ⟨_, rfl⟩
        · exact ⟨_, rfl⟩

theorem appendVtt_ok_iff {seekNs back : ℕ} (captures : List Capture) (cues : List Cue) :
    (∃ cues', appendVtt seekNs back cues captures = .ok cues') ↔
      ∀ capture ∈ captures, Fits capture.start ∧ Fits capture.end_ := by
  unfold appendVtt
  induction captures generalizing cues with
  | nil => exact ⟨fun _ _ h => absurd h List.not_mem_nil, fun _ => ⟨cues, rfl⟩⟩
  | cons capture captures ih =>
    rw [List.foldlM_cons, List.forall_mem_cons, ← @addCapture_ok_iff seekNs back cues]
    constructor
    · rintro ⟨cues', h⟩
      obtain ⟨next, hnext, h⟩ := bind_eq_ok.mp h
      exact ⟨⟨next, hnext⟩, (ih next).mp ⟨cues', h⟩⟩
    · rintro ⟨⟨next, hnext⟩, hrest⟩
      obtain ⟨cues', h⟩ := (ih next).mpr hrest
      exact ⟨cues', bind_eq_ok.mpr ⟨next, hnext, h⟩⟩

/-! ### Rendering -/

theorem header_ok {startNs : ℕ} (h : startNs < 2 ^ 64) : ∃ head, header startNs = .ok head := by
  unfold header
  rw [mul_of_lt (by omega), ok_bind, mul_of_lt (by omega), ok_bind, add_of_lt (by omega), ok_bind]
  exact ⟨_, rfl⟩

/-- What is subtracted lies before what it is subtracted from. -/
theorem renderCue_ok {fromNs toNs : ℕ} (h : fromNs ≤ toNs) (cue : Cue) :
    ∃ text, renderCue fromNs toNs cue = .ok text := by
  unfold renderCue
  split
  · exact ⟨_, rfl⟩
  · next hover =>
    rw [not_or, not_le, not_le] at hover
    have hend : ∃ end_, clippedEnd fromNs toNs cue = .ok end_ := by
      unfold clippedEnd
      split
      · exact ⟨_, sub_of_le hover.1.le⟩
      · exact ⟨_, sub_of_le h⟩
    obtain ⟨end_, hend⟩ := hend
    by_cases hempty : end_ ≤ cue.startNs - fromNs
    · exact ⟨[], bind_eq_ok.mpr ⟨end_, hend, if_pos hempty⟩⟩
    · exact ⟨_, bind_eq_ok.mpr ⟨end_, hend, if_neg hempty⟩⟩

theorem render_ok {fromNs toNs : ℕ} (hfrom : fromNs < 2 ^ 64) (h : fromNs ≤ toNs) (cues : List Cue)
    (videoReadTo : ℕ) : ∃ file, render cues videoReadTo fromNs toNs = .ok file := by
  obtain ⟨head, hhead⟩ := header_ok hfrom
  choose text htext using renderCue_ok h
  unfold render
  rw [hhead, ok_bind, Except.mapM_eq_ok fun cue _ => htext cue, ok_bind]
  exact ⟨_, rfl⟩

end Subtitles

namespace TaskInfo

variable {info : TaskInfo}

/-- A segment does not end before it begins. -/
theorem le_of_subtitleRange {segment : ℤ} {fromNs toNs : ℕ}
    (h : info.subtitleRange segment = .ok (fromNs, toNs)) : fromNs ≤ toNs := by
  unfold subtitleRange at h
  split at h
  · next found hfound =>
    obtain ⟨cue, -, hsegment⟩ := Option.bind_eq_some_iff.mp hfound
    obtain ⟨rfl, rfl⟩ := Prod.mk.inj (Except.ok.inj h)
    unfold CueTimeline.segment at hsegment
    split at hsegment
    · exact (cue.nonempty found (List.mem_of_getElem? hsegment)).le
    · cases hsegment
  · next hnone =>
    obtain ⟨start, hstart, h⟩ := bind_eq_ok.mp h
    obtain ⟨size, -, h⟩ := bind_eq_ok.mp h
    have hlt : start < 2 ^ 64 := by
      unfold segmentStartNs at hstart
      rw [hnone] at hstart
      simp only at hstart
      split at hstart
      · rw [← Except.ok.inj hstart]
        decide
      · obtain ⟨seconds, -, hstart⟩ := bind_eq_ok.mp hstart
        obtain ⟨hlt, rfl⟩ := of_mul_eq_ok hstart
        exact hlt
    have hstop : start ≤ U64.saturatingAdd start size := by
      unfold U64.saturatingAdd
      omega
    simp only at h
    split at h
    · obtain ⟨rfl, rfl⟩ := Prod.mk.inj (Except.ok.inj h)
      split_ifs <;> omega
    · obtain ⟨rfl, rfl⟩ := Prod.mk.inj (Except.ok.inj h)
      exact hstop

/-- Seconds are counted in nanoseconds only along a timeline. -/
theorem startIndexForSeconds_ok_iff {seconds : ℤ} :
    (∃ index, info.startIndexForSeconds seconds = .ok index) ↔
      info.cue = none ∨ seconds * 1000000000 < 2 ^ 64 := by
  unfold startIndexForSeconds
  by_cases hseconds : seconds ≤ 0
  · rw [if_pos hseconds]
    exact ⟨fun _ => Or.inr (by omega), fun _ => ⟨0, rfl⟩⟩
  · rw [if_neg hseconds]
    cases info.cue with
    | none => exact ⟨fun _ => Or.inl rfl, fun _ => ⟨_, rfl⟩⟩
    | some cue =>
      constructor
      · rintro ⟨index, h⟩
        obtain ⟨target, htarget, -⟩ := bind_eq_ok.mp h
        have hlt := (of_mul_eq_ok htarget).1
        exact Or.inr (by omega)
      · rintro (h | h)
        · cases h
        · exact ⟨_, bind_eq_ok.mpr ⟨_, mul_of_lt (by omega), rfl⟩⟩

end TaskInfo

namespace Subtitles

/-- Nothing overflows with these clocks and seconds, and a time that was written is read back to the
millisecond. -/
structure Safe (info : TaskInfo) (seekNs maxBackDiffNs : ℕ) (cues : List Cue) (captures : List Capture)
    (seconds : ℤ) : Prop where
  append : ∃ cues', appendVtt seekNs maxBackDiffNs cues captures = .ok cues'
  render : ∀ segment fromNs toNs, info.subtitleRange segment = .ok (fromNs, toNs) → fromNs < 2 ^ 64 →
    ∀ cues videoReadTo, ∃ file, render cues videoReadTo fromNs toNs = .ok file
  index : ∃ index, info.startIndexForSeconds seconds = .ok index
  round_trip : ∀ t < 2 ^ 64, parseClock (formatClock t) = .ok (some (t / 1000000 * 1000000))

theorem clocks_safe_iff (info : TaskInfo) (seekNs maxBackDiffNs : ℕ) (cues : List Cue)
    (captures : List Capture) (seconds : ℤ) :
    Safe info seekNs maxBackDiffNs cues captures seconds ↔
      (∀ capture ∈ captures, Fits capture.start ∧ Fits capture.end_) ∧
        (info.cue = none ∨ seconds * 1000000000 < 2 ^ 64) := by
  constructor
  · intro h
    exact ⟨(appendVtt_ok_iff captures cues).mp h.append, TaskInfo.startIndexForSeconds_ok_iff.mp h.index⟩
  · rintro ⟨hclocks, hseconds⟩
    refine ⟨(appendVtt_ok_iff captures cues).mpr hclocks, ?_,
      TaskInfo.startIndexForSeconds_ok_iff.mpr hseconds, fun t ht => parseClock_formatClock ht⟩
    intro segment fromNs toNs hrange hfrom cues videoReadTo
    exact render_ok hfrom (TaskInfo.le_of_subtitleRange hrange) cues videoReadTo

theorem sixSeconds_pos : (0 : ℤ) < 6 := by decide

/-- A task of segments of six seconds. -/
def fixedTask : TaskInfo := ⟨none, 6, 0, sixSeconds_pos⟩

theorem timeline_nonempty : ∀ segment ∈ [(⟨0, 6000000000⟩ : CueSegment)], segment.startNs < segment.endNs := by
  decide

theorem timeline_contiguous : [(⟨0, 6000000000⟩ : CueSegment)].IsChain fun a b => a.endNs = b.startNs :=
  List.isChain_singleton _

/-- A task of one segment along a timeline. -/
def timelineTask : TaskInfo :=
  ⟨some ⟨[⟨0, 6000000000⟩], 1000000, 6000000000, timeline_nonempty, timeline_contiguous⟩, 6, 0, sixSeconds_pos⟩

/-- A cue after more than five million hours, and a start after more than five hundred years. -/
theorem clocks_overflow :
    ¬Safe fixedTask 0 0 [] [⟨"5124096:00:00.000".toList, "5124096:00:01.000".toList, ['x']⟩] 0 ∧
      ¬Safe timelineTask 0 0 [] [] 18446744074 := by
  constructor
  · intro h
    obtain ⟨cues', happend⟩ := h.append
    have hoverflow : appendVtt 0 0 []
        [⟨"5124096:00:00.000".toList, "5124096:00:01.000".toList, ['x']⟩] = .error .overflow := by
      decide +kernel
    rw [hoverflow] at happend
    cases happend
  · intro h
    obtain ⟨index, hindex⟩ := h.index
    have hoverflow : timelineTask.startIndexForSeconds 18446744074 = .error .overflow := by
      decide +kernel
    rw [hoverflow] at hindex
    cases hindex

end Subtitles

end Rustorr.Gst
