import Rustorr.Gst.Mp4.EndOfStream

/-! A stream that is pushed in chunks: it is read as its bytes are, one after the other, wherever no segment
can be cut at the end of a chunk. -/

namespace Rustorr.Mp4

open BigEndian Except

namespace Reader

variable {r r' : Reader} {b : Bool}

/-! ### Bytes -/

/-- More data than none: a header or a body takes some of it, and the rest is gone on with. -/
theorem processUpTo_succ {fuel : ℕ} {data : List UInt8} (hne : data ≠ []) :
    processUpTo (fuel + 1) r data =
      if r.boxHeader.length < r.boxHeaderRequired then
        let count := min (r.boxHeaderRequired - r.boxHeader.length) data.length
        let r := { r with boxHeader := r.boxHeader ++ data.take count }
        if r.boxHeader.length < r.boxHeaderRequired then .ok (r, data.drop count, false)
        else r.finishHeader.bind fun (r, completed) =>
          if completed then .ok (r, data.drop count, true) else processUpTo fuel r (data.drop count)
      else
        let body := min data.length r.currentBoxRemaining
        if body = 0 then .ok (r, data, false)
        else
          let r := r.writeCurrentBoxData (data.take body)
          let r := { r with currentBoxRemaining := r.currentBoxRemaining - body }
          r.finishBox.bind fun (r, completed) =>
            if completed then .ok (r, data.drop body, true) else processUpTo fuel r (data.drop body) := by
  rw [processUpTo, if_neg hne]
  rfl

theorem processUpTo_nil (fuel : ℕ) : processUpTo fuel r [] = .ok (r, [], false) := by
  cases fuel with
  | zero => rfl
  | succ fuel =>
    rw [processUpTo, if_pos rfl]

/-- Enough rounds are enough. -/
theorem processUpTo_eq {fuel : ℕ} {data : List UInt8} (h : data.length ≤ fuel) :
    processUpTo fuel r data = r.processBytes data := by
  induction fuel using Nat.strong_induction_on generalizing r data with
  | _ fuel ih =>
    by_cases hne : data = []
    · rw [hne, processUpTo_nil]
      rfl
    obtain ⟨n, hn⟩ := Nat.exists_eq_succ_of_ne_zero (List.length_pos_iff.mpr hne).ne'
    obtain ⟨m, rfl⟩ : ∃ m, fuel = m + 1 := ⟨fuel - 1, by omega⟩
    have hrest : ∀ (r : Reader) (count : ℕ), 0 < count →
        processUpTo m r (data.drop count) = processUpTo n r (data.drop count) := by
      intro r count hcount
      have hlength : (data.drop count).length = data.length - count := List.length_drop
      rw [ih m (by omega) (by omega), ih n (by omega) (by omega)]
    unfold processBytes
    rw [hn, processUpTo_succ hne, processUpTo_succ hne]
    split
    · next hin =>
      have hpos : 0 < min (r.boxHeaderRequired - r.boxHeader.length) data.length := by omega
      simp only [hrest _ _ hpos]
    · simp only
      split
      · rfl
      · next hbody => simp only [hrest _ _ (Nat.pos_of_ne_zero hbody)]

/-- There is more to read of the header or the body of a box. -/
def Ready (r : Reader) : Prop := r.InHeader ∨ r.currentBoxRemaining ≠ 0

/-- A byte is read, and maybe a segment completed. -/
def readByte (r : Reader) (b : UInt8) : Except ReaderError (Reader × Bool) := do
  let (r, _, completed) ← r.processBytes [b]
  .ok (r, completed)

/-- The reader once a byte of the body of a box is stored. -/
def storeByte (r : Reader) (b : UInt8) : Reader :=
  { r.writeCurrentBoxData [b] with
    currentBoxRemaining := (r.writeCurrentBoxData [b]).currentBoxRemaining - 1 }

theorem readByte_eq (hready : r.Ready) (b : UInt8) :
    r.readByte b =
      if r.boxHeader.length < r.boxHeaderRequired then
        if r.boxHeader.length + 1 < r.boxHeaderRequired then
          .ok ({ r with boxHeader := r.boxHeader ++ [b] }, false)
        else finishHeader { r with boxHeader := r.boxHeader ++ [b] }
      else (r.storeByte b).finishBox := by
  have hlength : (r.boxHeader ++ [b]).length = r.boxHeader.length + 1 := List.length_append
  unfold readByte processBytes
  rw [show [b].length = 0 + 1 from rfl, processUpTo_succ (List.cons_ne_nil b [])]
  by_cases hin : r.boxHeader.length < r.boxHeaderRequired
  · have hone : min (r.boxHeaderRequired - r.boxHeader.length) (0 + 1) = 1 := by omega
    rw [if_pos hin, if_pos hin]
    simp only [List.length_singleton, Nat.zero_add] at hone ⊢
    rw [hone, List.take_of_length_le (le_refl 1), hlength]
    split
    · rfl
    · simp only [List.drop_one, List.tail_cons, processUpTo]
      cases finishHeader { r with boxHeader := r.boxHeader ++ [b] } with
      | error e => rfl
      | ok out =>
        obtain ⟨r₁, completed⟩ := out
        cases completed <;> rfl
  · have hbody : r.currentBoxRemaining ≠ 0 := hready.resolve_left hin
    have hone : min [b].length r.currentBoxRemaining = 1 := by
      rw [List.length_singleton]
      omega
    rw [if_neg hin, if_neg hin]
    simp only [hone, one_ne_zero, if_false, List.drop_one, List.tail_cons, processUpTo]
    show (((r.storeByte b).finishBox.bind _).bind _) = _
    cases (r.storeByte b).finishBox with
    | error e => rfl
    | ok out =>
      obtain ⟨r₁, completed⟩ := out
      cases completed <;> rfl

/-- What is written in two parts is written as one. -/
theorem writeCurrentBoxData_append (r : Reader) (a b : List UInt8) (n m : ℕ) :
    ({ { r.writeCurrentBoxData a with currentBoxRemaining := n }.writeCurrentBoxData b with
      currentBoxRemaining := m } : Reader) =
      { r.writeCurrentBoxData (a ++ b) with currentBoxRemaining := m } := by
  unfold writeCurrentBoxData
  cases htarget : r.currentTarget <;> simp only [htarget, List.append_assoc]

theorem remaining_writeCurrentBoxData (r : Reader) (data : List UInt8) :
    (r.writeCurrentBoxData data).boxHeader = r.boxHeader ∧
      (r.writeCurrentBoxData data).boxHeaderRequired = r.boxHeaderRequired ∧
      (r.writeCurrentBoxData data).currentBoxRemaining = r.currentBoxRemaining := by
  unfold writeCurrentBoxData
  split <;> exact ⟨rfl, rfl, rfl⟩

theorem finishBox_of_remaining (h : r.currentBoxRemaining ≠ 0) : r.finishBox = .ok (r, false) := by
  unfold finishBox
  rw [if_neg h]

/-- A header that is not done takes a byte and goes on. -/
theorem processBytes_header (b : UInt8) (rest : List UInt8)
    (hmore : r.boxHeader.length + 1 < r.boxHeaderRequired) :
    r.processBytes (b :: rest) = ({ r with boxHeader := r.boxHeader ++ [b] } : Reader).processBytes rest := by
  have hin : r.boxHeader.length < r.boxHeaderRequired := by omega
  have hlength : (r.boxHeader ++ [b]).length = r.boxHeader.length + 1 := List.length_append
  cases rest with
  | nil =>
    unfold processBytes
    have hone : min (r.boxHeaderRequired - r.boxHeader.length) [b].length = 1 := by
      rw [List.length_singleton]
      omega
    rw [processUpTo_nil, show [b].length = 0 + 1 from rfl, processUpTo_succ (List.cons_ne_nil b []), if_pos hin]
    have htake : [b].take 1 = [b] := rfl
    simp only [hone, htake, hlength, if_pos hmore, List.drop_one, List.tail_cons]
  | cons c more =>
    have hsecond : (r.boxHeader ++ [b]).length < r.boxHeaderRequired := by rwa [hlength]
    have hcount : min (r.boxHeaderRequired - r.boxHeader.length) (b :: c :: more).length =
        min (r.boxHeaderRequired - (r.boxHeader ++ [b]).length) (c :: more).length + 1 := by
      rw [hlength, List.length_cons]
      omega
    have hpos : 0 < min (r.boxHeaderRequired - (r.boxHeader ++ [b]).length) (c :: more).length := by
      rw [hlength, List.length_cons]
      omega
    unfold processBytes
    rw [List.length_cons, processUpTo_succ (List.cons_ne_nil b _), if_pos hin, hcount]
    generalize hn : min (r.boxHeaderRequired - (r.boxHeader ++ [b]).length) (c :: more).length = n at hpos
    rw [List.length_cons, processUpTo_succ (List.cons_ne_nil c _)]
    simp only [if_pos hsecond, hn, List.take_succ_cons, List.drop_succ_cons, List.append_assoc, List.singleton_append]
    have hfuel : ∀ r : Reader, processUpTo (more.length + 1) r ((c :: more).drop n) =
        processUpTo more.length r ((c :: more).drop n) := by
      intro r
      have hdrop : ((c :: more).drop n).length ≤ more.length := by
        rw [List.length_drop, List.length_cons]
        omega
      rw [processUpTo_eq hdrop, processUpTo_eq (Nat.le_succ_of_le hdrop)]
    simp only [hfuel]

/-- So does a body. -/
theorem processBytes_body (b : UInt8) (rest : List UInt8) (hout : ¬r.boxHeader.length < r.boxHeaderRequired)
    (hmore : 1 < r.currentBoxRemaining) :
    r.processBytes (b :: rest) = (r.storeByte b).processBytes rest := by
  obtain ⟨hheader, hrequired, hremaining⟩ := remaining_writeCurrentBoxData r [b]
  have hleft : (r.storeByte b).currentBoxRemaining = r.currentBoxRemaining - 1 := by
    unfold storeByte
    rw [hremaining]
  cases rest with
  | nil =>
    have hone : min [b].length r.currentBoxRemaining = 1 := by
      rw [List.length_singleton]
      omega
    unfold processBytes
    rw [processUpTo_nil, show [b].length = 0 + 1 from rfl, processUpTo_succ (List.cons_ne_nil b []), if_neg hout]
    simp only [hone, one_ne_zero, if_false]
    show (r.storeByte b).finishBox.bind _ = _
    rw [finishBox_of_remaining (by omega)]
    rfl
  | cons c more =>
    have hout' : ¬(r.storeByte b).boxHeader.length < (r.storeByte b).boxHeaderRequired := by
      show ¬(r.writeCurrentBoxData [b]).boxHeader.length < (r.writeCurrentBoxData [b]).boxHeaderRequired
      rwa [hheader, hrequired]
    have hbody : min (b :: c :: more).length r.currentBoxRemaining =
        min (c :: more).length (r.storeByte b).currentBoxRemaining + 1 := by
      rw [hleft, List.length_cons]
      omega
    have hpos : 0 < min (c :: more).length (r.storeByte b).currentBoxRemaining := by
      rw [hleft, List.length_cons]
      omega
    unfold processBytes
    rw [List.length_cons, processUpTo_succ (List.cons_ne_nil b _), if_neg hout, hbody]
    generalize hn : min (c :: more).length (r.storeByte b).currentBoxRemaining = n at hpos
    rw [List.length_cons, processUpTo_succ (List.cons_ne_nil c _), if_neg hout']
    have hstored : ({ r.writeCurrentBoxData ((b :: c :: more).take (n + 1)) with
        currentBoxRemaining := (r.writeCurrentBoxData ((b :: c :: more).take (n + 1))).currentBoxRemaining -
          (n + 1) } : Reader) =
        { (r.storeByte b).writeCurrentBoxData ((c :: more).take n) with
          currentBoxRemaining := ((r.storeByte b).writeCurrentBoxData ((c :: more).take n)).currentBoxRemaining -
            n } := by
      rw [(remaining_writeCurrentBoxData r _).2.2, (remaining_writeCurrentBoxData (r.storeByte b) _).2.2, hleft,
        List.take_succ_cons, Nat.sub_sub, Nat.add_comm 1 n]
      exact (writeCurrentBoxData_append r [b] ((c :: more).take n) _ _).symm
    have hfuel : ∀ r : Reader, processUpTo (more.length + 1) r ((c :: more).drop n) =
        processUpTo more.length r ((c :: more).drop n) := by
      intro r
      have hdrop : ((c :: more).drop n).length ≤ more.length := by
        rw [List.length_drop, List.length_cons]
        omega
      rw [processUpTo_eq hdrop, processUpTo_eq (Nat.le_succ_of_le hdrop)]
    simp only [hstored, hn, Nat.succ_ne_zero, if_false, hpos.ne', List.drop_succ_cons, hfuel]

/-- Data is read as its first byte is, and the rest. -/
theorem processBytes_cons (hready : r.Ready) (b : UInt8) (rest : List UInt8) :
    r.processBytes (b :: rest) = (r.readByte b).bind fun (r, completed) =>
      if completed then .ok (r, rest, true) else r.processBytes rest := by
  rw [readByte_eq hready]
  by_cases hin : r.boxHeader.length < r.boxHeaderRequired
  · rw [if_pos hin]
    by_cases hmore : r.boxHeader.length + 1 < r.boxHeaderRequired
    · rw [if_pos hmore, processBytes_header b rest hmore]
      rfl
    · have hone : min (r.boxHeaderRequired - r.boxHeader.length) (rest.length + 1) = 1 := by omega
      have hfull : ¬(r.boxHeader ++ [b]).length < r.boxHeaderRequired := by
        rwa [show (r.boxHeader ++ [b]).length = r.boxHeader.length + 1 from List.length_append]
      unfold processBytes
      rw [if_neg hmore, List.length_cons, processUpTo_succ (List.cons_ne_nil b rest), if_pos hin]
      simp only [List.length_cons, hone, List.take_succ_cons, List.take_zero, if_neg hfull, List.drop_one,
        List.tail_cons]
  · have hbody : r.currentBoxRemaining ≠ 0 := hready.resolve_left hin
    rw [if_neg hin]
    by_cases hmore : 1 < r.currentBoxRemaining
    · have hleft : (r.storeByte b).currentBoxRemaining ≠ 0 := by
        show (r.writeCurrentBoxData [b]).currentBoxRemaining - 1 ≠ 0
        rw [(remaining_writeCurrentBoxData r [b]).2.2]
        omega
      rw [processBytes_body b rest hin hmore, finishBox_of_remaining hleft]
      rfl
    · have hone : min (b :: rest).length r.currentBoxRemaining = 1 := by
        rw [List.length_cons]
        omega
      unfold processBytes
      rw [List.length_cons, processUpTo_succ (List.cons_ne_nil b rest), if_neg hin]
      simp only [List.length_cons] at hone
      simp only [List.length_cons, hone, one_ne_zero, if_false, List.take_succ_cons, List.take_zero, List.drop_one,
        List.tail_cons]
      rfl

/-! ### What a stream gives -/

/-- The segments of a stream up to its end or an error, and the reader it leaves. -/
abbrev Outcome := List Segment × Except ReaderError Reader

namespace Outcome

def prepend (segments : List Segment) (o : Outcome) : Outcome := (segments ++ o.1, o.2)

/-- Where there is no error, it is gone on with. -/
def andThen (o : Outcome) (next : Reader → Outcome) : Outcome :=
  match o.2 with
  | .error _ => o
  | .ok r => prepend o.1 (next r)

theorem prepend_andThen (segments : List Segment) (o : Outcome) (next : Reader → Outcome) :
    (prepend segments o).andThen next = prepend segments (o.andThen next) := by
  obtain ⟨out, result⟩ := o
  cases result with
  | error e => rfl
  | ok r => exact congrArg (fun l => (l, (next r).2)) (List.append_assoc segments out (next r).1)

theorem prepend_eq_ok {segments out : List Segment} {o : Outcome} {r : Reader}
    (h : prepend segments o = (out, .ok r)) : ∃ rest, o = (rest, .ok r) ∧ out = segments ++ rest := by
  obtain ⟨rest, result⟩ := o
  cases h
  exact ⟨rest, rfl, rfl⟩

theorem andThen_eq_ok {o : Outcome} {next : Reader → Outcome} {out : List Segment} {r : Reader}
    (h : o.andThen next = (out, .ok r)) :
    ∃ first r₁ rest, o = (first, .ok r₁) ∧ next r₁ = (rest, .ok r) ∧ out = first ++ rest := by
  obtain ⟨first, result⟩ := o
  cases result with
  | error e => cases h
  | ok r₁ =>
    obtain ⟨rest, hrest, hout⟩ := prepend_eq_ok h
    exact ⟨first, r₁, rest, rfl, hrest, hout⟩

theorem andThen_assoc (o : Outcome) (f g : Reader → Outcome) :
    (o.andThen f).andThen g = o.andThen fun r => (f r).andThen g := by
  obtain ⟨out, result⟩ := o
  cases result with
  | error e => rfl
  | ok r => exact prepend_andThen out (f r) g

end Outcome

/-- Segments are built until none can be. -/
def buildAll : ℕ → Reader → Outcome
  | 0, r => ([], .ok r)
  | fuel + 1, r =>
    match r.tryBuildSegment with
    | .error e => ([], .error e)
    | .ok (r, false) => ([], .ok r)
    | .ok (r, true) => Outcome.prepend r.newSegment.toList (buildAll fuel { r with newSegment := none })

/-- All that can be built of a reader. -/
def settle (r : Reader) : Outcome := buildAll r.video.length r

/-- A stream, byte for byte: a byte that completes a segment has all others built that can be. -/
def consume : Reader → List UInt8 → Outcome
  | r, [] => ([], .ok r)
  | r, b :: rest =>
    match r.readByte b with
    | .error e => ([], .error e)
    | .ok (r, false) => consume r rest
    | .ok (r, true) =>
      Outcome.prepend r.newSegment.toList
        (Outcome.andThen (settle { r with newSegment := none }) fun r => consume r rest)

/-- `while reader.try_process_deferred()`: what was deferred is asked for again, and each segment taken. -/
inductive Drains : Reader → Outcome → Prop
  | stopped {r r' : Reader} : r.tryProcessDeferred = .ok (r', false) → Drains r ([], .ok r')
  | failed {r : Reader} {e : ReaderError} : r.tryProcessDeferred = .error e → Drains r ([], .error e)
  | more {r r' : Reader} {o : Outcome} : r.tryProcessDeferred = .ok (r', true) →
      Drains { r' with newSegment := none } o → Drains r (Outcome.prepend r'.newSegment.toList o)

/-- Chunks are pushed one after the other, and what each completes is taken. -/
inductive Feeds : Reader → List (List UInt8) → Outcome → Prop
  | done {r : Reader} : Feeds r [] ([], .ok r)
  | failed {r : Reader} {chunk : List UInt8} {rest : List (List UInt8)} {e : ReaderError} :
      r.push chunk = .error e → Feeds r (chunk :: rest) ([], .error e)
  | stuck {r r₁ : Reader} {chunk : List UInt8} {rest : List (List UInt8)} {out : List Segment}
      {e : ReaderError} : r.push chunk = .ok r₁ → Drains { r₁ with newSegment := none } (out, .error e) →
      Feeds r (chunk :: rest) (r₁.newSegment.toList ++ out, .error e)
  | pushed {r r₁ r₂ : Reader} {chunk : List UInt8} {rest : List (List UInt8)} {out : List Segment}
      {o : Outcome} : r.push chunk = .ok r₁ → Drains { r₁ with newSegment := none } (out, .ok r₂) →
      Feeds r₂ rest o → Feeds r (chunk :: rest) (Outcome.prepend (r₁.newSegment.toList ++ out) o)

theorem Drains.unique {o o' : Outcome} (h : Drains r o) (h' : Drains r o') : o = o' := by
  induction h generalizing o' with
  | stopped hstop =>
    cases h' with
    | stopped hstop' => cases hstop.symm.trans hstop'; rfl
    | failed hfail => cases hstop.symm.trans hfail
    | more hmore => cases hstop.symm.trans hmore
  | failed hfail =>
    cases h' with
    | stopped hstop => cases hfail.symm.trans hstop
    | failed hfail' => cases hfail.symm.trans hfail'; rfl
    | more hmore => cases hfail.symm.trans hmore
  | more hmore _ ih =>
    cases h' with
    | stopped hstop => cases hmore.symm.trans hstop
    | failed hfail => cases hmore.symm.trans hfail
    | more hmore' hrest =>
      cases hmore.symm.trans hmore'
      rw [ih hrest]

theorem Feeds.unique {chunks : List (List UInt8)} {o o' : Outcome} (h : Feeds r chunks o)
    (h' : Feeds r chunks o') : o = o' := by
  induction h generalizing o' with
  | done =>
    cases h'
    rfl
  | failed hfail =>
    cases h' with
    | failed hfail' => cases hfail.symm.trans hfail'; rfl
    | stuck hpush => cases hfail.symm.trans hpush
    | pushed hpush => cases hfail.symm.trans hpush
  | stuck hpush hdrains =>
    cases h' with
    | failed hfail => cases hpush.symm.trans hfail
    | stuck hpush' hdrains' =>
      cases hpush.symm.trans hpush'
      cases hdrains.unique hdrains'
      rfl
    | pushed hpush' hdrains' =>
      cases hpush.symm.trans hpush'
      cases hdrains.unique hdrains'
  | pushed hpush hdrains _ ih =>
    cases h' with
    | failed hfail => cases hpush.symm.trans hfail
    | stuck hpush' hdrains' =>
      cases hpush.symm.trans hpush'
      cases hdrains.unique hdrains'
    | pushed hpush' hdrains' hrest =>
      cases hpush.symm.trans hpush'
      cases hdrains.unique hdrains'
      rw [ih hrest]

theorem consume_append (r : Reader) (a b : List UInt8) :
    r.consume (a ++ b) = (r.consume a).andThen fun r => r.consume b := by
  induction a generalizing r with
  | nil => rfl
  | cons byte a ih =>
    rw [List.cons_append, consume, consume]
    split
    · rfl
    · exact ih _
    · rw [Outcome.prepend_andThen, Outcome.andThen_assoc]
      congr 2
      funext r
      exact ih r

/-- What each prefix of a stream gives. -/
def outcomes (r : Reader) (data : List UInt8) : List Outcome :=
  data.scanl (fun o byte => o.andThen fun r => r.consume [byte]) ([], .ok r)

theorem foldl_consume (o : Outcome) (data : List UInt8) :
    data.foldl (fun o byte => o.andThen fun r => r.consume [byte]) o = o.andThen fun r => r.consume data := by
  induction data generalizing o with
  | nil =>
    obtain ⟨out, result⟩ := o
    cases result with
    | error e => rfl
    | ok r => exact congrArg (fun l => (l, Except.ok r)) (List.append_nil out).symm
  | cons byte data ih =>
    rw [List.foldl_cons, ih, Outcome.andThen_assoc]
    congr 1
    funext r
    exact (consume_append r [byte] data).symm

theorem consume_mem_outcomes {p data : List UInt8} (hp : p <+: data) : r.consume p ∈ r.outcomes data := by
  have hall : ∀ o : Outcome, p.foldl (fun o byte => o.andThen fun r => r.consume [byte]) o ∈
      data.scanl (fun o byte => o.andThen fun r => r.consume [byte]) o := by
    induction data generalizing p with
    | nil =>
      intro o
      rw [List.prefix_nil.mp hp]
      exact List.mem_singleton_self o
    | cons byte data ih =>
      intro o
      rw [List.scanl_cons]
      cases p with
      | nil => exact List.mem_cons_self
      | cons byte' p =>
        obtain ⟨rfl, hp'⟩ := List.cons_prefix_cons.mp hp
        exact List.mem_cons_of_mem _ (ih hp' _)
  have hmem := hall ([], .ok r)
  rw [foldl_consume] at hmem
  exact hmem

/-! ### What decides a cut -/

theorem selectCueFrom_congr (h : r'.videoTrack = r.videoTrack) (first : ℤ) (target tolerance : ℕ)
    (queue : List Fragment) (index : ℕ) :
    r'.selectCueFrom first target tolerance queue index = r.selectCueFrom first target tolerance queue index := by
  induction queue generalizing index with
  | nil => rfl
  | cons f rest ih => rw [selectCueFrom, selectCueFrom, ih, h]

theorem selectAudioFrom_congr (h : r'.videoTrack = r.videoTrack) (videoEnd : ℕ) (queue : List Fragment) :
    r'.selectAudioFrom videoEnd queue = r.selectAudioFrom videoEnd queue := by
  have hfind : r'.findAudioSplitSampleCount = r.findAudioSplitSampleCount := by
    funext fragment videoEnd
    unfold findAudioSplitSampleCount
    rw [h]
  induction queue with
  | nil => rfl
  | cons f rest ih => rw [selectAudioFrom, selectAudioFrom, ih, hfind]

/-- The walk over the video does not ask for the duration of the last fragment. -/
theorem selectFrom_last {x y : Fragment} (hsync : y.startsWithSync = x.startsWithSync) (target : ℕ) (b : Bool)
    (before : List Fragment) (index duration selected : ℕ) :
    selectFrom target b (before ++ [y]) index duration selected =
      selectFrom target b (before ++ [x]) index duration selected := by
  induction before generalizing index duration selected with
  | nil => rfl
  | cons f before ih =>
    cases before with
    | nil =>
      show selectFrom target b [f, y] index duration selected = selectFrom target b [f, x] index duration selected
      unfold selectFrom
      rw [hsync]
      rfl
    | cons next rest =>
      simp only [List.cons_append] at ih ⊢
      rw [selectFrom, selectFrom]
      simp only [ih]

theorem selectCueFrom_last {x y : Fragment} (hsync : y.startsWithSync = x.startsWithSync)
    (htime : firstPresentationTime y = firstPresentationTime x) (first : ℤ) (target tolerance : ℕ)
    (before : List Fragment) (index : ℕ) :
    r.selectCueFrom first target tolerance (before ++ [y]) index =
      r.selectCueFrom first target tolerance (before ++ [x]) index := by
  induction before generalizing index with
  | nil =>
    show r.selectCueFrom first target tolerance [y] index = r.selectCueFrom first target tolerance [x] index
    unfold selectCueFrom
    rw [hsync, htime]
  | cons f before ih =>
    rw [List.cons_append, List.cons_append, selectCueFrom, selectCueFrom, ih]

/-- A duration that is settled moves no first frame. -/
theorem firstPresentationTime_settled {previous current settled : Fragment} {exact : UInt32}
    (h : resolveInferredDuration previous current = .ok (settled, exact)) :
    firstPresentationTime settled = firstPresentationTime previous := by
  unfold resolveInferredDuration at h
  simp only at h
  obtain ⟨run, -, h⟩ := bind_eq_ok.mp h
  obtain ⟨u, -, h⟩ := bind_eq_ok.mp h
  obtain ⟨u, -, h⟩ := bind_eq_ok.mp h
  obtain ⟨u, -, h⟩ := bind_eq_ok.mp h
  cases h
  generalize previous.runs.length - 1 - previous.runs.reverse.findIdx Run.hasInferredDuration = index
  generalize UInt32.ofNat _ = exact
  unfold firstPresentationTime resolveRuns
  simp only
  cases previous.runs with
  | nil => cases index <;> rfl
  | cons run rest =>
    obtain ⟨_, samples, _, _, _, _, _, _, _, _⟩ := run
    cases index with
    | succ index => cases samples <;> rfl
    | zero =>
      cases samples with
      | nil => rfl
      | cons sample more => cases more <;> rfl

/-- The two readers would cut alike: of the video, at most the last duration is another one. -/
structure SameChoice (r r' : Reader) : Prop where
  segmentSeconds : r'.segmentSeconds = r.segmentSeconds
  segmentDiff : r'.segmentDiff = r.segmentDiff
  cueMode : r'.cueMode = r.cueMode
  targetSegment : r'.targetSegment = r.targetSegment
  lastVideoEndTime : r'.lastVideoEndTime = r.lastVideoEndTime
  completedVideoSegments : r'.completedVideoSegments = r.completedVideoSegments
  videoTrack : r'.videoTrack = r.videoTrack
  audioTrack : r'.audioTrack = r.audioTrack
  audio : r'.audio = r.audio
  video : r'.video = r.video ∨ ∃ before x y, r.video = before ++ [x] ∧ r'.video = before ++ [y] ∧
    y.startsWithSync = x.startsWithSync ∧ y.decodeTime = x.decodeTime ∧
      firstPresentationTime y = firstPresentationTime x

theorem SameChoice.refl (r : Reader) : SameChoice r r :=
  ⟨rfl, rfl, rfl, rfl, rfl, rfl, rfl, rfl, rfl, Or.inl rfl⟩

theorem SameChoice.lagsBehind (h : SameChoice r r') : r'.lagsBehind = r.lagsBehind := by
  unfold Reader.lagsBehind
  rw [h.videoTrack, h.completedVideoSegments, h.segmentSeconds, h.segmentDiff, h.lastVideoEndTime]

theorem SameChoice.selectCueVideoCount (h : SameChoice r r') :
    r'.selectCueVideoCount = r.selectCueVideoCount := by
  unfold Reader.selectCueVideoCount
  rw [h.targetSegment]
  simp only [selectCueFrom_congr h.videoTrack]
  rcases h.video with heq | ⟨before, x, y, hx, hy, hsync, -, htime⟩
  · rw [heq]
  · rw [hx, hy]
    cases r.targetSegment with
    | none => rfl
    | some range =>
      match before with
      | [] => rfl
      | [f] => exact congrArg _ (funext fun time => selectCueFrom_last hsync htime time _ _ [] 1)
      | f :: g :: rest =>
        exact congrArg _ (funext fun time => selectCueFrom_last hsync htime time _ _ (g :: rest) 1)

theorem SameChoice.selectVideoCount (h : SameChoice r r') : r'.selectVideoCount = r.selectVideoCount := by
  unfold Reader.selectVideoCount
  rw [h.cueMode, h.selectCueVideoCount, h.segmentSeconds, h.videoTrack, h.lagsBehind]
  rcases h.video with heq | ⟨before, x, y, hx, hy, hsync, htime, -⟩
  · rw [heq]
  · rw [hx, hy]
    simp only [selectFrom_last hsync]
    cases before with
    | nil =>
      simp only [List.nil_append, hsync, htime]
    | cons f before => rfl

theorem selectFrom_lt (target : ℕ) (b : Bool) {video : List Fragment} (hne : video ≠ [])
    (index duration selected : ℕ) (h : selected < index + video.length) :
    selectFrom target b video index duration selected < index + video.length := by
  induction video generalizing index duration selected with
  | nil => exact absurd rfl hne
  | cons f rest ih =>
    cases rest with
    | nil => exact Nat.lt_of_le_of_lt (Nat.zero_le index) (Nat.lt_succ_self index)
    | cons next rest =>
      have hgo : ∀ duration selected, selected < index + (f :: next :: rest).length →
          selectFrom target b (next :: rest) (index + 1) duration selected <
            index + (f :: next :: rest).length := by
        intro duration selected hselected
        have hsame : index + (f :: next :: rest).length = index + 1 + (next :: rest).length := by
          rw [List.length_cons]
          omega
        rw [hsame] at hselected ⊢
        exact ih (List.cons_ne_nil next rest) (index + 1) duration selected hselected
      have hone : index + 1 < index + (f :: next :: rest).length := by
        rw [List.length_cons, List.length_cons]
        omega
      rw [selectFrom]
      split_ifs
      all_goals
        first
          | exact hone
          | exact h
          | exact hgo _ _ hone
          | exact hgo _ _ h

theorem selectCueFrom_lt {first : ℤ} {target tolerance index k : ℕ} {queue : List Fragment}
    (h : r.selectCueFrom first target tolerance queue index = .ok k) (hk : k ≠ 0) :
    k < index + queue.length := by
  induction queue generalizing index with
  | nil =>
    cases h
    exact absurd rfl hk
  | cons f rest ih =>
    have hgo : r.selectCueFrom first target tolerance rest (index + 1) = .ok k →
        k < index + (f :: rest).length := by
      intro h
      have hlt := ih h
      rw [List.length_cons]
      omega
    rw [selectCueFrom] at h
    split at h
    · exact hgo h
    · obtain ⟨presentation, -, h⟩ := bind_eq_ok.mp h
      obtain ⟨u, -, h⟩ := bind_eq_ok.mp h
      obtain ⟨duration, -, h⟩ := bind_eq_ok.mp h
      split at h
      · exact hgo h
      · obtain ⟨u, -, h⟩ := bind_eq_ok.mp h
        cases h
        rw [List.length_cons]
        omega

/-- A fragment at least stays behind a cut of the video. -/
theorem selectVideoCount_lt {k : ℕ} (h : r.selectVideoCount = .ok k) (hk : k ≠ 0) : k < r.video.length := by
  unfold Reader.selectVideoCount at h
  split at h
  · cases h
    exact absurd rfl hk
  · next first rest hvideo =>
    obtain ⟨u, -, h⟩ := bind_eq_ok.mp h
    split at h
    · unfold Reader.selectCueVideoCount at h
      split at h
      · next hqueue =>
        obtain ⟨time, -, h⟩ := bind_eq_ok.mp h
        have hlt := selectCueFrom_lt h hk
        rw [hqueue, List.length_cons]
        omega
      · cases h
        exact absurd rfl hk
    · obtain ⟨target, -, h⟩ := bind_eq_ok.mp h
      cases h
      have hlength : 0 < r.video.length := by
        rw [hvideo]
        exact Nat.succ_pos _
      have hlt := selectFrom_lt target r.lagsBehind (List.length_pos_iff.mp hlength) 0 0 0 (by omega)
      omega

/-- No segment can be built. -/
def Calm (r : Reader) : Prop := r.tryBuildSegment = .ok (r, false)

theorem calm_iff : r.Calm ↔ r.selectVideoCount = .ok 0 ∨
    r.audioTrack.id ≠ 0 ∧ ∃ k audio, k ≠ 0 ∧ r.selectVideoCount = .ok k ∧
      r.selectAudioFrom (((r.video[k - 1]?).map Fragment.endTime).getD 0) r.audio = .ok (audio, 0) := by
  constructor
  · intro h
    rcases tryBuildSegment_cases h with
      ⟨-, -, hzero⟩ | ⟨k, hk, hne, ⟨-, -, hb⟩ | ⟨r₁, a, hid, hselect, hcase⟩⟩
    · exact Or.inl hzero
    · cases hb
    · rcases hcase with ⟨rfl, -, -⟩ | ⟨-, -, hb⟩
      · obtain ⟨audio, haudio, -⟩ := selectAudioCount_cases hselect
        exact Or.inr ⟨hid, k, audio, hne, hk, haudio⟩
      · cases hb
  · unfold Calm tryBuildSegment
    rintro (hzero | ⟨hid, k, audio, hne, hk, haudio⟩)
    · rw [hzero, ok_bind, if_pos rfl]
    · rw [hk, ok_bind, if_neg hne, if_pos hid]
      have hselect : r.selectAudioCount (((r.video[k - 1]?).map Fragment.endTime).getD 0) = .ok (r, 0) := by
        unfold selectAudioCount
        rw [haudio, ok_bind, selectAudioFrom_zero haudio]
      simp only [hselect, ok_bind]
      rfl

theorem Calm.same (hcalm : r.Calm) (h : SameChoice r r') : r'.Calm := by
  rw [calm_iff] at hcalm ⊢
  rw [h.selectVideoCount, h.audioTrack, h.audio]
  rcases hcalm with hzero | ⟨hid, k, audio, hne, hk, haudio⟩
  · exact Or.inl hzero
  · have hlt := selectVideoCount_lt hk hne
    have hend : r'.video[k - 1]? = r.video[k - 1]? := by
      rcases h.video with heq | ⟨before, x, y, hx, hy, -⟩
      · rw [heq]
      · rw [hx, List.length_append, List.length_singleton] at hlt
        rw [hx, hy, List.getElem?_append_left (by omega), List.getElem?_append_left (by omega)]
    refine Or.inr ⟨hid, k, audio, hne, hk, ?_⟩
    rw [hend, selectAudioFrom_congr h.videoTrack, haudio]

theorem calm_of_no_video (h : r.video = []) : r.Calm := by
  rw [calm_iff]
  unfold Reader.selectVideoCount
  rw [h]
  exact Or.inl rfl

/-! ### What is deferred -/

/-- The reader with this data deferred. -/
def deferring (deferred : List UInt8) (r : Reader) : Reader := { r with deferred }

theorem sameChoice_deferring (r : Reader) (deferred : List UInt8) : SameChoice r (r.deferring deferred) :=
  ⟨rfl, rfl, rfl, rfl, rfl, rfl, rfl, rfl, rfl, Or.inl rfl⟩

theorem reclaimPayloads_deferring (r : Reader) (deferred : List UInt8) :
    (r.deferring deferred).reclaimPayloads = r.reclaimPayloads.deferring deferred := by
  unfold reclaimPayloads
  show (if r.sourcePayload = [] then _ else _) = deferring deferred (if r.sourcePayload = [] then _ else _)
  split
  · rfl
  · simp only [deferring]
    split
    · rfl
    · split <;> rfl

/-- A call that gives what another one does, up to a change, goes on to what the other does. -/
theorem bind_of_map {ε α α' β γ : Type} {x : Except ε α} {x' : Except ε α'} {p : α → α'}
    {f : α → Except ε β} {f' : α' → Except ε γ} {g : β → γ} (hx : x' = x.map p)
    (h : ∀ a, f' (p a) = (f a).map g) : (x' >>= f') = (x >>= f).map g := by
  subst hx
  cases x with
  | error e => rfl
  | ok a => exact h a

theorem map_id_eq {ε α : Type} (x : Except ε α) : x = x.map id := by
  cases x <;> rfl

theorem buildSegment_deferring (r : Reader) (deferred : List UInt8) (k a : ℕ) (allow : Bool) :
    (r.deferring deferred).buildSegment k a allow = (r.buildSegment k a allow).map (deferring deferred) := by
  have hwrite : (r.deferring deferred).writeSegment = r.writeSegment := by
    funext video audio
    unfold writeSegment writeTraf segmentTimes
    rfl
  have hcheck : (r.deferring deferred).checkTracks = r.checkTracks := by
    funext video audio allow
    unfold checkTracks
    rfl
  have hvideo : (r.deferring deferred).video = r.video := rfl
  have haudio : (r.deferring deferred).audio = r.audio := rfl
  unfold buildSegment
  simp only [hwrite, hcheck, hvideo, haudio]
  refine bind_of_map (map_id_eq _) fun _ => ?_
  refine bind_of_map (map_id_eq _) fun _ => ?_
  refine bind_of_map (map_id_eq _) fun _ => ?_
  refine bind_of_map (map_id_eq _) fun written => ?_
  exact congrArg ok (reclaimPayloads_deferring
    (r.cutOff k a ⟨written.1, written.2.1, written.2.2, _, _⟩).resetPrefix deferred)

theorem selectAudioCount_deferring (r : Reader) (deferred : List UInt8) (videoEnd : ℕ) :
    (r.deferring deferred).selectAudioCount videoEnd =
      (r.selectAudioCount videoEnd).map (Prod.map (deferring deferred) id) := by
  have hsame := sameChoice_deferring r deferred
  unfold selectAudioCount
  rw [selectAudioFrom_congr hsame.videoTrack, hsame.audio]
  exact bind_of_map (map_id_eq _) fun _ => rfl

theorem tryBuildSegment_deferring (r : Reader) (deferred : List UInt8) :
    (r.deferring deferred).tryBuildSegment = r.tryBuildSegment.map (Prod.map (deferring deferred) id) := by
  have hsame := sameChoice_deferring r deferred
  unfold tryBuildSegment
  rw [hsame.selectVideoCount, hsame.audioTrack]
  refine bind_of_map (map_id_eq _) fun k => ?_
  rw [id]
  split
  · rfl
  · split
    · refine bind_of_map (selectAudioCount_deferring r deferred _) fun selected => ?_
      show (if selected.2 = 0 then _ else _) = Except.map _ (if selected.2 = 0 then _ else _)
      split
      · rfl
      · exact bind_of_map (buildSegment_deferring selected.1 deferred k selected.2 false) fun _ => rfl
    · exact bind_of_map (buildSegment_deferring r deferred k 0 false) fun _ => rfl

/-! ### All that can be built -/

theorem video_of_build {k a : ℕ} {allow : Bool} (h : r.buildSegment k a allow = .ok r') :
    r'.video.length = r.video.length - k := by
  obtain ⟨segment, -, -, -, -, rfl⟩ := buildSegment_cases h
  obtain ⟨start, sourcePayload, currentPayloadStart, hreclaim, -⟩ :=
    reclaimPayloads_cases (r.cutOff k a segment).resetPrefix
  rw [hreclaim]
  show ((r.video.drop k).map _).length = _
  rw [List.length_map, List.length_drop]

/-- A segment takes some of the video. -/
theorem tryBuildSegment_shortens (h : r.tryBuildSegment = .ok (r', true)) :
    r'.video.length < r.video.length := by
  rcases tryBuildSegment_cases h with
    ⟨hb, -⟩ | ⟨k, hk, hne, ⟨-, hbuild, -⟩ | ⟨r₁, a, -, hselect, hcase⟩⟩
  · cases hb
  · have hlt := selectVideoCount_lt hk hne
    rw [video_of_build hbuild]
    omega
  · rcases hcase with ⟨-, -, hb⟩ | ⟨-, hbuild, -⟩
    · cases hb
    · have hlt := selectVideoCount_lt hk hne
      obtain ⟨audio, -, rfl⟩ := selectAudioCount_cases hselect
      rw [video_of_build hbuild]
      show r.video.length - k < r.video.length
      omega

theorem tryBuildSegment_no_video (h : r.video = []) : r.tryBuildSegment = .ok (r, false) :=
  calm_of_no_video h

theorem buildAll_eq {fuel : ℕ} (h : r.video.length ≤ fuel) : buildAll fuel r = r.settle := by
  induction fuel using Nat.strong_induction_on generalizing r with
  | _ fuel ih =>
    unfold settle
    cases hlength : r.video.length with
    | zero =>
      cases fuel with
      | zero => rfl
      | succ fuel =>
        unfold buildAll
        rw [tryBuildSegment_no_video (List.length_eq_zero_iff.mp hlength)]
    | succ n =>
      obtain ⟨m, rfl⟩ : ∃ m, fuel = m + 1 := ⟨fuel - 1, by omega⟩
      unfold buildAll
      cases hbuild : r.tryBuildSegment with
      | error e => rfl
      | ok out =>
        obtain ⟨r₁, b⟩ := out
        cases b with
        | false => rfl
        | true =>
          have hlt := tryBuildSegment_shortens hbuild
          have hleft : ({ r₁ with newSegment := none } : Reader).video.length ≤ n := by
            show r₁.video.length ≤ n
            omega
          simp only
          rw [ih m (Nat.lt_succ_self m) (by omega), ih n (by omega) hleft]

theorem settle_eq (r : Reader) : r.settle =
    match r.tryBuildSegment with
    | .error e => ([], .error e)
    | .ok (r, false) => ([], .ok r)
    | .ok (r, true) => Outcome.prepend r.newSegment.toList (settle { r with newSegment := none }) := by
  rw [← buildAll_eq (Nat.le_succ r.video.length), buildAll]
  cases hbuild : r.tryBuildSegment with
  | error e => rfl
  | ok out =>
    obtain ⟨r₁, b⟩ := out
    cases b with
    | false => rfl
    | true =>
      have hlt := tryBuildSegment_shortens hbuild
      simp only
      rw [buildAll_eq]
      exact hlt.le

/-- What is left has nothing more to build. -/
theorem calm_of_settle {out : List Segment} (h : r.settle = (out, .ok r')) : r'.Calm := by
  induction hn : r.video.length using Nat.strong_induction_on generalizing r out with
  | _ n ih =>
    rw [settle_eq] at h
    cases hbuild : r.tryBuildSegment with
    | error e =>
      rw [hbuild] at h
      cases h
    | ok found =>
      rw [hbuild] at h
      obtain ⟨r₁, b⟩ := found
      cases b with
      | false =>
        have hsame := tryBuildSegment_false hbuild
        subst hsame
        cases h
        exact hbuild
      | true =>
        have hlt := tryBuildSegment_shortens hbuild
        obtain ⟨rest, hrest, -⟩ := Outcome.prepend_eq_ok h
        exact ih r₁.video.length (by omega) hrest rfl

/-! ### A stream, byte for byte -/

/-- Between two chunks: a header or a body is gone on with, and nothing waits to be taken. -/
structure Listening (r : Reader) : Prop where
  ready : r.Ready
  deferred : r.deferred = []
  newSegment : r.newSegment = none

theorem ready_finishBox (h : r.finishBox = .ok (r', b)) : r'.Ready := by
  unfold finishBox at h
  split at h
  · obtain ⟨⟨r₁, completed⟩, -, hreset⟩ := bind_eq_ok.mp h
    cases hreset
    exact Or.inl (Nat.succ_pos 7)
  · next hmore =>
    cases h
    exact Or.inr hmore

theorem ready_finishHeader (hfull : r.boxHeader.length = r.boxHeaderRequired)
    (h : r.finishHeader = .ok (r', b)) : r'.Ready := by
  unfold finishHeader at h
  split at h
  · next hrequired =>
    simp only at h
    split at h
    · cases h
      have hshort : r.boxHeader.length < 16 := by omega
      exact Or.inl hshort
    · obtain ⟨u, -, h⟩ := bind_eq_ok.mp h
      obtain ⟨r₁, -, h⟩ := bind_eq_ok.mp h
      exact ready_finishBox h
  · obtain ⟨r₁, -, h⟩ := bind_eq_ok.mp h
    exact ready_finishBox h

theorem newSegment_finishBox (h : r.finishBox = .ok (r', false)) : r'.newSegment = r.newSegment := by
  unfold finishBox at h
  split at h
  · obtain ⟨⟨r₁, completed⟩, hcomplete, hreset⟩ := bind_eq_ok.mp h
    cases hreset
    show r₁.newSegment = r.newSegment
    rcases completeBox_cases hcomplete with ⟨-, -, -, hclose⟩ | ⟨-, -, hmoof⟩ | ⟨-, r₂, hmdat, hbuild⟩
    · obtain ⟨_, _, _, _, _, rfl⟩ := hclose
      rfl
    · obtain ⟨_, _, _, _, _, _, _, -, -, rfl⟩ := completeMoof_cases hmoof
      rfl
    · rw [tryBuildSegment_false hbuild]
      obtain ⟨_, _, -, -, ⟨-, rfl⟩ | ⟨-, -, rfl⟩⟩ := completeMdat_cases hmdat <;> rfl
  · cases h
    rfl

theorem newSegment_finishHeader (h : r.finishHeader = .ok (r', false)) : r'.newSegment = r.newSegment := by
  obtain ⟨r₁, hopen, hcase⟩ := finishHeader_cases h
  have hbegins : ∀ {r₀ : Reader}, r₀.begins r₁ → r₁.newSegment = r₀.newSegment := by
    intro r₀ hbegins
    rcases hbegins with ⟨-, -, rfl⟩ | ⟨-, -, _, rfl⟩ | ⟨-, -, _, _, _, _, _, -, rfl⟩ <;> rfl
  have hfirst : r₁.newSegment = r.newSegment := by
    rcases openBox_cases hopen with ⟨-, kind, rfl⟩ | ⟨kind, size, headerSize, hbegin⟩
    · rfl
    · obtain ⟨-, ⟨-, -, -, rfl⟩ | ⟨-, _, _, _, hcase⟩ | ⟨-, hcase⟩⟩ := beginBox_cases hbegin
      · rfl
      · have hsame := hbegins hcase
        exact hsame
      · have hsame := hbegins hcase
        exact hsame
  rcases hcase with ⟨rfl, -⟩ | ⟨-, hfinish⟩
  · exact hfirst
  · rw [newSegment_finishBox hfinish, hfirst]

/-- A byte that is read in the header or the body of a box. -/
theorem readByte_cases {byte : UInt8} (hready : r.Ready) (h : r.readByte byte = .ok (r', b)) :
    (b = false ∧ r.boxHeader.length + 1 < r.boxHeaderRequired ∧
        r' = { r with boxHeader := r.boxHeader ++ [byte] }) ∨
      (r.boxHeader.length + 1 = r.boxHeaderRequired ∧
        finishHeader { r with boxHeader := r.boxHeader ++ [byte] } = .ok (r', b)) ∨
      (¬r.InHeader ∧ r.currentBoxRemaining ≠ 0 ∧ (r.storeByte byte).finishBox = .ok (r', b)) := by
  rw [readByte_eq hready] at h
  split at h
  · next hin =>
    split at h
    · next hmore =>
      cases h
      exact Or.inl ⟨rfl, hmore, rfl⟩
    · exact Or.inr (Or.inl ⟨by omega, h⟩)
  · next hout => exact Or.inr (Or.inr ⟨hout, hready.resolve_left hout, h⟩)

/-- What a byte is stored in says nothing of the rest. -/
theorem storeByte_same (r : Reader) (byte : UInt8) :
    SameChoice r (r.storeByte byte) ∧ (r.storeByte byte).newSegment = r.newSegment ∧
      (r.storeByte byte).deferred = r.deferred ∧ (r.storeByte byte).initDone = r.initDone := by
  unfold storeByte writeCurrentBoxData
  split <;> exact ⟨⟨rfl, rfl, rfl, rfl, rfl, rfl, rfl, rfl, rfl, Or.inl rfl⟩, rfl, rfl, rfl⟩

theorem readByte_listens {byte : UInt8} (hready : r.Ready) (h : r.readByte byte = .ok (r', b)) :
    r'.Ready ∧ r'.deferred = r.deferred ∧ (b = false → r'.newSegment = r.newSegment) := by
  rcases readByte_cases hready h with ⟨-, hmore, rfl⟩ | ⟨hfull, hfinish⟩ | ⟨-, -, hfinish⟩
  · refine ⟨Or.inl ?_, rfl, fun _ => rfl⟩
    show (r.boxHeader ++ [byte]).length < r.boxHeaderRequired
    rwa [List.length_append, List.length_singleton]
  · have hlength : (r.boxHeader ++ [byte]).length = r.boxHeaderRequired := by
      rwa [List.length_append, List.length_singleton]
    have hready' := ready_finishHeader hlength hfinish
    have hdeferred := deferred_finishHeader hfinish
    refine ⟨hready', hdeferred, fun hb => ?_⟩
    subst hb
    have hnew := newSegment_finishHeader hfinish
    exact hnew
  · obtain ⟨-, hnew, hdeferred, -⟩ := storeByte_same r byte
    refine ⟨ready_finishBox hfinish, (deferred_finishBox hfinish).trans hdeferred, fun hb => ?_⟩
    subst hb
    exact (newSegment_finishBox hfinish).trans hnew

theorem Listening.readByte {byte : UInt8} (h : r.Listening) (hbyte : r.readByte byte = .ok (r', b)) :
    Listening { r' with newSegment := none } ∧ (b = false → r'.Listening) := by
  obtain ⟨hready, hdeferred, hnew⟩ := readByte_listens h.ready hbyte
  exact ⟨⟨hready, hdeferred.trans h.deferred, rfl⟩,
    fun hb => ⟨hready, hdeferred.trans h.deferred, (hnew hb).trans h.newSegment⟩⟩

theorem Listening.build (h : r.Listening) (hbuild : r.tryBuildSegment = .ok (r', true)) :
    Listening { r' with newSegment := none } := by
  have hsame := (tryBuildSegment_sameBox hbuild).1
  refine ⟨?_, hsame.deferred.trans h.deferred, rfl⟩
  show r'.boxHeader.length < r'.boxHeaderRequired ∨ r'.currentBoxRemaining ≠ 0
  rw [hsame.boxHeader, hsame.boxHeaderRequired, hsame.currentBoxRemaining]
  exact h.ready

theorem Listening.settle {out : List Segment} (h : r.Listening) (hsettle : r.settle = (out, .ok r')) :
    r'.Listening := by
  induction hn : r.video.length using Nat.strong_induction_on generalizing r out with
  | _ n ih =>
    rw [settle_eq] at hsettle
    cases hbuild : r.tryBuildSegment with
    | error e =>
      rw [hbuild] at hsettle
      cases hsettle
    | ok found =>
      rw [hbuild] at hsettle
      obtain ⟨r₁, b⟩ := found
      cases b with
      | false =>
        have hsame := tryBuildSegment_false hbuild
        subst hsame
        cases hsettle
        exact h
      | true =>
        have hlt := tryBuildSegment_shortens hbuild
        obtain ⟨rest, hrest, -⟩ := Outcome.prepend_eq_ok hsettle
        exact ih r₁.video.length (by omega) (h.build hbuild) hrest rfl

/-- What is known of data that has been processed: it was read byte for byte, and what follows a
segment is left. -/
def Consumed (r : Reader) (data : List UInt8) : Except ReaderError (Reader × List UInt8 × Bool) → Prop
  | .error e => r.consume data = ([], .error e)
  | .ok (r', rest, false) => rest = [] ∧ r'.Listening ∧ r.consume data = ([], .ok r')
  | .ok (r', rest, true) => rest.length < data.length ∧ Listening { r' with newSegment := none } ∧
    r.consume data = Outcome.prepend r'.newSegment.toList
      ((settle { r' with newSegment := none }).andThen fun r => r.consume rest)

theorem Consumed.cons {byte : UInt8} {data : List UInt8} {x : Except ReaderError (Reader × List UInt8 × Bool)}
    (hbyte : r.consume (byte :: data) = r'.consume data) (h : Consumed r' data x) :
    Consumed r (byte :: data) x := by
  cases x with
  | error e => exact hbyte.trans h
  | ok out =>
    obtain ⟨r₁, rest, completed⟩ := out
    cases completed with
    | false => exact ⟨h.1, h.2.1, hbyte.trans h.2.2⟩
    | true => exact ⟨h.1.trans (Nat.lt_succ_self _), h.2.1, hbyte.trans h.2.2⟩

theorem consumed_processBytes (h : r.Listening) (data : List UInt8) : Consumed r data (r.processBytes data) := by
  induction data generalizing r with
  | nil => exact ⟨rfl, h, rfl⟩
  | cons byte data ih =>
    rw [processBytes_cons h.ready]
    cases hbyte : r.readByte byte with
    | error e =>
      show r.consume (byte :: data) = ([], .error e)
      rw [consume, hbyte]
    | ok out =>
      obtain ⟨r₁, completed⟩ := out
      obtain ⟨hafter, hplain⟩ := h.readByte hbyte
      cases completed with
      | true =>
        refine ⟨Nat.lt_succ_self _, hafter, ?_⟩
        rw [consume, hbyte]
      | false =>
        refine Consumed.cons ?_ (ih (hplain rfl))
        rw [consume, hbyte]

/-! ### A chunk is read as its bytes are -/

/-- As long as segments can be built they are asked for first. -/
theorem drains_settle {deferred : List UInt8} (h : r.Listening)
    (hnext : ∀ r', Listening r' → Calm r' → Drains (r'.deferring deferred) (r'.consume deferred)) :
    Drains (r.deferring deferred) (r.settle.andThen fun r => r.consume deferred) := by
  induction hn : r.video.length using Nat.strong_induction_on generalizing r with
  | _ n ih =>
    have hbuild' := tryBuildSegment_deferring r deferred
    rw [settle_eq]
    cases hbuild : r.tryBuildSegment with
    | error e =>
      refine Drains.failed ?_
      unfold tryProcessDeferred
      rw [hbuild', hbuild]
      rfl
    | ok found =>
      obtain ⟨r₁, b⟩ := found
      cases b with
      | false =>
        have hsame := tryBuildSegment_false hbuild
        subst hsame
        exact hnext r₁ h hbuild
      | true =>
        have hlt := tryBuildSegment_shortens hbuild
        have hmore : (r.deferring deferred).tryProcessDeferred = .ok (r₁.deferring deferred, true) := by
          unfold tryProcessDeferred
          rw [hbuild', hbuild]
          rfl
        simp only [Outcome.prepend_andThen]
        exact @Drains.more _ (r₁.deferring deferred) _ hmore
          (ih r₁.video.length (by omega) (h.build hbuild) rfl)

theorem Calm.deferring (h : r.Calm) (deferred : List UInt8) : (r.deferring deferred).Calm := by
  unfold Calm
  rw [tryBuildSegment_deferring, h]
  rfl

theorem Listening.deferring_nil (h : r.Listening) : r.deferring [] = r := by
  have hnone := h.deferred
  unfold Reader.deferring
  rw [← hnone]

/-- Where no segment can be built, what was deferred is processed. -/
theorem tryProcessDeferred_calm (hcalm : r.Calm) :
    r.tryProcessDeferred =
      if r.deferred = [] then .ok (r, false)
      else (r.deferring []).processBytes r.deferred >>= fun out =>
        if out.2.2 then .ok (out.1.deferring out.2.1, true)
        else failIf (out.2.1 ≠ []) (other
          s!"mp4 parser consumed {r.deferred.length - out.2.1.length} of {r.deferred.length} deferred bytes") >>=
            fun _ => .ok (out.1, false) := by
  unfold tryProcessDeferred
  rw [hcalm]
  rfl

theorem drains_calm (h : r.Listening) (hcalm : r.Calm) (deferred : List UInt8) :
    Drains (r.deferring deferred) (r.consume deferred) := by
  induction hn : deferred.length using Nat.strong_induction_on generalizing r deferred with
  | _ n ih =>
    have htry := tryProcessDeferred_calm (hcalm.deferring deferred)
    by_cases hne : deferred = []
    · subst hne
      rw [h.deferring_nil] at htry ⊢
      rw [if_pos h.deferred] at htry
      exact Drains.stopped htry
    · have hsame : (r.deferring deferred).deferring [] = r := h.deferring_nil
      have hall : (r.deferring deferred).deferred = deferred := rfl
      rw [hsame, hall, if_neg hne] at htry
      have hconsumed := consumed_processBytes h deferred
      cases hbytes : r.processBytes deferred with
      | error e =>
        rw [hbytes] at htry hconsumed
        rw [show r.consume deferred = ([], .error e) from hconsumed]
        exact Drains.failed htry
      | ok out =>
        rw [hbytes] at htry hconsumed
        obtain ⟨r₁, rest, completed⟩ := out
        cases completed with
        | false =>
          obtain ⟨rfl, -, hconsume⟩ := hconsumed
          rw [hconsume]
          exact Drains.stopped htry
        | true =>
          obtain ⟨hlt, hlistening, hconsume⟩ := hconsumed
          rw [hconsume]
          refine @Drains.more _ (r₁.deferring rest) _ htry ?_
          exact drains_settle hlistening fun r' hr' hcalm' => ih rest.length (by omega) hr' hcalm' rest rfl

/-- A chunk that is pushed to a reader that can build nothing. -/
theorem push_calm (h : r.Listening) (hcalm : r.Calm) {chunk : List UInt8} (hne : chunk ≠ []) :
    r.push chunk = r.processBytes chunk >>= fun out =>
      .ok (if out.2.2 then out.1.deferring (out.1.deferred ++ out.2.1) else out.1) := by
  unfold push
  rw [if_neg hne, tryProcessDeferred_calm hcalm, if_pos h.deferred]
  rfl

theorem Listening.taken (h : r.Listening) : ({ r with newSegment := none } : Reader) = r := by
  have hnone := h.newSegment
  rw [← hnone]

/-- A chunk after which nothing can be built: it is pushed, and what it completes taken. -/
theorem push_drains (h : r.Listening) (hcalm : r.Calm) (chunk : List UInt8)
    (hend : ∀ out r', r.consume chunk = (out, .ok r') → r'.Calm) :
    (∃ e, r.push chunk = .error e ∧ r.consume chunk = ([], .error e)) ∨
      ∃ r₁ o, r.push chunk = .ok r₁ ∧ Drains { r₁ with newSegment := none } o ∧
        r.consume chunk = Outcome.prepend r₁.newSegment.toList o := by
  have hplain : ∀ r₁, Listening r₁ → Calm r₁ → Drains { r₁ with newSegment := none } ([], .ok r₁) := by
    intro r₁ hr₁ hcalm₁
    have hdrains := drains_calm hr₁ hcalm₁ []
    rw [hr₁.deferring_nil] at hdrains
    rw [hr₁.taken]
    exact hdrains
  by_cases hne : chunk = []
  · subst hne
    refine Or.inr ⟨r, ([], .ok r), rfl, hplain r h hcalm, ?_⟩
    rw [h.newSegment]
    rfl
  · have hpush := push_calm h hcalm hne
    have hconsumed := consumed_processBytes h chunk
    cases hbytes : r.processBytes chunk with
    | error e =>
      rw [hbytes] at hpush hconsumed
      exact Or.inl ⟨e, hpush, hconsumed⟩
    | ok found =>
      rw [hbytes] at hpush hconsumed
      obtain ⟨r₁, rest, completed⟩ := found
      cases completed with
      | false =>
        obtain ⟨-, hlistening, hconsume⟩ := hconsumed
        refine Or.inr ⟨r₁, ([], .ok r₁), hpush, hplain r₁ hlistening (hend [] r₁ hconsume), ?_⟩
        rw [hlistening.newSegment, hconsume]
        rfl
      | true =>
        obtain ⟨-, hlistening, hconsume⟩ := hconsumed
        have hdeferred : r₁.deferred ++ rest = rest := by
          rw [show r₁.deferred = [] from hlistening.deferred, List.nil_append]
        refine Or.inr ⟨r₁.deferring rest, _, hpush.trans ?_, ?_, hconsume⟩
        · show Except.ok (r₁.deferring (r₁.deferred ++ rest)) = _
          rw [hdeferred]
        · exact drains_settle hlistening fun r' hr' hcalm' => drains_calm hr' hcalm' rest

theorem Listening.consume {data : List UInt8} {out : List Segment} (h : r.Listening)
    (hconsume : r.consume data = (out, .ok r')) : r'.Listening := by
  induction data generalizing r out with
  | nil =>
    cases hconsume
    exact h
  | cons byte data ih =>
    rw [Reader.consume] at hconsume
    cases hbyte : r.readByte byte with
    | error e =>
      rw [hbyte] at hconsume
      cases hconsume
    | ok found =>
      rw [hbyte] at hconsume
      obtain ⟨r₁, completed⟩ := found
      obtain ⟨hafter, hplain⟩ := h.readByte hbyte
      cases completed with
      | false => exact ih (hplain rfl) hconsume
      | true =>
        obtain ⟨rest, hrest, -⟩ := Outcome.prepend_eq_ok hconsume
        obtain ⟨first, r₂, more, hsettle, hmore, -⟩ := Outcome.andThen_eq_ok hrest
        exact ih (hafter.settle hsettle) hmore

/-- Where nothing can be built at the end of any chunk, the chunks are read as their bytes are. -/
theorem feeds_consume {chunks : List (List UInt8)} (h : r.Listening) (hcalm : r.Calm)
    (hends : ∀ p out r', p <+: chunks.flatten → r.consume p = (out, .ok r') → r'.Calm) :
    Feeds r chunks (r.consume chunks.flatten) := by
  induction chunks generalizing r with
  | nil => exact Feeds.done
  | cons chunk rest ih =>
    have hend : ∀ out r', r.consume chunk = (out, .ok r') → r'.Calm := fun out r' hconsume =>
      hends chunk out r' (List.prefix_append _ _) hconsume
    rw [List.flatten_cons, consume_append]
    rcases push_drains h hcalm chunk hend with
      ⟨e, hpush, hconsume⟩ | ⟨r₁, ⟨out, result⟩, hpush, hdrains, hconsume⟩
    · rw [hconsume]
      exact Feeds.failed hpush
    · rw [hconsume]
      cases result with
      | error e => exact Feeds.stuck hpush hdrains
      | ok r₂ =>
        refine Feeds.pushed hpush hdrains ?_
        refine ih (h.consume hconsume) (hend _ _ hconsume) fun p out' r' hp hconsume' => ?_
        refine hends (chunk ++ p) (r₁.newSegment.toList ++ out ++ out') r' ?_ ?_
        · rw [List.flatten_cons]
          exact List.prefix_append_right_inj chunk |>.mpr hp
        · rw [consume_append, hconsume]
          show Outcome.prepend _ (r₂.consume p) = _
          rw [hconsume']
          rfl

/-! ### Where nothing can be built -/

/-- The last of the audio has a duration that was told, not one that was guessed. -/
def Exact (r : Reader) : Prop := ∀ f, r.audio.getLast? = some f → f.hasInferredDuration = false

theorem Calm.finishBox (hcalm : r.Calm) (hexact : r.Exact) (h : r.finishBox = .ok (r', false)) :
    r'.Calm := by
  unfold Reader.finishBox at h
  split at h
  · obtain ⟨⟨r₁, completed⟩, hcomplete, hreset⟩ := bind_eq_ok.mp h
    cases hreset
    have hreset : SameChoice r₁ r₁.resetBoxState := ⟨rfl, rfl, rfl, rfl, rfl, rfl, rfl, rfl, rfl, Or.inl rfl⟩
    rcases completeBox_cases hcomplete with ⟨-, -, -, hclose⟩ | ⟨-, -, hmoof⟩ | ⟨-, r₂, hmdat, hbuild⟩
    · obtain ⟨_, _, _, _, _, rfl⟩ := hclose
      exact hcalm.same ⟨rfl, rfl, rfl, rfl, rfl, rfl, rfl, rfl, rfl, Or.inl rfl⟩
    · refine Calm.same ?_ hreset
      obtain ⟨fragment, video, audio, _, _, _, _, -, hqueues, rfl⟩ := completeMoof_cases hmoof
      refine hcalm.same ⟨rfl, rfl, rfl, rfl, rfl, rfl, rfl, rfl, ?_, ?_⟩
      · show audio = r.audio
        rcases hqueues with ⟨-, haudio, -⟩ | ⟨-, -, -, hint, haudio⟩ | ⟨-, -, -, haudio⟩
        · exact haudio
        · rcases resolveQueue_cases haudio with ⟨haudio, -⟩ | ⟨before, previous, _, _, hqueue, hinferred, -⟩
          · exact haudio
          · have hlast : r.audio.getLast? = some previous := by
              rw [hqueue]
              exact List.getLast?_concat
            rw [hexact previous hlast] at hinferred
            cases hinferred
        · exact haudio
      · show video = r.video ∨ _
        rcases hqueues with ⟨-, -, hint, hvideo⟩ | ⟨-, -, hvideo, -⟩ | ⟨-, -, hvideo, -⟩
        · rcases resolveQueue_cases hvideo with
            ⟨hvideo, -⟩ | ⟨before, previous, settled, _, hqueue, -, hsettle, hvideo⟩
          · exact Or.inl hvideo
          · have htime := firstPresentationTime_settled hsettle
            obtain ⟨-, -, ⟨_, _, rfl⟩, -⟩ := resolveInferredDuration_ok hsettle
            exact Or.inr ⟨before, previous, _, hqueue, hvideo, rfl, rfl, htime⟩
        · exact Or.inl hvideo
        · exact Or.inl hvideo
    · have hsame := tryBuildSegment_false hbuild
      subst hsame
      exact Calm.same hbuild hreset
  · cases h
    exact hcalm

/-- A box that begins changes nothing of the choice, or nothing is queued yet. -/
theorem openBox_same (hqueued : r.Queued) (h : r.openBox = .ok r') :
    SameChoice r r' ∨ r'.video = [] ∧ r'.audio = [] := by
  have hbegins : ∀ {r₀ : Reader}, r₀.begins r' → SameChoice r₀ r' := by
    intro r₀ hbegins
    rcases hbegins with ⟨-, -, rfl⟩ | ⟨-, -, _, rfl⟩ | ⟨-, -, _, _, _, _, _, -, rfl⟩ <;>
      exact ⟨rfl, rfl, rfl, rfl, rfl, rfl, rfl, rfl, rfl, Or.inl rfl⟩
  rcases openBox_cases h with ⟨-, kind, rfl⟩ | ⟨kind, size, headerSize, hbegin⟩
  · exact Or.inl ⟨rfl, rfl, rfl, rfl, rfl, rfl, rfl, rfl, rfl, Or.inl rfl⟩
  · obtain ⟨-, ⟨-, -, -, rfl⟩ | ⟨hfresh, _, _, _, hcase⟩ | ⟨-, hcase⟩⟩ := beginBox_cases hbegin
    · exact Or.inl ⟨rfl, rfl, rfl, rfl, rfl, rfl, rfl, rfl, rfl, Or.inl rfl⟩
    · obtain ⟨hvideo, haudio, -⟩ := hqueued.fresh hfresh
      have hsame := hbegins hcase
      refine Or.inr ⟨?_, hsame.audio.trans haudio⟩
      rcases hsame.video with heq | ⟨before, x, y, hx, -⟩
      · exact heq.trans hvideo
      · have hnone : r.video = before ++ [x] := hx
        rw [hvideo] at hnone
        exact absurd hnone.symm (List.append_ne_nil_of_right_ne_nil before (List.cons_ne_nil x []))
    · have hsame := hbegins hcase
      exact Or.inl ⟨hsame.segmentSeconds, hsame.segmentDiff, hsame.cueMode, hsame.targetSegment,
        hsame.lastVideoEndTime, hsame.completedVideoSegments, hsame.videoTrack, hsame.audioTrack, hsame.audio,
        hsame.video⟩

theorem Exact.same (hexact : r.Exact) (h : SameChoice r r') : r'.Exact := by
  unfold Exact
  rw [h.audio]
  exact hexact

theorem exact_of_no_audio (h : r.audio = []) : r.Exact := by
  intro f hf
  rw [h] at hf
  cases hf

theorem Calm.readByte {byte : UInt8} (hcalm : r.Calm) (hexact : r.Exact) (hqueued : r.Queued)
    (hready : r.Ready) (h : r.readByte byte = .ok (r', false)) : r'.Calm := by
  rcases readByte_cases hready h with ⟨-, -, rfl⟩ | ⟨-, hfinish⟩ | ⟨-, -, hfinish⟩
  · exact hcalm.same ⟨rfl, rfl, rfl, rfl, rfl, rfl, rfl, rfl, rfl, Or.inl rfl⟩
  · have hheader : SameChoice r { r with boxHeader := r.boxHeader ++ [byte] } :=
      ⟨rfl, rfl, rfl, rfl, rfl, rfl, rfl, rfl, rfl, Or.inl rfl⟩
    have hqueued' : Queued { r with boxHeader := r.boxHeader ++ [byte] } :=
      ⟨hqueued.fresh, hqueued.video, hqueued.audio, hqueued.pending⟩
    obtain ⟨r₁, hopen, hcase⟩ := finishHeader_cases hfinish
    have hfirst : r₁.Calm ∧ r₁.Exact := by
      rcases openBox_same hqueued' hopen with hsame | ⟨hvideo, haudio⟩
      · exact ⟨(hcalm.same hheader).same hsame, (hexact.same hheader).same hsame⟩
      · exact ⟨calm_of_no_video hvideo, exact_of_no_audio haudio⟩
    rcases hcase with ⟨rfl, -⟩ | ⟨-, hbox⟩
    · exact hfirst.1
    · exact hfirst.1.finishBox hfirst.2 hbox
  · have hsame := (storeByte_same r byte).1
    exact (hcalm.same hsame).finishBox (hexact.same hsame) hfinish

theorem leads_readByte {byte : UInt8} (h : r.readByte byte = .ok (r', b)) : r.Leads r' := by
  unfold Reader.readByte at h
  obtain ⟨⟨r₁, rest, completed⟩, hbytes, h⟩ := bind_eq_ok.mp h
  cases h
  exact leads_processUpTo hbytes

theorem leads_settle {out : List Segment} (h : r.settle = (out, .ok r')) : r.Leads r' := by
  induction hn : r.video.length using Nat.strong_induction_on generalizing r out with
  | _ n ih =>
    rw [settle_eq] at h
    cases hbuild : r.tryBuildSegment with
    | error e =>
      rw [hbuild] at h
      cases h
    | ok found =>
      rw [hbuild] at h
      obtain ⟨r₁, b⟩ := found
      have hfirst := leads_tryBuildSegment hbuild
      cases b with
      | false =>
        cases h
        exact hfirst
      | true =>
        have hlt := tryBuildSegment_shortens hbuild
        obtain ⟨rest, hrest, -⟩ := Outcome.prepend_eq_ok h
        exact (hfirst.trans Step.taken.leads).trans (ih r₁.video.length (by omega) hrest rfl)

/-- Where the audio told all its durations, nothing can be built at any byte that completed nothing. -/
theorem Calm.consume {data : List UInt8} {out : List Segment} (hcalm : r.Calm) (hreach : r.Reachable)
    (h : r.Listening)
    (hexact : ∀ p out r', p <+: data → p ≠ data → r.consume p = (out, .ok r') → r'.Exact)
    (hconsume : r.consume data = (out, .ok r')) : r'.Calm := by
  induction data generalizing r out with
  | nil =>
    cases hconsume
    exact hcalm
  | cons byte data ih =>
    have hfirst : r.Exact :=
      hexact [] [] r List.nil_prefix (List.cons_ne_nil byte data).symm rfl
    have hstep : ∀ p, p <+: data → p ≠ data → byte :: p <+: byte :: data ∧ byte :: p ≠ byte :: data :=
      fun p hp hne => ⟨List.prefix_cons_inj byte |>.mpr hp, fun heq => hne (List.cons.inj heq).2⟩
    cases hbyte : r.readByte byte with
    | error e =>
      rw [Reader.consume, hbyte] at hconsume
      cases hconsume
    | ok found =>
      obtain ⟨r₁, completed⟩ := found
      obtain ⟨hafter, hplain⟩ := h.readByte hbyte
      have hleads := leads_readByte hbyte
      cases completed with
      | false =>
        have hsame : ∀ p, r.consume (byte :: p) = r₁.consume p := by
          intro p
          rw [Reader.consume, hbyte]
        rw [hsame] at hconsume
        refine ih (hcalm.readByte hfirst hreach.queued h.ready hbyte) (hreach.leads hleads) (hplain rfl) ?_ hconsume
        intro p out r' hp hne hconsume'
        obtain ⟨hp', hne'⟩ := hstep p hp hne
        exact hexact (byte :: p) out r' hp' hne' (by rw [hsame, hconsume'])
      | true =>
        have hsame : ∀ p, r.consume (byte :: p) = Outcome.prepend r₁.newSegment.toList
            ((settle { r₁ with newSegment := none }).andThen fun r => r.consume p) := by
          intro p
          rw [Reader.consume, hbyte]
        rw [hsame] at hconsume
        obtain ⟨rest, hrest, -⟩ := Outcome.prepend_eq_ok hconsume
        obtain ⟨first, r₂, more, hsettle, hmore, -⟩ := Outcome.andThen_eq_ok hrest
        refine ih (calm_of_settle hsettle)
          (hreach.leads ((hleads.trans Step.taken.leads).trans (leads_settle hsettle)))
          (hafter.settle hsettle) ?_ hmore
        intro p out r' hp hne hconsume'
        obtain ⟨hp', hne'⟩ := hstep p hp hne
        refine hexact (byte :: p) (r₁.newSegment.toList ++ (first ++ out)) r' hp' hne' ?_
        rw [hsame, hsettle]
        show Outcome.prepend _ (Outcome.prepend _ (r₂.consume p)) = _
        rw [hconsume']
        rfl

/-! ### Chunks -/

theorem Blank.reachable (h : r.Blank) : r.Reachable := ⟨r, h, Leads.refl r⟩

theorem Blank.calm (h : r.Blank) : r.Calm := calm_of_no_video h.video

theorem Blank.listening (h : r.Blank) (hnew : r.newSegment = none) : r.Listening := by
  refine ⟨Or.inl ?_, h.deferred, hnew⟩
  unfold InHeader
  rw [h.boxHeader, h.boxHeaderRequired]
  decide

/-- What a prefix of a stream leaves, pushed at once, is what its bytes leave. -/
theorem exact_of_feeds (hreach : r.Reachable) (hcalm : r.Calm) (h : r.Listening) {data : List UInt8}
    (hexact : ∀ p out r', p <+: data → Feeds r [p] (out, .ok r') → r'.Exact) (p : List UInt8)
    (out : List Segment) (r' : Reader) (hp : p <+: data) (hconsume : r.consume p = (out, .ok r')) :
    r'.Exact := by
  induction hn : p.length using Nat.strong_induction_on generalizing p out r' with
  | _ n ih =>
    have hbefore : ∀ q, q <+: p → ∀ out₁ r₁, r.consume q = (out₁, .ok r₁) → r₁.Calm := by
      intro q hq out₁ r₁ hconsume₁
      refine hcalm.consume hreach h (fun q' out₂ r₂ hq' hne hconsume₂ => ?_) hconsume₁
      have hlt : q'.length < q.length :=
        lt_of_le_of_ne hq'.length_le fun heq => hne (hq'.eq_of_length heq)
      have hle := hq.length_le
      exact ih q'.length (by omega) q' out₂ r₂ (hq'.trans (hq.trans hp)) hconsume₂ rfl
    have hone : [p].flatten = p := List.flatten_singleton
    have hfeeds : Feeds r [p] (r.consume [p].flatten) :=
      feeds_consume h hcalm fun q out₁ r₁ hq hconsume₁ => hbefore q (hone ▸ hq) out₁ r₁ hconsume₁
    rw [hone, hconsume] at hfeeds
    exact hexact p out r' hp hfeeds

/-- What comes of a stream that is pushed at once, where all its bytes leave the audio told. -/
theorem feeds_iff_consume (hblank : r.Blank) (hnew : r.newSegment = none) {stream : List UInt8}
    (hexact : ∀ p out r', p <+: stream → r.consume p = (out, .ok r') → r'.Exact)
    (chunks : List (List UInt8)) (hchunks : chunks.flatten <+: stream) (o : Outcome) :
    Feeds r chunks o ↔ o = r.consume chunks.flatten := by
  have h := hblank.listening hnew
  have hfeeds : Feeds r chunks (r.consume chunks.flatten) := by
    refine feeds_consume h hblank.calm fun p out r' hp hconsume => ?_
    refine hblank.calm.consume hblank.reachable h (fun q out r' hq _ hconsume' => ?_) hconsume
    exact hexact q out r' (hq.trans (hp.trans hchunks)) hconsume'
  constructor
  · exact fun ho => ho.unique hfeeds
  · rintro rfl
    exact hfeeds

/-- Two seconds of video: one is cut off. -/
def twoSeconds : List UInt8 := videoInit 1000 ++ mediaOf 1 0 [second] [7] ++ mediaOf 1 1000 [second] [8]

end Reader

end Rustorr.Mp4
