import Rustorr.Domain
import Rustorr.Lib.Mealy
import Mathlib.Data.List.Basic

/-! Reads of an open file of the mount (`read_at`): one reader kept with the position it is
believed to be at. -/

namespace Rustorr

structure PlaybackRequest where
  hash : InfoHash
  index : ℕ
  offset : ℕ
  end_ : Option ℕ
  prefetchOffset : Option ℕ
  deriving DecidableEq

namespace Fuse

inductive IoError
  | playback
  | reader
  deriving DecidableEq

/-- What the reader does when it is asked for bytes. Playback readers fail in two ways: before they
take anything, and after it, when the demand is not recorded. -/
inductive Poll
  | fails (taken : ℕ)
  | gives (count : ℕ)
  deriving DecidableEq

/-- A call, with what the core and the reader do in it. Once its polls are used up the reader gives
what it is asked for. -/
structure Call where
  offset : ℕ
  size : ℕ
  opens : PlaybackRequest → Bool
  polls : List Poll

/-- An open file: its torrent file and a reader, at its true place, kept with a position. -/
structure OpenFile where
  hash : InfoHash
  index : ℕ
  size : ℕ
  reader : Option (ℕ × ℕ)
  deriving DecidableEq

/-- The reader is asked until there is no more room, it has no more to give, or it fails. -/
def fill (file : List UInt8) : List Poll → ℕ → ℕ → List UInt8 → Except IoError (List UInt8) × ℕ
  | [], place, room, filled =>
    let bytes := (file.drop place).take room
    (.ok (filled ++ bytes), place + bytes.length)
  | poll :: polls, place, room, filled =>
    if room = 0 then (.ok filled, place)
    else match poll with
      | .fails taken => (.error .reader, place + taken)
      | .gives count =>
        let bytes := (file.drop place).take (min count room)
        if bytes = [] then (.ok filled, place)
        else fill file polls (place + bytes.length) (room - bytes.length) (filled ++ bytes)

namespace OpenFile

/-- The reader and its position for a call: the one at hand, or one opened at the offset. -/
def readerFor (o : OpenFile) (c : Call) : Option (ℕ × ℕ) :=
  let opened := if c.opens ⟨o.hash, o.index, c.offset, some (o.size - 1), none⟩ then
    some (c.offset, c.offset) else none
  match o.reader with
  | some (place, position) => if position = c.offset then some (place, position) else opened
  | none => opened

def wanted (o : OpenFile) (c : Call) : ℕ := min c.size (o.size - c.offset)

def readAt (file : List UInt8) (o : OpenFile) (c : Call) :
    Except IoError (List UInt8) × OpenFile :=
  if o.size ≤ c.offset then (.ok [], o)
  else match o.readerFor c with
    | none => (.error .playback, o)
    | some (place, position) => match fill file c.polls place (o.wanted c) [] with
      | (.error e, place) => (.error e, { o with reader := some (place, position) })
      | (.ok bytes, place) =>
        (.ok bytes, { o with reader := some (place, position + bytes.length) })

end OpenFile

/-! ### Filling the buffer -/

/-- The reader gives nothing although there is room. -/
def endsEarly : List Poll → ℕ → Bool
  | [], _ => false
  | .fails _ :: _, _ => false
  | .gives count :: polls, room =>
    room != 0 && (count == 0 || endsEarly polls (room - min count room))

variable {file : List UInt8} {polls : List Poll} {place room : ℕ} {filled bytes : List UInt8}

theorem take_length_take (m : ℕ) (l : List UInt8) : l.take (l.take m).length = l.take m := by
  rw [List.length_take, ← List.take_eq_take_min]

/-- What is read from a place and then from behind it. -/
theorem take_append_take (m n : ℕ) (l : List UInt8) :
    l.take m ++ (l.drop (l.take m).length).take n = l.take ((l.take m).length + n) := by
  rw [List.take_add, take_length_take]

/-- Whatever the reader does, it gives the bytes that follow its true place. -/
theorem fill_ok (h : (fill file polls place room filled).1 = .ok bytes) :
    ∃ n ≤ room, bytes = filled ++ (file.drop place).take n := by
  induction polls generalizing place room filled with
  | nil => exact ⟨room, le_rfl, (Except.ok.inj h).symm⟩
  | cons poll polls ih =>
    have hnone : bytes = filled → ∃ n ≤ room, bytes = filled ++ (file.drop place).take n :=
      fun heq => ⟨0, Nat.zero_le room, by rw [List.take_zero, List.append_nil, heq]⟩
    unfold fill at h
    split at h
    · exact hnone (Except.ok.inj h).symm
    cases poll with
    | fails taken => cases h
    | gives count =>
      simp only at h
      split at h
      · exact hnone (Except.ok.inj h).symm
      · obtain ⟨n, hn, rfl⟩ := ih h
        have hle : ((file.drop place).take (min count room)).length ≤ room :=
          (List.length_take_le _ _).trans (min_le_right _ _)
        refine ⟨((file.drop place).take (min count room)).length + n, by omega, ?_⟩
        rw [List.append_assoc, ← List.drop_drop, take_append_take]

/-- A reader that stands before all that is wanted and does not end gives all of it; one that ends
gives less. -/
theorem fill_length (hfits : place + room ≤ file.length)
    (h : (fill file polls place room filled).1 = .ok bytes) :
    (endsEarly polls room = false → bytes.length = filled.length + room) ∧
      (endsEarly polls room = true → bytes.length < filled.length + room) := by
  induction polls generalizing place room filled with
  | nil =>
    obtain rfl := Except.ok.inj h
    refine ⟨fun _ => ?_, fun hends => absurd hends Bool.false_ne_true⟩
    rw [List.length_append, List.length_take, List.length_drop]
    omega
  | cons poll polls ih =>
    unfold fill at h
    split at h
    · next hroom =>
      obtain rfl := Except.ok.inj h
      subst hroom
      refine ⟨fun _ => rfl, fun hends => ?_⟩
      cases poll with
      | fails taken => cases hends
      | gives count => cases hends
    next hroom =>
      cases poll with
      | fails taken => cases h
      | gives count =>
        have hlength : ((file.drop place).take (min count room)).length = min count room := by
          rw [List.length_take, List.length_drop]
          omega
        have hends : endsEarly (.gives count :: polls) room =
            (count == 0 || endsEarly polls (room - min count room)) := by
          rw [endsEarly, bne_iff_ne.mpr hroom, Bool.true_and]
        simp only at h
        split at h
        · next hempty =>
          obtain rfl := Except.ok.inj h
          have hcount : count = 0 := by
            rw [hempty, List.length_nil] at hlength
            omega
          rw [hends, hcount]
          refine ⟨fun hfalse => absurd hfalse Bool.noConfusion, fun _ => ?_⟩
          exact Nat.lt_add_of_pos_right (Nat.pos_of_ne_zero hroom)
        · next hsome =>
          have hcount : (count == 0) = false := by
            rw [beq_eq_false_iff_ne]
            rintro rfl
            exact hsome (by rw [Nat.zero_min, List.take_zero])
          rw [hlength] at h
          have hrest := ih (by omega) h
          rw [List.length_append, hlength] at hrest
          rw [hends, hcount, Bool.false_or]
          have hroom' : filled.length + min count room + (room - min count room) =
              filled.length + room := by omega
          rwa [hroom'] at hrest

/-- How far a reader moves and whether it fails does not depend on what the file holds. -/
theorem fill_sameLength {file' filled' : List UInt8} (polls : List Poll) (place room : ℕ)
    (hfile : file.length = file'.length) (hfilled : filled.length = filled'.length) :
    (fill file polls place room filled).2 = (fill file' polls place room filled').2 ∧
      (fill file polls place room filled).1.map List.length =
        (fill file' polls place room filled').1.map List.length := by
  have htake : ∀ place n, ((file.drop place).take n).length = ((file'.drop place).take n).length := by
    intro place n
    rw [List.length_take, List.length_take, List.length_drop, List.length_drop, hfile]
  have happend : ∀ place n {a b : List UInt8}, a.length = b.length →
      (a ++ (file.drop place).take n).length = (b ++ (file'.drop place).take n).length := by
    intro place n a b hab
    rw [List.length_append, List.length_append, htake, hab]
  induction polls generalizing place room filled filled' with
  | nil => exact ⟨congrArg (place + ·) (htake place room), congrArg Except.ok (happend place room hfilled)⟩
  | cons poll polls ih =>
    unfold fill
    split
    · exact ⟨rfl, congrArg Except.ok hfilled⟩
    cases poll with
    | fails taken => exact ⟨rfl, rfl⟩
    | gives count =>
      simp only
      have hempty : (file.drop place).take (min count room) = [] ↔
          (file'.drop place).take (min count room) = [] := by
        rw [← List.length_eq_zero_iff, htake, List.length_eq_zero_iff]
      by_cases hnil : (file.drop place).take (min count room) = []
      · rw [if_pos hnil, if_pos (hempty.mp hnil)]
        exact ⟨rfl, congrArg Except.ok hfilled⟩
      · rw [if_neg hnil, if_neg (mt hempty.mpr hnil), htake]
        exact ih _ _ (happend place _ hfilled)

/-! ### One call -/

namespace OpenFile

/-- The place that a call reads from, if it reads. -/
def placeFor (o : OpenFile) (c : Call) : ℕ := ((o.readerFor c).map Prod.fst).getD c.offset

/-- A call that asks for bytes does so at a reader that stands at its offset, and this one does not
end before them. -/
def Steady (o : OpenFile) (c : Call) : Prop :=
  o.wanted c = 0 ∨ (o.placeFor c = c.offset ∧ endsEarly c.polls (o.wanted c) = false)

instance (o : OpenFile) (c : Call) : Decidable (o.Steady c) :=
  inferInstanceAs (Decidable (_ ∨ _ ∧ _))

variable {o : OpenFile} {c : Call}

/-- What a call answers, in terms of the place it reads from. -/
theorem readAt_ok (h : (o.readAt file c).1 = .ok bytes) :
    (o.size ≤ c.offset ∧ bytes = []) ∨
      (c.offset < o.size ∧
        (fill file c.polls (o.placeFor c) (o.wanted c) []).1 = .ok bytes) := by
  unfold readAt at h
  split at h
  · next hend => exact Or.inl ⟨hend, (Except.ok.inj h).symm⟩
  next hinside =>
    refine Or.inr ⟨not_le.mp hinside, ?_⟩
    unfold placeFor
    cases hreader : o.readerFor c with
    | none =>
      rw [hreader] at h
      cases h
    | some r =>
      obtain ⟨place, position⟩ := r
      rw [hreader] at h
      simp only at h
      rw [Option.map_some, Option.getD_some]
      cases hfill : fill file c.polls place (o.wanted c) [] with
      | mk result place' =>
        rw [hfill] at h
        cases result with
        | error e => cases h
        | ok got => exact h

theorem wanted_eq_zero : o.wanted c = 0 ↔ c.size = 0 ∨ o.size ≤ c.offset := by
  unfold wanted
  omega

/-- What the file holds at the offset, up to the size. -/
theorem take_wanted (hsize : file.length = o.size) :
    (file.drop c.offset).take (o.wanted c) = (file.drop c.offset).take c.size := by
  unfold wanted
  rw [← hsize, ← List.length_drop, ← List.take_eq_take_min]

/-- A steady call that succeeds gives the bytes of the file. -/
theorem exact_of_steady (hsize : file.length = o.size) (hsteady : o.Steady c)
    (h : (o.readAt file c).1 = .ok bytes) : bytes = (file.drop c.offset).take c.size := by
  rw [← take_wanted hsize]
  rcases readAt_ok h with ⟨hend, rfl⟩ | ⟨hinside, hfill⟩
  · rw [wanted_eq_zero.mpr (Or.inr hend), List.take_zero]
  obtain ⟨n, hn, hbytes⟩ := fill_ok hfill
  rw [List.nil_append] at hbytes
  rcases hsteady with hzero | ⟨hplace, hends⟩
  · rw [hzero, Nat.le_zero] at hn
    rw [hbytes, hn, hzero, List.take_zero, List.take_zero]
  · rw [hplace] at hfill hbytes
    have hfits : c.offset + o.wanted c ≤ file.length := by
      unfold wanted
      omega
    have hlength := (fill_length hfits hfill).1 hends
    rw [List.length_nil, Nat.zero_add, hbytes] at hlength
    rw [hbytes, ← take_length_take n, hlength]

/-- A file with one byte that is not zero. -/
def markedFile (size offset : ℕ) : List UInt8 := (List.replicate size 0).set offset 1

theorem length_markedFile (size offset : ℕ) : (markedFile size offset).length = size := by
  unfold markedFile
  rw [List.length_set, List.length_replicate]

theorem get_markedFile {size offset : ℕ} (h : offset < size) (i : ℕ) :
    (markedFile size offset)[i]? = some 1 ↔ i = offset := by
  unfold markedFile
  constructor
  · intro hget
    by_contra hne
    rw [List.getElem?_set_ne (Ne.symm hne), List.getElem?_replicate] at hget
    split at hget <;> cases hget
  · rintro rfl
    rw [List.getElem?_set_self (by rwa [List.length_replicate])]

/-- A call that is not steady and succeeds gives other bytes than the file with a mark at its offset
holds there. -/
theorem not_exact_of_not_steady (hsteady : ¬o.Steady c)
    (h : (o.readAt (markedFile o.size c.offset) c).1 = .ok bytes) :
    bytes ≠ ((markedFile o.size c.offset).drop c.offset).take c.size := by
  obtain ⟨hwanted, hread⟩ := not_or.mp hsteady
  rw [← take_wanted (length_markedFile _ _)]
  rcases readAt_ok h with ⟨hend, rfl⟩ | ⟨hinside, hfill⟩
  · exact absurd (wanted_eq_zero.mpr (Or.inr hend)) hwanted
  intro hexact
  have hlength : bytes.length = o.wanted c := by
    rw [hexact, List.length_take, List.length_drop, length_markedFile]
    unfold wanted
    omega
  by_cases hplace : o.placeFor c = c.offset
  · -- the reader is where it should be, so it ends before what is wanted
    have hends : endsEarly c.polls (o.wanted c) = true := by
      rw [← Bool.not_eq_false]
      exact fun hends => hread ⟨hplace, hends⟩
    have hfits : c.offset + o.wanted c ≤ (markedFile o.size c.offset).length := by
      rw [length_markedFile]
      unfold wanted
      omega
    rw [hplace] at hfill
    have hless := (fill_length hfits hfill).2 hends
    rw [hlength, List.length_nil, Nat.zero_add] at hless
    exact absurd hless (lt_irrefl _)
  · -- the first byte comes from another place, where the mark is not
    obtain ⟨n, hn, hbytes⟩ := fill_ok hfill
    rw [List.nil_append] at hbytes
    have hpos : 0 < o.wanted c := Nat.pos_of_ne_zero hwanted
    have hfirst : bytes[0]? = some 1 := by
      rw [hexact, List.getElem?_take_of_lt hpos, List.getElem?_drop]
      exact (get_markedFile hinside _).mpr (Nat.add_zero _)
    rw [hbytes] at hfirst
    have hother : (markedFile o.size c.offset)[o.placeFor c]? = some 1 := by
      rw [List.getElem?_take] at hfirst
      split at hfirst
      · rwa [List.getElem?_drop] at hfirst
      · cases hfirst
    exact hplace ((get_markedFile hinside _).mp hother)

/-! ### Runs -/

@[simp] theorem readAt_size (file : List UInt8) (o : OpenFile) (c : Call) :
    (o.readAt file c).2.size = o.size := by
  unfold readAt
  split
  · rfl
  cases o.readerFor c with
  | none => rfl
  | some r =>
    simp only
    rcases fill file c.polls r.1 (o.wanted c) [] with ⟨_ | _, _⟩ <;> rfl

/-- What a call leaves behind, and whether it succeeds, does not depend on what the file holds. -/
theorem readAt_sameLength {file' : List UInt8} (hfile : file.length = file'.length) :
    (o.readAt file c).2 = (o.readAt file' c).2 ∧
      (o.readAt file c).1.map List.length = (o.readAt file' c).1.map List.length := by
  unfold readAt
  split
  · exact ⟨rfl, rfl⟩
  cases o.readerFor c with
  | none => exact ⟨rfl, rfl⟩
  | some r =>
    obtain ⟨place, position⟩ := r
    obtain ⟨hplace, hlength⟩ := fill_sameLength c.polls place (o.wanted c) hfile
      (Eq.refl ([] : List UInt8).length)
    rcases hx : fill file c.polls place (o.wanted c) [] with ⟨x, p⟩
    rcases hy : fill file' c.polls place (o.wanted c) [] with ⟨y, q⟩
    rw [hx, hy] at hplace hlength
    simp only at hplace hlength
    subst hplace
    cases x with
    | error e =>
      cases y with
      | error e' =>
        obtain rfl := Except.error.inj hlength
        exact ⟨by simp only [hx, hy], by simp only [hx, hy]⟩
      | ok b => cases hlength
    | ok a =>
      cases y with
      | error e' => cases hlength
      | ok b =>
        have heq : a.length = b.length := Except.ok.inj hlength
        exact ⟨by simp only [hx, hy, heq], by simp only [hx, hy]; exact hlength⟩

/-- The open file before a call of a run. -/
def before (file : List UInt8) (o : OpenFile) (calls : List Call) (k : ℕ) : OpenFile :=
  Mealy.after (readAt file) o (calls.take k)

theorem after_size (file : List UInt8) (o : OpenFile) (calls : List Call) :
    (Mealy.after (readAt file) o calls).size = o.size := by
  apply Mealy.after_invariant (readAt file) (P := fun p => p.size = o.size) _ rfl calls
  intro p c hp
  rw [readAt_size, hp]

theorem after_sameLength {file' : List UInt8} (hfile : file.length = file'.length)
    (calls : List Call) :
    Mealy.after (readAt file) o calls = Mealy.after (readAt file') o calls := by
  induction calls generalizing o with
  | nil => rfl
  | cons c calls ih =>
    rw [Mealy.after_cons, Mealy.after_cons, (readAt_sameLength hfile).1]
    exact ih

end OpenFile

end Fuse

end Rustorr
