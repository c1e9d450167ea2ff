import Rustorr.Lib.Fallible
import Rustorr.Lib.Moment
import Rustorr.Search.Civil
import Rustorr.Search.Index
import Rustorr.Search.Numbers

/-! The results of a search: the records asked for, the closest names first and then the newest. The
creation of a record is read from a text that may be anything. -/

namespace Rustorr.Rutor

open Range (parseI64)

variable {u : Letters} {torrents : List TorrentDetails} {query text : List Char}

/-! ### The time of a record -/

/-- What the pieces of a text can be as numbers. -/
structure Bounded (f : Fields) : Prop where
  year : -1000 < f.year ∧ f.year < 10000
  month : -10 < f.month ∧ f.month < 100
  day : -10 < f.day ∧ f.day < 100
  hour : -10 < f.hour ∧ f.hour < 100
  minute : -10 < f.minute ∧ f.minute < 100
  second : -10 < f.second ∧ f.second < 100
  offset : -10 ^ 7 < f.offset ∧ f.offset < 10 ^ 7

theorem slice_bounds {s piece : List Char} {start stop : ℕ} {n : ℤ}
    (hslice : Utf8Slice.slice s start stop = some piece) (h : parseI64 piece = some n) :
    -10 ^ (stop - start - 1) < n ∧ n < 10 ^ (stop - start) :=
  parseI64_bounds h (Utf8Slice.size_of_slice hslice)

theorem signed_bounds {zone : List Char} {offset : ℤ} (sign : ℤ) (hsign : sign = 1 ∨ sign = -1)
    (h : (some sign).bind (fun sign => (Utf8Slice.slice zone 1 3).bind fun hours =>
      (parseI64 hours).bind fun hours => (Utf8Slice.slice zone 4 6).bind fun minutes =>
        (parseI64 minutes).bind fun minutes => some (sign * (hours * 3600 + minutes * 60))) =
      some offset) : -10 ^ 7 < offset ∧ offset < 10 ^ 7 := by
  simp only [Option.bind_some, Option.bind_eq_some_iff] at h
  obtain ⟨hourText, hhour, hours, hhours, minuteText, hminute, minutes, hminutes, h⟩ := h
  have hhourBounds := slice_bounds hhour hhours
  have hminuteBounds := slice_bounds hminute hminutes
  rw [← Option.some.inj h]
  rcases hsign with rfl | rfl <;> omega

theorem offset_bounds {zone : List Char} {offset : ℤ} (h : readOffset zone = some offset) :
    -10 ^ 7 < offset ∧ offset < 10 ^ 7 := by
  unfold readOffset at h
  split at h
  · rw [← Option.some.inj h]
    decide
  · obtain ⟨first, -, h⟩ := Option.bind_eq_some_iff.mp h
    split_ifs at h
    · exact signed_bounds 1 (by decide) h
    · exact signed_bounds (-1) (by decide) h
    · cases h

theorem bounded_of_read {f : Fields} (h : readRfc3339 text = some f) : Bounded f := by
  unfold readRfc3339 at h
  obtain ⟨_, hyearText, h⟩ := Option.bind_eq_some_iff.mp h
  obtain ⟨year, hyear, h⟩ := Option.bind_eq_some_iff.mp h
  obtain ⟨_, hmonthText, h⟩ := Option.bind_eq_some_iff.mp h
  obtain ⟨month, hmonth, h⟩ := Option.bind_eq_some_iff.mp h
  obtain ⟨_, hdayText, h⟩ := Option.bind_eq_some_iff.mp h
  obtain ⟨day, hday, h⟩ := Option.bind_eq_some_iff.mp h
  obtain ⟨_, hhourText, h⟩ := Option.bind_eq_some_iff.mp h
  obtain ⟨hour, hhour, h⟩ := Option.bind_eq_some_iff.mp h
  obtain ⟨_, hminuteText, h⟩ := Option.bind_eq_some_iff.mp h
  obtain ⟨minute, hminute, h⟩ := Option.bind_eq_some_iff.mp h
  obtain ⟨_, hsecondText, h⟩ := Option.bind_eq_some_iff.mp h
  obtain ⟨second, hsecond, h⟩ := Option.bind_eq_some_iff.mp h
  obtain ⟨_, -, h⟩ := Option.bind_eq_some_iff.mp h
  obtain ⟨fraction, -, h⟩ := Option.bind_eq_some_iff.mp h
  obtain ⟨offset, hoffset, h⟩ := Option.bind_eq_some_iff.mp h
  rw [← Option.some.inj h]
  exact ⟨slice_bounds hyearText hyear, slice_bounds hmonthText hmonth, slice_bounds hdayText hday,
    slice_bounds hhourText hhour, slice_bounds hminuteText hminute,
    slice_bounds hsecondText hsecond, offset_bounds hoffset⟩

/-- The instant of the fields, in nanoseconds. -/
def Fields.nanosOf (f : Fields) : ℤ :=
  (Calendar.number f.year f.month f.day * 86400 + f.hour * 3600 + f.minute * 60 + f.second -
    f.offset) * 1000000000 + f.nanos

theorem parseRfc3339_of_read {f : Fields} (h : readRfc3339 text = some f) :
    parseRfc3339 text = some (some f.nanosOf) := by
  obtain ⟨hyear, hmonth, hday, hhour, hminute, hsecond, hoffset⟩ := bounded_of_read h
  have hdays := @daysFromCivil_of_fits f.year f.month f.day
    (by omega) (by omega) (by omega)
  have hnumber : -10 ^ 9 < Calendar.number f.year f.month f.day ∧
      Calendar.number f.year f.month f.day < 10 ^ 9 := by
    unfold Calendar.number Calendar.startYear
    split_ifs <;> omega
  unfold parseRfc3339 Fields.nanosOf
  rw [h]
  simp only [Option.bind_eq_bind]
  rw [hdays, Option.bind_some]
  generalize Calendar.number f.year f.month f.day = days at *
  rw [I64.mul_of_mem (by omega), Option.bind_some, I64.mul_of_mem (by omega), Option.bind_some,
    I64.add_of_mem (by omega), Option.bind_some, I64.mul_of_mem (by omega), Option.bind_some,
    I64.add_of_mem (by omega), Option.bind_some, I64.add_of_mem (by omega), Option.bind_some,
    I64.sub_of_mem (by omega), Option.bind_some]

/-- The instant in a text; one that is no date is before all others. -/
def createdAt (text : List Char) : ℤ :=
  match readRfc3339 text with
  | some f => f.nanosOf
  | none => -2 ^ 127

theorem rfc3339Nanos_eq (text : List Char) : rfc3339Nanos text = some (createdAt text) := by
  unfold rfc3339Nanos createdAt
  cases h : readRfc3339 text with
  | none =>
    unfold parseRfc3339
    rw [h]
    rfl
  | some f =>
    rw [parseRfc3339_of_read h]
    rfl

/-! ### The texts of moments -/

open I64 (padded)

/-- A padded number at the beginning of a text. -/
theorem slice_padded {c : List Char} {width : ℕ} {n : ℤ} (hwidth : 0 < width)
    (hn : 0 ≤ n ∧ n < 10 ^ width) : Utf8Slice.slice (padded width n ++ c) 0 width = some (padded width n) := by
  apply @slice_middle []
  · rfl
  · rw [size_padded hwidth hn, Nat.zero_add]

/-- A slice behind a part of known size and a separator. -/
theorem slice_behind {a s : List Char} {sep : Char} {k : ℕ} (start stop : ℕ) (ha : Utf8Slice.size a = k)
    (hsep : sep.utf8Size = 1) :
    Utf8Slice.slice (a ++ sep :: s) (k + 1 + start) (k + 1 + stop) = Utf8Slice.slice s start stop := by
  have h := Utf8Slice.slice_later (a ++ [sep]) s start stop
  rwa [Utf8Slice.size_append, Utf8Slice.size_cons, Utf8Slice.size_nil, ha, hsep, List.append_assoc] at h

theorem parseI64_two {n : ℤ} (h : 0 ≤ n ∧ n < 10 ^ 2) : parseI64 (padded 2 n) = some n :=
  parseI64_padded 2 (by omega)

theorem readOffset_signed {sign : Char} {factor hours minutes : ℤ}
    (hsign : sign = '+' ∧ factor = 1 ∨ sign = '-' ∧ factor = -1) (hhours : 0 ≤ hours ∧ hours < 10 ^ 2)
    (hminutes : 0 ≤ minutes ∧ minutes < 10 ^ 2) :
    readOffset (sign :: (padded 2 hours ++ ':' :: padded 2 minutes)) =
      some (factor * (hours * 3600 + minutes * 60)) := by
  have hsign' : sign.utf8Size = 1 := by
    rcases hsign with ⟨rfl, -⟩ | ⟨rfl, -⟩ <;> rfl
  have hhourText : Utf8Slice.slice (sign :: (padded 2 hours ++ ':' :: padded 2 minutes)) 1 3 =
      some (padded 2 hours) :=
    (@slice_behind [] _ sign 0 0 2 rfl hsign').trans (slice_padded (by decide) hhours)
  have hminuteText : Utf8Slice.slice (sign :: (padded 2 hours ++ ':' :: padded 2 minutes)) 4 6 =
      some (padded 2 minutes) := by
    have hhours' : Utf8Slice.size (padded 2 hours) = 2 := size_padded (by decide) hhours
    have hlast := @slice_padded [] 2 minutes (by decide) hminutes
    rw [List.append_nil] at hlast
    exact ((@slice_behind [] _ sign 0 3 5 rfl hsign').trans (slice_behind 0 2 hhours' rfl)).trans hlast
  unfold readOffset
  rw [if_neg (by rcases hsign with ⟨rfl, -⟩ | ⟨rfl, -⟩ <;> simp), hhourText, hminuteText]
  rcases hsign with ⟨rfl, rfl⟩ | ⟨rfl, rfl⟩
  · simp [parseI64_two hhours, parseI64_two hminutes]
  · simp [parseI64_two hhours, parseI64_two hminutes]

theorem readOffset_zone (m : Moment) : readOffset (Moment.zone m.offset) = some m.offset := by
  have hoffset := m.offset_mem
  have hminutes := m.offset_minutes
  unfold Moment.zone
  split_ifs with hzero hneg
  · rw [hzero]
    rfl
  · rw [readOffset_signed (Or.inr ⟨rfl, rfl⟩) (by omega) (by omega), Option.some_inj]
    omega
  · rw [readOffset_signed (Or.inl ⟨rfl, rfl⟩) (by omega) (by omega), Option.some_inj]
    omega

/-- What is behind a fraction goes on without a digit and without a point. -/
theorem zone_begins (offset : ℤ) : ∃ c rest, Moment.zone offset = c :: rest ∧ c ≠ '.' ∧ c.isDigit = false := by
  unfold Moment.zone
  split_ifs
  · exact ⟨_, _, rfl, by decide, rfl⟩
  · exact ⟨_, _, rfl, by decide, rfl⟩
  · exact ⟨_, _, rfl, by decide, rfl⟩

/-- Nine digits, cut or filled up, are the whole nanoseconds. -/
theorem ofDigitChars_nine {digits nine rest : List Char} (h : ∀ c ∈ digits, c.isDigit = true)
    (hsplit : digits ++ List.replicate (9 - digits.length) '0' = nine ++ rest)
    (hnine : nine.length = 9) : Nat.ofDigitChars 10 nine 0 = Moment.nanos digits := by
  have hlength := congrArg List.length hsplit
  rw [List.length_append, List.length_replicate, List.length_append, hnine] at hlength
  unfold Moment.nanos
  rcases Nat.le_total digits.length 9 with hle | hle
  · -- filled up, there is nothing behind the nine
    obtain rfl : rest = [] := List.eq_nil_of_length_eq_zero (by omega)
    have hpow : 10 ^ 9 = 10 ^ (9 - digits.length) * 10 ^ digits.length := by
      rw [← Nat.pow_add, Nat.sub_add_cancel hle]
    rw [List.append_nil] at hsplit
    rw [← hsplit, Nat.ofDigitChars_append, Nat.ofDigitChars_replicate_zero, hpow, ← Nat.mul_assoc,
      Nat.mul_div_cancel _ (Nat.pow_pos (by decide)), Nat.mul_comm]
  · -- what is cut off is less than one of the ninth digit
    rw [Nat.sub_eq_zero_of_le hle, List.replicate_zero, List.append_nil] at hsplit
    have hrest := @I64.ofDigitChars_lt rest (fun c hc => h c (hsplit ▸ List.mem_append_right _ hc)) 0
    rw [Nat.zero_add, Nat.one_mul] at hrest
    have hlong : digits.length = rest.length + 9 := by
      rw [hsplit, List.length_append, hnine, Nat.add_comm]
    rw [hlong, Nat.pow_add, Nat.mul_div_mul_right _ _ (by decide), hsplit, Nat.ofDigitChars_append,
      @Nat.ofDigitChars_eq_ofDigitChars_zero rest, Nat.mul_add_div (Nat.pow_pos (by decide)), Nat.div_eq_of_lt hrest, Nat.add_zero]

/-- The digits of a fraction, filled up to nine. -/
theorem readFraction_point (m : Moment) {digits : List Char} (h : ∀ c ∈ digits, c.isDigit = true) :
    readFraction (Moment.point digits ++ Moment.zone m.offset) =
      some ((Moment.nanos digits : ℤ), Moment.zone m.offset) := by
  obtain ⟨c, rest, hzone, hpoint, hdigit⟩ := zone_begins m.offset
  unfold Moment.point
  rw [hzone]
  split_ifs with hnil
  · rw [hnil, List.nil_append]
    unfold readFraction
    split
    · next heq => exact absurd (List.cons.inj heq).1 hpoint
    · rfl
  · have htake : (digits ++ c :: rest).takeWhile Char.isDigit = digits := by
      rw [List.takeWhile_append_of_pos h, List.takeWhile_cons_of_neg (by simp [hdigit]), List.append_nil]
    obtain ⟨nine, more, hsplit, hnine⟩ : ∃ nine more,
        digits ++ List.replicate (9 - digits.length) '0' = nine ++ more ∧ nine.length = 9 := by
      refine ⟨_, _, (List.take_append_drop 9 _).symm, ?_⟩
      rw [List.length_take, List.length_append, List.length_replicate]
      omega
    have hdigits : ∀ d ∈ nine, d.isDigit = true := by
      intro d hd
      have hmem : d ∈ digits ++ List.replicate (9 - digits.length) '0' := by
        rw [hsplit]
        exact List.mem_append_left _ hd
      rcases List.mem_append.mp hmem with hmem | hmem
      · exact h d hmem
      · rw [List.eq_of_mem_replicate hmem]
        rfl
    have hslice : Utf8Slice.slice (nine ++ more) 0 9 = some nine :=
      @slice_middle [] nine more 0 9 rfl (by rw [Utf8Slice.size_of_isDigit hdigits, hnine])
    have hvalue := ofDigitChars_nine h hsplit hnine
    have hlt := I64.ofDigitChars_lt hdigits 0
    rw [hnine] at hlt
    have hread := parseI64_digits (List.ne_nil_of_length_pos (by omega)) hdigits (by omega)
    unfold readFraction
    simp only [List.cons_append, htake, hsplit, hslice, Option.bind_eq_bind, Option.bind_some, hread,
      hvalue, List.drop_left]

theorem readRfc3339_text (m : Moment) {digits : List Char} (h : ∀ c ∈ digits, c.isDigit = true)
    (hyear : 0 ≤ m.date.year ∧ m.date.year < 10000) :
    readRfc3339 (m.text (Moment.point digits)) = some ⟨m.date.year, m.date.month, m.date.day, m.hour,
      m.minute, m.second, Moment.nanos digits, m.offset⟩ := by
  have hmonth := m.month_lt
  have hday := m.day_lt
  have hhour : 0 ≤ m.hour ∧ m.hour < 10 ^ 2 := ⟨m.hour_mem.1, m.hour_mem.2.trans (by decide)⟩
  have hminute : 0 ≤ m.minute ∧ m.minute < 10 ^ 2 := ⟨m.minute_mem.1, m.minute_mem.2.trans (by decide)⟩
  have hsecond : 0 ≤ m.second ∧ m.second < 10 ^ 2 := ⟨m.second_mem.1, m.second_mem.2.trans (by decide)⟩
  have hfour : Utf8Slice.size (padded 4 m.date.year) = 4 := size_padded (by decide) hyear
  have htwo : ∀ {n : ℤ}, 0 ≤ n ∧ n < 10 ^ 2 → Utf8Slice.size (padded 2 n) = 2 := size_padded (by decide)
  have hyearText := @slice_padded ('-' :: (padded 2 m.date.month ++ '-' :: (padded 2 m.date.day ++
    'T' :: (padded 2 m.hour ++ ':' :: (padded 2 m.minute ++ ':' :: (padded 2 m.second ++
      (Moment.point digits ++ Moment.zone m.offset))))))) 4 m.date.year (by decide) hyear
  unfold readRfc3339 Moment.text
  refine Option.bind_eq_some_iff.mpr ⟨_, hyearText, ?_⟩
  refine Option.bind_eq_some_iff.mpr ⟨_, parseI64_padded 4 (by omega), ?_⟩
  -- each field is behind the ones before it and their separators
  have hbehind := fun (s : List Char) (start stop : ℕ) => @slice_behind (padded 4 m.date.year) s '-' 4 start stop hfour rfl
  refine Option.bind_eq_some_iff.mpr ⟨_, (hbehind _ 0 2).trans (slice_padded (by decide) hmonth), ?_⟩
  refine Option.bind_eq_some_iff.mpr ⟨_, parseI64_two hmonth, ?_⟩
  refine Option.bind_eq_some_iff.mpr ⟨_, ((hbehind _ 3 5).trans (slice_behind 0 2 (htwo hmonth) rfl)).trans
    (slice_padded (by decide) hday), ?_⟩
  refine Option.bind_eq_some_iff.mpr ⟨_, parseI64_two hday, ?_⟩
  refine Option.bind_eq_some_iff.mpr ⟨_, (((hbehind _ 6 8).trans (slice_behind 3 5 (htwo hmonth) rfl)).trans
    (slice_behind 0 2 (htwo hday) rfl)).trans (slice_padded (by decide) hhour), ?_⟩
  refine Option.bind_eq_some_iff.mpr ⟨_, parseI64_two hhour, ?_⟩
  refine Option.bind_eq_some_iff.mpr ⟨_, ((((hbehind _ 9 11).trans (slice_behind 6 8 (htwo hmonth) rfl)).trans
    (slice_behind 3 5 (htwo hday) rfl)).trans (slice_behind 0 2 (htwo hhour) rfl)).trans
      (slice_padded (by decide) hminute), ?_⟩
  refine Option.bind_eq_some_iff.mpr ⟨_, parseI64_two hminute, ?_⟩
  refine Option.bind_eq_some_iff.mpr ⟨_, (((((hbehind _ 12 14).trans
    (slice_behind 9 11 (htwo hmonth) rfl)).trans (slice_behind 6 8 (htwo hday) rfl)).trans
      (slice_behind 3 5 (htwo hhour) rfl)).trans (slice_behind 0 2 (htwo hminute) rfl)).trans
        (slice_padded (by decide) hsecond), ?_⟩
  refine Option.bind_eq_some_iff.mpr ⟨_, parseI64_two hsecond, ?_⟩
  have hfront := Utf8Slice.sliceFrom_append (padded 4 m.date.year ++ '-' :: (padded 2 m.date.month ++
    '-' :: (padded 2 m.date.day ++ 'T' :: (padded 2 m.hour ++ ':' :: (padded 2 m.minute ++
      ':' :: padded 2 m.second))))) (Moment.point digits ++ Moment.zone m.offset)
  simp only [Utf8Slice.size_append, Utf8Slice.size_cons, hfour, htwo hmonth, htwo hday, htwo hhour,
    htwo hminute, htwo hsecond, List.append_assoc, List.cons_append] at hfront
  refine Option.bind_eq_some_iff.mpr ⟨_, hfront, ?_⟩
  refine Option.bind_eq_some_iff.mpr ⟨_, readFraction_point m h, ?_⟩
  refine Option.bind_eq_some_iff.mpr ⟨_, readOffset_zone m, ?_⟩
  rfl

/-! ### The order of the results -/

/-- How far the cleaned name, names and year of a record are from the cleaned query. -/
def farness (u : Letters) (query : List Char) (torrent : TorrentDetails) : ℕ :=
  EditDistance.distance (clearStr u query) (description u torrent)

/-- The closer name comes first, and then the newer record. -/
def Precedes (u : Letters) (query : List Char) (a b : TorrentDetails) : Prop :=
  farness u query a < farness u query b ∨
    farness u query a = farness u query b ∧ createdAt b.createDate ≤ createdAt a.createDate

/-- What a record is sorted by. -/
def sortKey (u : Letters) (query : List Char) (torrent : TorrentDetails) : Key :=
  ⟨farness u query torrent, createdAt torrent.createDate⟩

theorem keyOf_eq (torrent : TorrentDetails) :
    keyOf u (clearStr u query) torrent = some (sortKey u query torrent) := by
  unfold keyOf
  rw [levenshtein_distance, rfc3339Nanos_eq]
  rfl

/-- What the ids found stand for. -/
theorem mapM_idsOf (p : TorrentDetails → Bool) (torrents : List TorrentDetails) :
    ((idsOf p torrents).mapM fun id => torrents[id]?) = some (torrents.filter p) := by
  have hget : ∀ entry ∈ torrents.zipIdx.filter fun entry => p entry.1,
      ((fun id => torrents[id]?) ∘ Prod.snd) entry = some entry.1 := by
    intro entry hentry
    exact List.mem_zipIdx_iff_getElem?.mp (List.mem_of_mem_filter hentry)
  have hfilter : (torrents.zipIdx.map Prod.fst).filter p = _ := List.filter_map
  rw [List.zipIdx_map_fst] at hfilter
  unfold idsOf
  rw [List.mapM_map, Option.mapM_eq_map hget, hfilter]
  rfl

theorem le_iff {query : List Char} {a b : TorrentDetails} :
    (sortKey u query a).le (sortKey u query b) = true ↔ Precedes u query a b := by
  unfold Key.le Precedes sortKey
  simp

theorem Key.le_trans {a b c : Key} (hab : a.le b = true) (hbc : b.le c = true) : a.le c = true := by
  unfold Key.le at *
  simp only [Bool.or_eq_true, Bool.and_eq_true, decide_eq_true_eq, beq_iff_eq] at *
  omega

theorem Key.le_total (a b : Key) : (a.le b || b.le a) = true := by
  unfold Key.le
  simp only [Bool.or_eq_true, Bool.and_eq_true, decide_eq_true_eq, beq_iff_eq]
  omega

/-- Sorting records with their keys sorts the records. -/
theorem sorted_by_keys (u : Letters) (query : List Char) (matching : List TorrentDetails) :
    ((((matching.map (sortKey u query)).zip matching).mergeSort fun a b => a.1.le b.1).map Prod.snd).Perm
      matching ∧
    ((((matching.map (sortKey u query)).zip matching).mergeSort fun a b => a.1.le b.1).map
      Prod.snd).Pairwise (Precedes u query) := by
  have hzip : (matching.map (sortKey u query)).zip matching =
      matching.map fun torrent => (sortKey u query torrent, torrent) := by
    have h := @List.zip_map' _ _ _ (sortKey u query) id matching
    rwa [List.map_id] at h
  rw [hzip]
  have hperm := List.mergeSort_perm (matching.map fun torrent => (sortKey u query torrent, torrent))
    fun a b => a.1.le b.1
  constructor
  · have hback := hperm.map Prod.snd
    have hid : (Prod.snd ∘ fun torrent => (sortKey u query torrent, torrent)) = id := rfl
    rwa [List.map_map, hid, List.map_id] at hback
  · rw [List.pairwise_map]
    have hsorted := @List.pairwise_mergeSort _ (fun a b : Key × TorrentDetails => a.1.le b.1)
      (fun a b c => Key.le_trans) (fun a b => Key.le_total a.1 b.1)
      (matching.map fun torrent => (sortKey u query torrent, torrent))
    apply hsorted.imp_of_mem
    intro a b ha hb hle
    obtain ⟨x, -, rfl⟩ := List.mem_map.mp (hperm.mem_iff.mp ha)
    obtain ⟨y, -, rfl⟩ := List.mem_map.mp (hperm.mem_iff.mp hb)
    exact le_iff.mp hle

/-- What a search finds: by the index, the ids of the records asked for, once and in order; and these
records, by the distance of their names and then by the instant they were created, newest first. -/
theorem search_spec (u : Letters) (torrents : List TorrentDetails) (query : List Char) :
    (∀ i, i ∈ searchIndex u (buildIndex u torrents) query ↔
      ∃ torrent, torrents[i]? = some torrent ∧ Matches u query torrent) ∧
    (searchIndex u (buildIndex u torrents) query).Pairwise (· < ·) ∧
    (∃ found, search u (some (load u torrents)) query = some found ∧
      found.Perm (torrents.filter fun torrent => Matches u query torrent) ∧
      found.Pairwise (Precedes u query)) ∧
    -- the instant, where the text is one of a date
    ∀ (m : Moment) (digits : List Char), 0 ≤ m.date.year ∧ m.date.year < 10000 →
      (∀ c ∈ digits, c.isDigit = true) →
        createdAt (m.text (Moment.point digits)) = m.instant * 10 ^ 9 + Moment.nanos digits := by
  refine ⟨?_, ?_, ?_, ?_⟩
  · intro i
    rw [searchIndex_eq, mem_idsOf]
    simp only [decide_eq_true_eq]
  · rw [searchIndex_eq]
    exact ordered_idsOf _ _
  · unfold search load
    simp only [Option.bind_eq_bind]
    rw [searchIndex_eq, mapM_idsOf, Option.bind_some]
    generalize torrents.filter (fun torrent => Matches u query torrent) = matching
    rw [Option.mapM_eq_map fun torrent _ => keyOf_eq torrent, Option.bind_some]
    exact ⟨_, rfl, sorted_by_keys u query matching⟩
  · intro m digits hyear hdigits
    unfold createdAt
    rw [readRfc3339_text m hdigits hyear]
    unfold Moment.instant Moment.time Calendar.Date.number
    simp only [Fields.nanosOf]
    omega

end Rustorr.Rutor
