import Rustorr.Discovery.Dns

/-! Which packets the parser accepts, and which of them have the format of RFC 1035. -/

namespace Rustorr.Dns

open DomainName (Reads IsPointer target)

/-- What the parser asks of a label's length. -/
def AnyLength (_ : UInt8) : Prop := True

/-- Two bits of a length are reserved. -/
def ShortLength (b : UInt8) : Prop := b.toNat < 64

variable {bytes : List UInt8}

theorem slice_eq_some {start n : ℕ} {s : List UInt8} :
    slice bytes start (start + n) = some s ↔
      start ≤ bytes.length ∧ s.length = n ∧ s <+: bytes.drop start := by
  unfold slice
  rw [if_congr (and_iff_right (Nat.le_add_right start n)) rfl rfl, Nat.add_sub_cancel_left]
  constructor
  · intro h
    split at h
    · rename_i hin
      obtain rfl := Option.some.inj h
      refine ⟨by omega, ?_, List.take_prefix _ _⟩
      rw [List.length_take, List.length_drop]
      omega
    · exact nomatch h
  · rintro ⟨hstart, hlen, hprefix⟩
    have hle := hprefix.length_le
    rw [List.length_drop] at hle
    rw [if_pos (by omega), List.prefix_iff_eq_take.mp hprefix, hlen]

/-- A name that stands at an offset is read, if that takes no more steps than there are. -/
theorem readLabels_of_reads {ok : UInt8 → Prop} {o k e : ℕ} {ls : List (List UInt8)}
    (h : Reads ok bytes o ls k e) : ∀ (n : ℕ) (labels : List (List UInt8)) (stop : Option ℕ),
    readLabels bytes n labels stop o =
      if k ≤ n then some (dotted (labels ++ ls), stop.getD e) else none := by
  induction h with
  | root hb =>
    intro n labels stop
    cases n with
    | zero => rfl
    | succ n =>
      unfold readLabels
      rw [hb, List.append_nil]
      simp
  | @label o b l ls k e hb hp h0 hok hlen hl _ ih =>
    intro n labels stop
    cases n with
    | zero => rfl
    | succ n =>
      have hslice : slice bytes (o + 1) (o + 1 + b.toNat) = some l :=
        slice_eq_some.mpr ⟨(List.getElem?_eq_some_iff.mp hb).1, hlen, hl⟩
      unfold IsPointer at hp
      unfold readLabels
      simp only [hb, Option.bind_eq_bind, Option.bind_some, if_neg hp, if_neg h0, hslice, ih,
        Nat.add_le_add_iff_right, List.append_assoc, List.singleton_append]
  | @pointer o b low ls k e hb hp hlow _ ih =>
    intro n labels stop
    cases n with
    | zero => rfl
    | succ n =>
      unfold IsPointer at hp
      unfold target at ih
      unfold readLabels
      simp only [hb, hlow, Option.bind_eq_bind, Option.bind_some, if_pos hp, ih,
        Nat.add_le_add_iff_right, Option.getD_some]

/-- Whatever is read as a name stands there, with labels of any length. -/
theorem reads_of_readLabels : ∀ {n o : ℕ} {labels : List (List UInt8)} {stop : Option ℕ}
    {read : Name × ℕ}, readLabels bytes n labels stop o = some read →
    ∃ ls k e, Reads AnyLength bytes o ls k e
  | 0, _, _, _, _, h => nomatch h
  | n + 1, o, labels, stop, read, h => by
    unfold readLabels at h
    obtain ⟨b, hb, h⟩ := Option.bind_eq_some_iff.mp h
    split at h
    · rename_i hp
      obtain ⟨low, hlow, h⟩ := Option.bind_eq_some_iff.mp h
      obtain ⟨ls, k, e, hreads⟩ := reads_of_readLabels h
      exact ⟨ls, k + 1, o + 2, .pointer hb hp hlow hreads⟩
    split at h
    · rename_i h0
      rw [h0] at hb
      exact ⟨[], 1, o + 1, .root hb⟩
    · rename_i hp h0
      obtain ⟨l, hl, h⟩ := Option.bind_eq_some_iff.mp h
      obtain ⟨-, hlen, hprefix⟩ := slice_eq_some.mp hl
      obtain ⟨ls, k, e, hreads⟩ := reads_of_readLabels h
      exact ⟨l :: ls, k + 1, e, .label hb hp h0 trivial hlen hprefix hreads⟩

theorem readName_eq_some {o e : ℕ} {name : Name} :
    readName bytes o = some (name, e) ↔
      ∃ ls k, Reads AnyLength bytes o ls k e ∧ k ≤ 128 ∧ name = dotted ls := by
  constructor
  · intro h
    obtain ⟨ls, k, e', hreads⟩ := reads_of_readLabels h
    unfold readName at h
    rw [readLabels_of_reads hreads] at h
    split at h
    · rename_i hk
      obtain ⟨rfl, rfl⟩ := Prod.mk.inj (Option.some.inj h)
      exact ⟨ls, k, hreads, hk, rfl⟩
    · exact nomatch h
  · rintro ⟨ls, k, hreads, hk, rfl⟩
    unfold readName
    rw [readLabels_of_reads hreads, if_pos hk]
    rfl

/-! ### Packets -/

/-- So many items, one after another. -/
inductive Chain (Item : ℕ → ℕ → Prop) : ℕ → ℕ → ℕ → Prop where
  | nil {o : ℕ} : Chain Item 0 o o
  | cons {n o next stop : ℕ} : Item o next → Chain Item n next stop → Chain Item (n + 1) o stop

/-- Some item of the chain begins here. -/
def Reached (Item : ℕ → ℕ → Prop) (n o at_ : ℕ) : Prop := ∃ m < n, Chain Item m o at_

namespace Chain

variable {Item Item' : ℕ → ℕ → Prop}

theorem append {m n o mid stop : ℕ} (h : Chain Item m o mid) (h' : Chain Item n mid stop) :
    Chain Item (m + n) o stop := by
  induction h with
  | nil => rwa [Nat.zero_add]
  | cons hitem _ ih =>
    rw [Nat.add_right_comm]
    exact cons hitem (ih h')

theorem split : ∀ {m n o stop : ℕ}, Chain Item (m + n) o stop →
    ∃ mid, Chain Item m o mid ∧ Chain Item n mid stop
  | 0, n, o, stop, h => ⟨o, nil, by rwa [Nat.zero_add] at h⟩
  | m + 1, n, o, stop, h => by
    rw [Nat.add_right_comm] at h
    obtain _ | ⟨hitem, hrest⟩ := h
    obtain ⟨mid, hm, hn⟩ := split hrest
    exact ⟨mid, cons hitem hm, hn⟩

/-- A chain of items that are kept where they begin. -/
theorem imp {n o stop : ℕ} (h : Chain Item n o stop)
    (himp : ∀ x y, Reached Item n o x → Item x y → Item' x y) : Chain Item' n o stop := by
  induction h with
  | nil => exact nil
  | cons hitem _ ih =>
    apply cons (himp _ _ ⟨0, Nat.succ_pos _, nil⟩ hitem)
    apply ih
    rintro x y ⟨m, hm, hchain⟩ hxy
    exact himp x y ⟨m + 1, Nat.succ_lt_succ hm, cons hitem hchain⟩ hxy

/-- Two chains from one offset pass the same offsets. -/
theorem meet (hsame : ∀ x y y', Item x y → Item' x y' → y = y') {m n o x stop : ℕ}
    (h : Chain Item m o x) (h' : Chain Item' n o stop) :
    (m < n → ∃ y, Item' x y) ∧ (m = n → x = stop) := by
  induction h generalizing n with
  | nil =>
    cases h' with
    | nil => exact ⟨fun h => absurd h (Nat.lt_irrefl _), fun _ => rfl⟩
    | cons hitem _ => exact ⟨fun _ => ⟨_, hitem⟩, fun h => nomatch h⟩
  | cons hitem _ ih =>
    cases h' with
    | nil => exact ⟨fun h => absurd h (Nat.not_lt_zero _), fun h => nomatch h⟩
    | cons hitem' hrest =>
      obtain rfl := hsame _ _ _ hitem hitem'
      obtain ⟨hlt, heq⟩ := ih hrest
      exact ⟨fun h => hlt (Nat.lt_of_succ_lt_succ h), fun h => heq (Nat.succ.inj h)⟩

end Chain

section packet

-- where a name begins and ends, and what a PTR record's data has to be
variable (bytes : List UInt8) (NameAt TargetAt : ℕ → ℕ → Prop)

def QuestionAt (o next : ℕ) : Prop := ∃ e, NameAt o e ∧ e + 4 ≤ bytes.length ∧ next = e + 4

def RecordAt (o next : ℕ) : Prop :=
  ∃ e kind length, NameAt o e ∧ field bytes e = some kind ∧ field bytes (e + 8) = some length ∧
    next = e + 10 + length.toNat ∧ next ≤ bytes.length ∧ (kind = TYPE_PTR → TargetAt (e + 10) next)

/-- The header's counts of questions and of records. -/
structure Counts (questions records : ℕ) : Prop where
  intro ::
  counted : ∃ qs an au ad, field bytes 4 = some qs ∧ field bytes 6 = some an ∧
    field bytes 8 = some au ∧ field bytes 10 = some ad ∧
    questions = qs.toNat ∧ records = an.toNat + au.toNat + ad.toNat

/-- The header's counts describe the questions and records that follow. -/
def Packet : Prop :=
  ∃ questions records mid stop, Counts bytes questions records ∧
    Chain (QuestionAt bytes NameAt) questions 12 mid ∧
    Chain (RecordAt bytes NameAt TargetAt) records mid stop

end packet

/-- What the parser takes for a name. -/
def LooseName (bytes : List UInt8) (o e : ℕ) : Prop :=
  ∃ ls k, Reads AnyLength bytes o ls k e ∧ k ≤ 128

/-- A name of RFC 1035. -/
def RfcName (bytes : List UInt8) (o e : ℕ) : Prop := ∃ ls k, Reads ShortLength bytes o ls k e

/-- What the parser takes for a packet, and a packet of RFC 1035. -/
def LoosePacket (bytes : List UInt8) : Prop := Packet bytes (LooseName bytes) fun _ _ => True

def RfcPacket (bytes : List UInt8) : Prop := Packet bytes (RfcName bytes) (RfcName bytes)

theorem field_isSome {i : ℕ} : (field bytes i).isSome ↔ i + 2 ≤ bytes.length := by
  unfold field
  cases hhigh : bytes[i]? with
  | none =>
    have := List.getElem?_eq_none_iff.mp hhigh
    simp
    omega
  | some high =>
    have := (List.getElem?_eq_some_iff.mp hhigh).1
    cases hlow : bytes[i + 1]? with
    | none =>
      have := List.getElem?_eq_none_iff.mp hlow
      simp
      omega
    | some low =>
      have := (List.getElem?_eq_some_iff.mp hlow).1
      simp
      omega

/-- What a record reads as, where it is complete. -/
theorem readRecord_eq {o e : ℕ} {name : Name} {kind class_ high low length : UInt16}
    (hname : readName bytes o = some (name, e)) (hkind : field bytes e = some kind)
    (hclass : field bytes (e + 2) = some class_) (hhigh : field bytes (e + 4) = some high)
    (hlow : field bytes (e + 6) = some low) (hlength : field bytes (e + 8) = some length)
    (hin : e + 10 + length.toNat ≤ bytes.length) :
    readRecord bytes o = some
      ((if kind = TYPE_PTR then (readName bytes (e + 10)).map fun read => Data.ptr read.1
        else none).map fun data =>
          ⟨name, class_, UInt32.ofNat (high.toNat * 2 ^ 16 + low.toNat), data⟩,
      e + 10 + length.toNat) := by
  have hslice : slice bytes (e + 10) (e + 10 + length.toNat) =
      some ((bytes.drop (e + 10)).take length.toNat) := by
    apply slice_eq_some.mpr
    refine ⟨by omega, ?_, List.take_prefix _ _⟩
    rw [List.length_take, List.length_drop]
    omega
  unfold readRecord
  simp only [hname, hkind, hclass, hhigh, hlow, hlength, hslice, Option.bind_eq_bind,
    Option.bind_some, Option.pure_def]

theorem readRecord_isSome {o stop : ℕ} :
    (∃ record, readRecord bytes o = some (record, stop)) ↔
      RecordAt bytes (LooseName bytes) (fun _ _ => True) o stop := by
  constructor
  · rintro ⟨record, h⟩
    unfold readRecord at h
    obtain ⟨⟨name, e⟩, hname, h⟩ := Option.bind_eq_some_iff.mp h
    obtain ⟨kind, hkind, h⟩ := Option.bind_eq_some_iff.mp h
    obtain ⟨_, -, h⟩ := Option.bind_eq_some_iff.mp h
    obtain ⟨_, -, h⟩ := Option.bind_eq_some_iff.mp h
    obtain ⟨_, -, h⟩ := Option.bind_eq_some_iff.mp h
    obtain ⟨length, hlength, h⟩ := Option.bind_eq_some_iff.mp h
    obtain ⟨data, hdata, h⟩ := Option.bind_eq_some_iff.mp h
    obtain ⟨-, hstop⟩ := Prod.mk.inj (Option.some.inj h)
    obtain ⟨hstart, hlen, hprefix⟩ := slice_eq_some.mp hdata
    obtain ⟨ls, k, hreads, hk, -⟩ := readName_eq_some.mp hname
    have hle := hprefix.length_le
    rw [List.length_drop] at hle
    exact ⟨e, kind, length, ⟨ls, k, hreads, hk⟩, hkind, hlength, hstop.symm, by omega,
      fun _ => trivial⟩
  · rintro ⟨e, kind, length, ⟨ls, k, hreads, hk⟩, hkind, hlength, rfl, hin, -⟩
    have hfield : ∀ i ≤ 8, ∃ value, field bytes (e + i) = some value := by
      intro i hi
      exact Option.isSome_iff_exists.mp (field_isSome.mpr (by omega))
    obtain ⟨class_, hclass⟩ := hfield 2 (by omega)
    obtain ⟨high, hhigh⟩ := hfield 4 (by omega)
    obtain ⟨low, hlow⟩ := hfield 6 (by omega)
    exact ⟨_, readRecord_eq (readName_eq_some.mpr ⟨ls, k, hreads, hk, rfl⟩) hkind hclass hhigh hlow
      hlength hin⟩

theorem readRecords_isSome : ∀ {n o stop : ℕ},
    (∃ records, readRecords bytes n o = some (records, stop)) ↔
      Chain (RecordAt bytes (LooseName bytes) fun _ _ => True) n o stop
  | 0, o, stop => by
    constructor
    · rintro ⟨records, h⟩
      obtain ⟨-, rfl⟩ := Prod.mk.inj (Option.some.inj h)
      exact .nil
    · rintro ⟨⟩
      exact ⟨[], rfl⟩
  | n + 1, o, stop => by
    constructor
    · rintro ⟨records, h⟩
      unfold readRecords at h
      obtain ⟨⟨record, next⟩, hrecord, h⟩ := Option.bind_eq_some_iff.mp h
      obtain ⟨⟨rest, stop'⟩, hrest, h⟩ := Option.bind_eq_some_iff.mp h
      obtain ⟨-, rfl⟩ := Prod.mk.inj (Option.some.inj h)
      exact .cons (readRecord_isSome.mp ⟨record, hrecord⟩) (readRecords_isSome.mp ⟨rest, hrest⟩)
    · rintro (_ | ⟨hitem, hchain⟩)
      obtain ⟨record, hrecord⟩ := readRecord_isSome.mpr hitem
      obtain ⟨rest, hrest⟩ := readRecords_isSome.mpr hchain
      refine ⟨record.getD .placeholder :: rest, ?_⟩
      unfold readRecords
      simp only [hrecord, hrest, Option.bind_eq_bind, Option.bind_some, Option.pure_def]

theorem readQuestions_isSome : ∀ {n o stop : ℕ},
    (∃ questions, readQuestions bytes n o = some (questions, stop)) ↔
      Chain (QuestionAt bytes (LooseName bytes)) n o stop
  | 0, o, stop => by
    constructor
    · rintro ⟨questions, h⟩
      obtain ⟨-, rfl⟩ := Prod.mk.inj (Option.some.inj h)
      exact .nil
    · rintro ⟨⟩
      exact ⟨[], rfl⟩
  | n + 1, o, stop => by
    constructor
    · rintro ⟨questions, h⟩
      unfold readQuestions at h
      obtain ⟨⟨name, e⟩, hname, h⟩ := Option.bind_eq_some_iff.mp h
      obtain ⟨_, -, h⟩ := Option.bind_eq_some_iff.mp h
      obtain ⟨class_, hclass, h⟩ := Option.bind_eq_some_iff.mp h
      obtain ⟨⟨rest, stop'⟩, hrest, h⟩ := Option.bind_eq_some_iff.mp h
      obtain ⟨-, rfl⟩ := Prod.mk.inj (Option.some.inj h)
      obtain ⟨ls, k, hreads, hk, -⟩ := readName_eq_some.mp hname
      have hin := field_isSome.mp (Option.isSome_iff_exists.mpr ⟨class_, hclass⟩)
      exact .cons ⟨e, ⟨ls, k, hreads, hk⟩, hin, rfl⟩ (readQuestions_isSome.mp ⟨rest, hrest⟩)
    · rintro (_ | ⟨⟨e, ⟨ls, k, hreads, hk⟩, hin, rfl⟩, hchain⟩)
      obtain ⟨kind, hkind⟩ := Option.isSome_iff_exists.mp
        (field_isSome.mpr (show e + 2 ≤ bytes.length by omega))
      obtain ⟨class_, hclass⟩ := Option.isSome_iff_exists.mp
        (field_isSome.mpr (show e + 2 + 2 ≤ bytes.length by omega))
      obtain ⟨rest, hrest⟩ := readQuestions_isSome.mpr hchain
      have hname := readName_eq_some.mpr ⟨ls, k, hreads, hk, rfl⟩
      refine ⟨⟨dotted ls, kind, class_⟩ :: rest, ?_⟩
      unfold readQuestions
      simp only [hname, hkind, hclass, hrest, Option.bind_eq_bind, Option.bind_some,
        Option.pure_def]

/-- The parser accepts exactly the loose packets. -/
theorem parse_isSome_iff : (Message.parse bytes).isSome ↔ LoosePacket bytes := by
  rw [Option.isSome_iff_exists]
  constructor
  · rintro ⟨message, h⟩
    unfold Message.parse at h
    obtain ⟨_, -, h⟩ := Option.bind_eq_some_iff.mp h
    obtain ⟨_, -, h⟩ := Option.bind_eq_some_iff.mp h
    obtain ⟨qs, hqs, h⟩ := Option.bind_eq_some_iff.mp h
    obtain ⟨an, han, h⟩ := Option.bind_eq_some_iff.mp h
    obtain ⟨au, hau, h⟩ := Option.bind_eq_some_iff.mp h
    obtain ⟨ad, had, h⟩ := Option.bind_eq_some_iff.mp h
    obtain ⟨⟨questions, mid⟩, hquestions, h⟩ := Option.bind_eq_some_iff.mp h
    obtain ⟨⟨answers, o₁⟩, hanswers, h⟩ := Option.bind_eq_some_iff.mp h
    obtain ⟨⟨authority, o₂⟩, hauthority, h⟩ := Option.bind_eq_some_iff.mp h
    obtain ⟨⟨additional, stop⟩, hadditional, -⟩ := Option.bind_eq_some_iff.mp h
    have hrecords := ((readRecords_isSome.mp ⟨_, hanswers⟩).append
      (readRecords_isSome.mp ⟨_, hauthority⟩)).append (readRecords_isSome.mp ⟨_, hadditional⟩)
    exact ⟨_, _, mid, stop, ⟨qs, an, au, ad, hqs, han, hau, had, rfl, rfl⟩,
      readQuestions_isSome.mp ⟨questions, hquestions⟩, hrecords⟩
  · rintro ⟨_, _, mid, stop, ⟨qs, an, au, ad, hqs, han, hau, had, rfl, rfl⟩, hquestions, hrecords⟩
    obtain ⟨o₂, hrecords, hadditional⟩ := hrecords.split
    obtain ⟨o₁, hanswers, hauthority⟩ := hrecords.split
    obtain ⟨questions, hquestions⟩ := readQuestions_isSome.mpr hquestions
    obtain ⟨answers, hanswers⟩ := readRecords_isSome.mpr hanswers
    obtain ⟨authority, hauthority⟩ := readRecords_isSome.mpr hauthority
    obtain ⟨additional, hadditional⟩ := readRecords_isSome.mpr hadditional
    have hlen := field_isSome.mp (Option.isSome_iff_exists.mpr ⟨ad, had⟩)
    obtain ⟨flags, hflags⟩ := Option.isSome_iff_exists.mp
      (field_isSome.mpr (show 2 + 2 ≤ bytes.length by omega))
    obtain ⟨id, hid⟩ := Option.isSome_iff_exists.mp
      (field_isSome.mpr (show 0 + 2 ≤ bytes.length by omega))
    unfold Message.parse
    simp only [hflags, hid, hqs, han, hau, had, hquestions, hanswers, hauthority, hadditional,
      Option.bind_eq_bind, Option.bind_some, Option.pure_def]
    exact ⟨_, rfl⟩

/-! ### What is accepted beyond the format -/

/-- No length byte of the name at an offset uses the reserved bits. -/
def ShortLabels (bytes : List UInt8) (o : ℕ) : Prop :=
  ∀ ls k e, Reads AnyLength bytes o ls k e → ∀ l ∈ ls, l.length < 64

/-- If the record at an offset is a PTR record, its data is one name without reserved bits. -/
def ExactTarget (bytes : List UInt8) (o : ℕ) : Prop :=
  ∀ ls k e length, Reads AnyLength bytes o ls k e → field bytes e = some TYPE_PTR →
    field bytes (e + 8) = some length →
      (∃ ls k, Reads AnyLength bytes (e + 10) ls k (e + 10 + length.toNat)) ∧
      ShortLabels bytes (e + 10)

/-- The names and PTR records that the parser comes to are those of the format. -/
def PlainPacket (bytes : List UInt8) : Prop :=
  ∀ questions records, Counts bytes questions records →
    (∀ o, Reached (QuestionAt bytes (LooseName bytes)) questions 12 o → ShortLabels bytes o) ∧
    ∀ mid o, Chain (QuestionAt bytes (LooseName bytes)) questions 12 mid →
      Reached (RecordAt bytes (LooseName bytes) fun _ _ => True) records mid o →
        ShortLabels bytes o ∧ ExactTarget bytes o

theorem reads_short {o k e : ℕ} {ls : List (List UInt8)} (h : Reads AnyLength bytes o ls k e)
    (hshort : ∀ l ∈ ls, l.length < 64) : Reads ShortLength bytes o ls k e := by
  induction h with
  | root h => exact .root h
  | label hb hp h0 hok hlen hl _ ih =>
    obtain ⟨hl', hrest⟩ := List.forall_mem_cons.mp hshort
    have hok : ShortLength _ := lt_of_eq_of_lt hlen.symm hl'
    exact .label hb hp h0 hok hlen hl (ih hrest)
  | pointer hb hp hlow _ ih => exact .pointer hb hp hlow (ih hshort)

theorem short_of_reads {o k e : ℕ} {ls : List (List UInt8)} (h : Reads ShortLength bytes o ls k e) :
    ∀ l ∈ ls, l.length < 64 := by
  induction h with
  | root h => exact fun l hl => absurd hl List.not_mem_nil
  | label hb hp h0 hok hlen hl _ ih => exact List.forall_mem_cons.mpr ⟨hlen ▸ hok, ih⟩
  | pointer hb hp hlow _ ih => exact ih

theorem shortLabels_of_rfcName {o e : ℕ} (h : RfcName bytes o e) : ShortLabels bytes o := by
  obtain ⟨ls, k, hreads⟩ := h
  intro ls' k' e' hreads'
  obtain ⟨rfl, -⟩ := hreads.unique hreads'
  exact short_of_reads hreads

theorem rfcName_of_reads {o e k : ℕ} {ls : List (List UInt8)}
    (h : Reads AnyLength bytes o ls k e) (hshort : ShortLabels bytes o) : RfcName bytes o e :=
  ⟨ls, k, reads_short h (hshort ls k e h)⟩

theorem questionAt_unique (x y y' : ℕ) (h : QuestionAt bytes (LooseName bytes) x y)
    (h' : QuestionAt bytes (RfcName bytes) x y') : y = y' := by
  obtain ⟨e, ⟨ls, k, hreads, -⟩, -, rfl⟩ := h
  obtain ⟨e', ⟨ls', k', hreads'⟩, -, rfl⟩ := h'
  rw [(hreads.unique hreads').2.2]

theorem recordAt_unique (x y y' : ℕ)
    (h : RecordAt bytes (LooseName bytes) (fun _ _ => True) x y)
    (h' : RecordAt bytes (RfcName bytes) (RfcName bytes) x y') : y = y' := by
  obtain ⟨e, kind, length, ⟨ls, k, hreads, -⟩, -, hlength, rfl, -⟩ := h
  obtain ⟨e', kind', length', ⟨ls', k', hreads'⟩, -, hlength', rfl, -⟩ := h'
  obtain ⟨-, -, rfl⟩ := hreads.unique hreads'
  rw [hlength] at hlength'
  rw [Option.some.inj hlength']

theorem counts_unique {questions records questions' records' : ℕ}
    (h : Counts bytes questions records) (h' : Counts bytes questions' records') :
    questions = questions' ∧ records = records' := by
  obtain ⟨qs, an, au, ad, hqs, han, hau, had, rfl, rfl⟩ := h
  obtain ⟨qs', an', au', ad', hqs', han', hau', had', rfl, rfl⟩ := h'
  rw [hqs] at hqs'
  rw [han] at han'
  rw [hau] at hau'
  rw [had] at had'
  obtain rfl := Option.some.inj hqs'
  obtain rfl := Option.some.inj han'
  obtain rfl := Option.some.inj hau'
  obtain rfl := Option.some.inj had'
  exact ⟨rfl, rfl⟩

theorem plainPacket_of_rfcPacket (h : RfcPacket bytes) : PlainPacket bytes := by
  obtain ⟨questions, records, mid, stop, hcounts, hquestions, hrecords⟩ := h
  intro questions' records' hcounts'
  obtain ⟨rfl, rfl⟩ := counts_unique hcounts hcounts'
  constructor
  · rintro o ⟨m, hm, hchain⟩
    obtain ⟨next, e, hname, -⟩ := (hchain.meet questionAt_unique hquestions).1 hm
    exact shortLabels_of_rfcName hname
  · rintro mid' o hmid ⟨m, hm, hchain⟩
    obtain rfl := (hmid.meet questionAt_unique hquestions).2 rfl
    obtain ⟨next, e, kind, length, hname, hkind, hlength, rfl, -, htarget⟩ :=
      (hchain.meet recordAt_unique hrecords).1 hm
    refine ⟨shortLabels_of_rfcName hname, fun ls k e' length' hreads hptr hlength' => ?_⟩
    obtain ⟨ls', k', hreads'⟩ := hname
    obtain ⟨-, -, rfl⟩ := hreads.unique hreads'
    rw [hkind] at hptr
    rw [hlength] at hlength'
    obtain rfl := Option.some.inj hlength'
    have hexact := htarget (Option.some.inj hptr)
    obtain ⟨ls₂, k₂, hreads₂⟩ := hexact
    exact ⟨⟨ls₂, k₂, hreads₂.imp fun _ _ => trivial⟩, shortLabels_of_rfcName ⟨ls₂, k₂, hreads₂⟩⟩

theorem rfcPacket_of_plainPacket (h : LoosePacket bytes) (hplain : PlainPacket bytes) :
    RfcPacket bytes := by
  obtain ⟨questions, records, mid, stop, hcounts, hquestions, hrecords⟩ := h
  obtain ⟨hnames, hdata⟩ := hplain questions records hcounts
  refine ⟨questions, records, mid, stop, hcounts, hquestions.imp ?_, hrecords.imp ?_⟩
  · rintro x y hx ⟨e, ⟨ls, k, hreads, -⟩, hin, rfl⟩
    exact ⟨e, rfcName_of_reads hreads (hnames x hx), hin, rfl⟩
  · rintro x y hx ⟨e, kind, length, ⟨ls, k, hreads, -⟩, hkind, hlength, rfl, hin, -⟩
    obtain ⟨hshort, hexact⟩ := hdata mid x hquestions hx
    refine ⟨e, kind, length, rfcName_of_reads hreads hshort, hkind, hlength, rfl, hin, ?_⟩
    rintro rfl
    obtain ⟨⟨ls₂, k₂, hreads₂⟩, hshort₂⟩ := hexact ls k e length hreads hkind hlength
    exact rfcName_of_reads hreads₂ hshort₂

/-- What is accepted has the format exactly if its names use no reserved bits and its PTR records
hold one name each. -/
theorem accepts_only_dns_iff (bytes : List UInt8) :
    ((Message.parse bytes).isSome → RfcPacket bytes) ↔ (LoosePacket bytes → PlainPacket bytes) := by
  rw [parse_isSome_iff]
  constructor
  · intro h hloose
    exact plainPacket_of_rfcPacket (h hloose)
  · intro h hloose
    exact rfcPacket_of_plainPacket hloose (h hloose)

/-- A packet of one PTR record without a name in its data is accepted. -/
theorem accepts_empty_target :
    let bytes : List UInt8 := [0, 0, 0, 0, 0, 0, 0, 1, 0, 0, 0, 0, 0, 0, 12, 0, 1, 0, 0, 0, 0, 0, 0]
    (Message.parse bytes).isSome ∧ ¬RfcPacket bytes := by
  intro bytes
  refine ⟨by decide +kernel, fun h => ?_⟩
  obtain ⟨hnames, hdata⟩ := plainPacket_of_rfcPacket h 0 1
    ⟨0, 1, 0, 0, rfl, rfl, rfl, rfl, rfl, rfl⟩
  obtain ⟨-, hexact⟩ := hdata 12 12 .nil ⟨0, Nat.one_pos, .nil⟩
  obtain ⟨⟨ls, k, hreads⟩, -⟩ := hexact [] 1 13 0 (.root rfl) rfl rfl
  have hnone : bytes[23]? = none := rfl
  cases hreads with
  | label hb => exact nomatch hnone ▸ hb

end Rustorr.Dns
