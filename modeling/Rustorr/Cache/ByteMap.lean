import Rustorr.Cache.Extents
import Rustorr.Cache.Store

/-! What a store is for: a map from the bytes of open torrents to the values
last written to them. -/

namespace Rustorr

open Cache (Error)

/-- An open torrent and the bytes of its files that hold a value. -/
@[ext] structure ByteMap.Entry where
  layout : TorrentLayout
  bytes : ℕ → ℕ → Option UInt8

/-- The open torrents of a plain byte map. -/
def ByteMap : Type := InfoHash → Option ByteMap.Entry

namespace ByteMap

open PieceStore (Op Reply)

namespace Entry

def opened (layout : TorrentLayout) : Entry := ⟨layout, fun _ _ => none⟩

/-- The last write to a byte decides its value. -/
def write (e : Entry) (file offset : ℕ) (data : List UInt8) : Entry :=
  { e with bytes := fun f pos =>
      if f = file ∧ offset ≤ pos ∧ pos < offset + data.length then data[pos - offset]?
      else e.bytes f pos }

@[simp] theorem write_nil (e : Entry) (file offset : ℕ) : e.write file offset [] = e := by
  have hbytes : (e.write file offset []).bytes = e.bytes := by
    funext f pos
    exact if_neg fun h => by simp at h; omega
  exact Entry.ext rfl hbytes

/-- The values of `len` bytes, if every one of them holds one. -/
def read (e : Entry) (file offset len : ℕ) : Option (List UInt8) :=
  (List.range len).mapM fun i => e.bytes file (offset + i)

/-- How many bytes of the range hold no value yet. -/
def fresh (e : Entry) (file : ℕ) (range : ByteRange) : ℕ :=
  (range.bytes.filter fun pos => (e.bytes file pos).isNone).card

end Entry

def set (m : ByteMap) (torrent : InfoHash) (e : Option Entry) : ByteMap :=
  fun h => if h = torrent then e else m h

@[simp] theorem set_self (m : ByteMap) (torrent : InfoHash) (e : Option Entry) :
    m.set torrent e torrent = e := if_pos rfl

theorem set_of_ne (m : ByteMap) {torrent h : InfoHash} (e : Option Entry) (hne : h ≠ torrent) :
    m.set torrent e h = m h := if_neg hne

theorem set_of_eq {m : ByteMap} {torrent : InfoHash} {e : Option Entry} (h : m torrent = e) :
    m.set torrent e = m := by
  funext k
  by_cases hk : k = torrent
  · rw [hk, set_self, h]
  · rw [set_of_ne _ _ hk]

def empty : ByteMap := fun _ => none

/-- An open torrent and the range of one of its files that `len` bytes at
`offset` cover. -/
def admitted (m : ByteMap) (torrent : InfoHash) (file : FileIndex) (offset len : ℕ) :
    Except Error (Entry × ByteRange) :=
  match m torrent with
  | none => .error (.unknownTorrent torrent)
  | some e => (e.layout.checkRange torrent file offset len).map fun range => (e, range)

def readReply (torrent : InfoHash) (file : FileIndex) (offset len : ℕ) (e : Entry)
    (range : ByteRange) : Reply :=
  match e.read file.zeroBased offset len with
  | some data => .ok (.bytes data)
  | none => .error (.missing torrent file range)

/-- The reply of a byte map; it does not look at completed pieces. -/
def reply (m : ByteMap) : Op → Reply
  | .openTorrent _ _ => .ok (.recovered ⟨0, []⟩)
  | .write torrent file offset data =>
    (m.admitted torrent file offset data.length).map fun p => .added (p.1.fresh file.zeroBased p.2)
  | .read torrent file offset len =>
    (m.admitted torrent file offset len).bind fun p => readReply torrent file offset len p.1 p.2
  | .remove _ => .ok .done
  | .pieceCompleted _ _ => .ok .done

def next (m : ByteMap) : Op → ByteMap
  | .openTorrent torrent layout => m.set torrent (some (.opened layout))
  | .write torrent file offset data =>
    match m.admitted torrent file offset data.length with
    | .ok (e, _) => m.set torrent (some (e.write file.zeroBased offset data))
    | .error _ => m
  | .read _ _ _ _ => m
  | .remove torrent => m.set torrent none
  | .pieceCompleted _ _ => m

def step (m : ByteMap) (op : Op) : Reply × ByteMap := (m.reply op, m.next op)

/-- The byte map after a sequence of operations on fresh storage. -/
def after (ops : List Op) : ByteMap := Mealy.after step empty ops

theorem mapM_eq_some {α β : Type} {f : α → Option β} {l : List α} {r : List β} :
    l.mapM f = some r ↔ r.length = l.length ∧ ∀ i : ℕ, (l[i]?).bind f = r[i]? := by
  induction l generalizing r with
  | nil =>
    cases r with
    | nil => simp
    | cons b r => simp
  | cons a l ih =>
    rw [List.mapM_cons]
    constructor
    · intro h
      obtain ⟨b, hb, h⟩ := Option.bind_eq_some_iff.mp h
      obtain ⟨bs, hbs, h⟩ := Option.bind_eq_some_iff.mp h
      cases h
      obtain ⟨hlen, hall⟩ := ih.mp hbs
      refine ⟨by simp [hlen], fun i => ?_⟩
      cases i with
      | zero => simpa using hb
      | succ i => simpa using hall i
    · rintro ⟨hlen, hall⟩
      cases r with
      | nil => simp at hlen
      | cons b bs =>
        have hb : f a = some b := by simpa using hall 0
        have hbs : l.mapM f = some bs :=
          ih.mpr ⟨by simpa using hlen, fun i => by simpa using hall (i + 1)⟩
        rw [hb, hbs]
        rfl

theorem Entry.read_eq_some {e : Entry} {file offset len : ℕ} {data : List UInt8} :
    e.read file offset len = some data ↔
      data.length = len ∧ ∀ i < len, e.bytes file (offset + i) = data[i]? := by
  rw [Entry.read, mapM_eq_some, List.length_range]
  refine and_congr_right fun hlen => ⟨fun h i hi => ?_, fun h i => ?_⟩
  · simpa [List.getElem?_range hi] using h i
  · by_cases hi : i < len
    · simpa [List.getElem?_range hi] using h i hi
    · simp [hlen, not_lt.mp hi]

theorem Entry.read_eq_none {e : Entry} {file offset len : ℕ} :
    e.read file offset len = none ↔ ∃ i < len, e.bytes file (offset + i) = none := by
  constructor
  · intro h
    by_contra hall
    push Not at hall
    have hget : ∀ i < len, ∃ v, e.bytes file (offset + i) = some v := fun i hi =>
      Option.ne_none_iff_exists'.mp (hall i hi)
    have hread : e.read file offset len = some ((List.range len).map fun i =>
        (e.bytes file (offset + i)).getD 0) := by
      refine Entry.read_eq_some.mpr ⟨by simp, fun i hi => ?_⟩
      obtain ⟨v, hv⟩ := hget i hi
      simp [List.getElem?_range hi, hv]
    rw [h] at hread
    cases hread
  · rintro ⟨i, hi, hnone⟩
    refine Option.eq_none_iff_forall_ne_some.mpr fun data hdata => ?_
    obtain ⟨hlen, hall⟩ := Entry.read_eq_some.mp hdata
    have := hall i hi
    rw [hnone, List.getElem?_eq_getElem (hlen ▸ hi)] at this
    cases this

end ByteMap

/-- A file of a store agrees with the byte map: the record accounts for the
bytes that hold a value, and the storage holds these values. -/
structure FileAgrees (x : Extents) (bytes content : ℕ → Option UInt8) : Prop where
  recorded : ∀ pos, pos ∈ x.bytes ↔ (bytes pos).isSome
  stored : ∀ pos v, bytes pos = some v → content pos = some v

namespace FileAgrees

variable {x : Extents} {bytes content : ℕ → Option UInt8} {range : ByteRange}

theorem empty (content : ℕ → Option UInt8) : FileAgrees Extents.empty (fun _ => none) content :=
  ⟨by simp, by simp⟩

/-- A read succeeds on the storage exactly where the byte map holds every byte. -/
theorem covers_iff (h : FileAgrees x bytes content) {offset len : ℕ} (hstart : range.start = offset)
    (hend : range.end_ = offset + len) :
    x.covers range = true ↔ ∀ i < len, (bytes (offset + i)).isSome := by
  rw [x.covers_iff, ByteRange.bytes, hstart, hend]
  constructor
  · intro hsub i hi
    exact (h.recorded _).mp (hsub (Finset.mem_Ico.mpr ⟨by omega, by omega⟩))
  · intro hall pos hpos
    obtain ⟨h1, h2⟩ := Finset.mem_Ico.mp hpos
    have := hall (pos - offset) (by omega)
    rw [show offset + (pos - offset) = pos by omega] at this
    exact (h.recorded _).mpr this

/-- Either the whole range is recorded and the storage holds the values a read
of the byte map gives, or neither of them can read it. -/
theorem read_cases {e : ByteMap.Entry} {file : ℕ} (h : FileAgrees x (e.bytes file) content)
    {offset len : ℕ} (hstart : range.start = offset) (hend : range.end_ = offset + len) :
    (x.covers range = true ∧ ∃ data, e.read file offset len = some data ∧ data.length = len ∧
      ∀ i < len, content (offset + i) = data[i]?) ∨
    (x.covers range = false ∧ e.read file offset len = none) := by
  cases hread : e.read file offset len with
  | none =>
    obtain ⟨i, hi, hnone⟩ := ByteMap.Entry.read_eq_none.mp hread
    refine Or.inr ⟨Bool.eq_false_iff.mpr fun hc => ?_, rfl⟩
    have hsome := (h.covers_iff hstart hend).mp hc i hi
    rw [hnone] at hsome
    cases hsome
  | some data =>
    obtain ⟨hdata, hall⟩ := ByteMap.Entry.read_eq_some.mp hread
    have hget : ∀ i (hi : i < len),
        e.bytes file (offset + i) = some (data.get ⟨i, hdata ▸ hi⟩) := fun i hi => by
      rw [hall i hi, List.getElem?_eq_getElem (hdata ▸ hi), List.get_eq_getElem]
    refine Or.inl ⟨(h.covers_iff hstart hend).mpr fun i hi => by simp [hget i hi], data, rfl,
      hdata, fun i hi => ?_⟩
    rw [h.stored _ _ (hget i hi), List.getElem?_eq_getElem (hdata ▸ hi), List.get_eq_getElem]

theorem added_eq {e : ByteMap.Entry} {file : ℕ} (h : FileAgrees x (e.bytes file) content)
    (range : ByteRange) :
    (x.insert range).1 = e.fresh file range := by
  rw [x.added_insert]
  congr 1
  ext pos
  rw [Finset.mem_sdiff, Finset.mem_filter, h.recorded]
  simp

/-- A write to the storage that keeps the other bytes keeps the agreement. -/
theorem insert (h : FileAgrees x bytes content) {offset : ℕ} {data : List UInt8}
    (hstart : range.start = offset) (hend : range.end_ = offset + data.length)
    {content' : ℕ → Option UInt8}
    (hnew : ∀ pos, offset ≤ pos → pos < offset + data.length → content' pos = data[pos - offset]?)
    (hold : ∀ pos v, ¬(offset ≤ pos ∧ pos < offset + data.length) → content pos = some v →
      content' pos = some v) :
    FileAgrees (x.insert range).2
      (fun pos => if offset ≤ pos ∧ pos < offset + data.length then data[pos - offset]?
        else bytes pos) content' where
  recorded pos := by
    rw [x.bytes_insert, Finset.mem_union, ByteRange.bytes, hstart, hend, Finset.mem_Ico,
      h.recorded]
    by_cases hpos : offset ≤ pos ∧ pos < offset + data.length
    · rw [if_pos hpos, List.getElem?_eq_getElem (show pos - offset < data.length by omega)]
      simp [hpos]
    · rw [if_neg hpos]
      simp [hpos]
  stored pos v hv := by
    by_cases hpos : offset ≤ pos ∧ pos < offset + data.length
    · rw [if_pos hpos] at hv
      rw [hnew pos hpos.1 hpos.2, hv]
    · rw [if_neg hpos] at hv
      exact hold pos v hpos (h.stored pos v hv)

end FileAgrees

end Rustorr
