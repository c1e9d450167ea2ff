import Rustorr.Gst.InitInfo

/-! What `mp4init.rs` reads out of any data: the boxes as a tree of their own, and the tracks in it. -/

namespace Rustorr.InitInfo

open BigEndian Buffer Except Text

/-! ### Boxes without positions -/

structure Node where
  kind : List UInt8
  payload : List UInt8
  deriving DecidableEq, Repr

/-- How long the first box of a region says it is, and its header. -/
def sizeOf (bytes : List UInt8) : Option (ℕ × ℕ) :=
  if be32 bytes = 1 then
    if bytes.length < 16 then none else some (be64 (bytes.drop 8), 16)
  else if be32 bytes = 0 then some (bytes.length, 8)
  else some ((be32 bytes).toNat, 8)

/-- The first box of a region, and what follows it. -/
def front (bytes : List UInt8) : Option (Node × List UInt8) :=
  if bytes.length < 8 then none
  else (sizeOf bytes).bind fun found =>
    if found.1 < found.2 ∨ found.1 > bytes.length then none
    else some (⟨(bytes.drop 4).take 4, (bytes.take found.1).drop found.2⟩, bytes.drop found.1)

def nodesUpTo : ℕ → List UInt8 → List Node
  | 0, _ => []
  | fuel + 1, bytes =>
    match front bytes with
    | none => []
    | some (node, rest) => node :: nodesUpTo fuel rest

/-- The boxes of a region, up to where none can be read. -/
def nodes (bytes : List UInt8) : List Node := nodesUpTo bytes.length bytes

def child (bytes : List UInt8) (kind : String) : Option Node :=
  (nodes bytes).find? fun node => node.kind = fourCc kind

/-! ### Reading a box -/

variable {data : List UInt8} {cursor stop : ℕ}

/-- An item is a box of the data. -/
structure Item.Is (data : List UInt8) (item : Item) (node : Node) : Prop where
  kind : item.kind = node.kind
  le : item.payloadStart ≤ item.end_
  end_le : item.end_ ≤ data.length
  payload : part data item.payloadStart item.end_ = node.payload

theorem be32_take (bytes : List UInt8) : be32 (bytes.take 4) = be32 bytes := by
  match bytes with
  | [] | [_] | [_, _] | [_, _, _] => rfl
  | _ :: _ :: _ :: _ :: _ => rfl

theorem be64_take (bytes : List UInt8) : be64 (bytes.take 8) = be64 bytes := by
  unfold be64
  have hfirst : be32 (bytes.take 8) = be32 bytes := by
    rw [← be32_take, List.take_take, min_eq_left (by decide), be32_take]
  rw [hfirst, List.drop_take, be32_take]

theorem u32At_eq {offset : ℕ} (h : offset + 4 ≤ stop) (hstop : stop ≤ data.length) :
    u32At data offset = .ok (be32 (part data offset stop)) := by
  unfold u32At
  rw [slice_eq (by omega) (by omega), ← take_part h, ← be32_take (part data offset stop)]
  rfl

theorem header_of_sizeOf {bytes : List UInt8} {size header : ℕ} (h : sizeOf bytes = some (size, header)) :
    8 ≤ header := by
  unfold sizeOf at h
  split at h
  · split at h
    · cases h
    · cases h
      decide
  · split at h <;> cases h <;> decide

theorem boxSize_eq (hstop : stop ≤ data.length) (hroom : cursor + 8 ≤ stop) :
    boxSize data cursor stop (be32 (part data cursor stop)) = .ok (sizeOf (part data cursor stop)) := by
  have hlength := @length_part _ data cursor stop hstop
  unfold boxSize sizeOf
  by_cases hextended : be32 (part data cursor stop) = 1
  · rw [if_pos hextended, if_pos hextended]
    by_cases hshort : cursor + 16 > stop
    · rw [if_pos hshort, if_pos (by omega)]
    · have htake : part data (cursor + 8) (cursor + 8 + 8) = (part data (cursor + 8) stop).take 8 :=
        (take_part (by omega)).symm
      rw [if_neg hshort, if_neg (by omega), slice_eq (by omega) (by omega), drop_part, htake]
      show Except.ok (some (be64 ((part data (cursor + 8) stop).take 8), 16)) = _
      rw [be64_take]
  · rw [if_neg hextended, if_neg hextended, hlength]
    split <;> rfl

theorem readBox_cases (hstop : stop ≤ data.length) (cursor : ℕ) :
    (front (part data cursor stop) = none ∧ readBox data cursor stop = .ok none) ∨
      ∃ node rest item next, front (part data cursor stop) = some (node, rest) ∧
        readBox data cursor stop = .ok (some (item, next)) ∧ item.Is data node ∧
        cursor + 8 ≤ next ∧ next ≤ stop ∧ part data next stop = rest := by
  have hlength := @length_part _ data cursor stop hstop
  unfold front readBox
  by_cases hshort : cursor + 8 > stop
  · left
    rw [if_pos (by omega), if_pos (Or.inr hshort)]
    exact ⟨rfl, rfl⟩
  · rw [if_neg (by omega), if_neg (by omega), u32At_eq (by omega) hstop, slice_eq (by omega) (by omega), ok_bind,
      ok_bind, boxSize_eq hstop (by omega), ok_bind]
    cases hsize : sizeOf (part data cursor stop) with
    | none => exact Or.inl ⟨rfl, rfl⟩
    | some found =>
      obtain ⟨size, header⟩ := found
      simp only [Option.bind_some, hlength]
      by_cases hbad : size < header ∨ size > stop - cursor
      · rw [if_pos hbad, if_pos hbad]
        exact Or.inl ⟨rfl, rfl⟩
      · rw [if_neg hbad, if_neg hbad]
        have hheader := header_of_sizeOf hsize
        have hkind : part data (cursor + 4) (cursor + 4 + 4) = ((part data cursor stop).drop 4).take 4 := by
          rw [drop_part, take_part (by omega)]
        have hpayload : part data (cursor + header) (cursor + size) =
            ((part data cursor stop).take size).drop header := by
          rw [take_part (by omega), drop_part]
        have hle : cursor + header ≤ cursor + size := by omega
        have hend : cursor + size ≤ stop := by omega
        exact Or.inr ⟨_, _, _, _, rfl, rfl, ⟨hkind, hle, hend.trans hstop, hpayload⟩, by omega, hend,
          (drop_part data cursor stop size).symm⟩

theorem front_length {bytes rest : List UInt8} {node : Node} (h : front bytes = some (node, rest)) :
    rest.length + 8 ≤ bytes.length := by
  unfold front at h
  split at h
  · cases h
  · obtain ⟨⟨size, header⟩, hsize, h⟩ := Option.bind_eq_some_iff.mp h
    have hheader := header_of_sizeOf hsize
    simp only at h
    split at h
    · cases h
    · cases h
      rw [List.length_drop]
      omega

/-- As many rounds as there are bytes are enough. -/
theorem nodesUpTo_eq {fuel : ℕ} {bytes : List UInt8} (h : bytes.length ≤ fuel) :
    nodesUpTo fuel bytes = nodes bytes := by
  induction fuel using Nat.strong_induction_on generalizing bytes with
  | _ fuel ih =>
    have hempty : front [] = none := rfl
    cases fuel with
    | zero => rw [List.length_eq_zero_iff.mp (Nat.le_zero.mp h)]; rfl
    | succ fuel =>
      cases hbytes : bytes with
      | nil => rfl
      | cons b more =>
        rw [← hbytes]
        have hlength : bytes.length = more.length + 1 := by rw [hbytes, List.length_cons]
        unfold nodes
        rw [hlength, nodesUpTo, nodesUpTo]
        cases hfront : front bytes with
        | none => rfl
        | some found =>
          obtain ⟨node, rest⟩ := found
          have hrest := front_length hfront
          simp only
          rw [ih fuel (by omega) (by omega), ih more.length (by omega) (by omega)]

theorem nodes_of_none {bytes : List UInt8} (h : front bytes = none) : nodes bytes = [] := by
  rw [← nodesUpTo_eq (Nat.le_succ bytes.length), nodesUpTo, h]

theorem nodes_of_some {bytes rest : List UInt8} {node : Node} (h : front bytes = some (node, rest)) :
    nodes bytes = node :: nodes rest := by
  have hrest := front_length h
  rw [← nodesUpTo_eq (Nat.le_succ bytes.length), nodesUpTo, h]
  exact congrArg _ (nodesUpTo_eq (by omega))

/-! ### Positions and trees -/

/-- What is found at a position, if anything, is what is found in the tree. -/
def Finds (data : List UInt8) (found : Checked (Option Item)) (node : Option Node) : Prop :=
  (found = .ok none ∧ node = none) ∨ ∃ item n, found = .ok (some item) ∧ node = some n ∧ item.Is data n

theorem findChildUpTo_finds (hstop : stop ≤ data.length) (kind : String) {fuel : ℕ} {cursor : ℕ}
    (hfuel : stop ≤ cursor + fuel) :
    Finds data (findChildUpTo data (fourCc kind) stop fuel cursor) (child (part data cursor stop) kind) := by
  unfold child
  induction fuel generalizing cursor with
  | zero =>
    rw [part_eq_nil (by omega)]
    exact Or.inl ⟨rfl, rfl⟩
  | succ fuel ih =>
    unfold findChildUpTo
    obtain ⟨hfront, hread⟩ | ⟨node, rest, item, next, hfront, hread, his, hnext, hle, hrest⟩ :=
      readBox_cases hstop cursor
    · rw [hread, nodes_of_none hfront]
      exact Or.inl ⟨rfl, rfl⟩
    · rw [hread, nodes_of_some hfront, List.find?_cons]
      by_cases hkind : node.kind = fourCc kind
      · rw [decide_eq_true hkind]
        exact Or.inr ⟨item, node, if_pos (his.kind.trans hkind), rfl, his⟩
      · have hfinds := @ih next (by omega)
        have hother : ¬item.kind = fourCc kind := his.kind ▸ hkind
        rw [decide_eq_false hkind, ← hrest, ok_bind]
        simp only [if_neg hother]
        exact hfinds

/-- How what is found is gone on with. -/
theorem Finds.bind_eq {β : Type} {found : Checked (Option Item)} {node : Option Node} (h : Finds data found node)
    {f : Option Item → Checked (Option β)} {g : Node → Option β} (hnone : f none = .ok none)
    (hsome : ∀ item n, item.Is data n → f (some item) = .ok (g n)) : (found >>= f) = .ok (node.bind g) := by
  obtain ⟨rfl, rfl⟩ | ⟨item, n, rfl, rfl, his⟩ := h
  · exact hnone
  · exact hsome item n his

namespace Item.Is

variable {item : Item} {node : Node}

theorem length_payload (h : item.Is data node) : node.payload.length = item.end_ - item.payloadStart := by
  rw [← h.payload, length_part h.end_le]

theorem slice_payload (h : item.Is data node) : slice data item.payloadStart item.end_ = .ok node.payload := by
  rw [slice_eq h.le h.end_le, h.payload]

theorem finds (h : item.Is data node) (n : ℕ) (kind : String) :
    Finds data (findChild data (item.payloadStart + n) item.end_ kind) (child (node.payload.drop n) kind) := by
  rw [← h.payload, drop_part]
  have hend := h.end_le
  exact findChildUpTo_finds h.end_le kind (by omega)

theorem finds_all (h : item.Is data node) (kind : String) :
    Finds data (findChild data item.payloadStart item.end_ kind) (child node.payload kind) := h.finds 0 kind

theorem u16At_eq (h : item.Is data node) {n : ℕ} (hn : n + 2 ≤ node.payload.length) :
    u16At data (item.payloadStart + n) = .ok (be16 (node.payload.drop n)) := by
  have hlength := h.length_payload
  have hle := h.le
  have hend := h.end_le
  have htake : ∀ bytes, be16 (bytes.take 2) = be16 bytes := by
    intro bytes
    match bytes with
    | [] | [_] => rfl
    | _ :: _ :: _ => rfl
  unfold u16At
  rw [slice_eq (by omega) (by omega), ← h.payload, drop_part, ← htake (part data _ item.end_), take_part (by omega)]
  rfl

theorem u32At_eq (h : item.Is data node) {n : ℕ} (hn : n + 4 ≤ node.payload.length) :
    u32At data (item.payloadStart + n) = .ok (be32 (node.payload.drop n)) := by
  have hlength := h.length_payload
  rw [← h.payload, drop_part]
  exact InitInfo.u32At_eq (by omega) h.end_le

end Item.Is

/-! ### Codecs -/

/-- The texts of video codecs, which no audio codec is part of. -/
def NoAudio (text : List Char) : Prop := 'm' ∉ text

theorem noAudio_decimal (n : ℕ) : NoAudio (decimal n) := notMem_decimal (by decide) n

theorem noAudio_decimal2 (n : ℕ) : NoAudio (decimal2 n) := by
  intro hmem
  rcases List.mem_append.mp hmem with hmem | hmem
  · exact absurd (List.eq_of_mem_replicate hmem) (by decide)
  · exact noAudio_decimal n hmem

theorem noAudio_hex2 (b : UInt8) : NoAudio (hex2 b) := by
  have hdigit : ∀ n : Fin 16, 'm' ≠ Percent.hexDigit n := by decide
  have hlow := hdigit ⟨b.toNat % 16, by omega⟩
  have hhigh := hdigit ⟨b.toNat / 16, by have := b.toNat_lt; omega⟩
  exact List.not_mem_cons_of_ne_of_not_mem hhigh (List.not_mem_cons_of_ne_of_not_mem hlow List.not_mem_nil)

theorem NoAudio.append {a b : List Char} (ha : NoAudio a) (hb : NoAudio b) : NoAudio (a ++ b) := by
  intro hmem
  exact (List.mem_append.mp hmem).elim ha hb

theorem NoAudio.cons {c : Char} {a : List Char} (hc : 'm' ≠ c) (ha : NoAudio a) : NoAudio (c :: a) :=
  List.not_mem_cons_of_ne_of_not_mem hc ha

theorem lastSet_ok {last : ℕ} (h : last < data.length) : ∃ n ≤ last, lastSet data last = .ok n := by
  induction last with
  | zero => exact ⟨0, le_rfl, rfl⟩
  | succ last ih =>
    unfold lastSet
    split
    · obtain ⟨b, hb⟩ := get_ok h
      rw [hb, ok_bind]
      split
      · obtain ⟨n, hle, hn⟩ := ih (by omega)
        exact ⟨n, hle.trans (Nat.le_succ last), hn⟩
      · exact ⟨last + 1, le_rfl, rfl⟩
    · exact ⟨last + 1, le_rfl, rfl⟩

theorem space_ok (profile : UInt8) :
    ∃ space, get ["", "A", "B", "C"] (profile >>> 6).toNat = .ok space ∧ NoAudio space.toList := by
  have hall : ∀ n : Fin 4, ∃ space ∈ ["", "A", "B", "C"], get ["", "A", "B", "C"] n = .ok space ∧
      'm' ∉ space.toList := by decide
  have hlt : (profile >>> 6).toNat < 4 := by
    have hp := profile.toNat_lt
    rw [UInt8.toNat_shiftRight, Nat.shiftRight_eq_div_pow]
    exact Nat.div_lt_of_lt_mul hp
  obtain ⟨space, -, hspace, hnone⟩ := hall ⟨_, hlt⟩
  exact ⟨space, hspace, hnone⟩

theorem hevcCodec_ok {sampleEntry : List Char} (hentry : NoAudio sampleEntry) (data : List UInt8) :
    ∃ text, hevcCodec sampleEntry data = .ok text ∧ NoAudio text := by
  unfold hevcCodec
  split
  · exact ⟨[], rfl, List.not_mem_nil⟩
  · next hlong =>
    obtain ⟨b₁, hb₁⟩ := @get_ok _ data 1 (by omega)
    obtain ⟨b₂, hb₂⟩ := @get_ok _ data 2 (by omega)
    obtain ⟨b₃, hb₃⟩ := @get_ok _ data 3 (by omega)
    obtain ⟨b₄, hb₄⟩ := @get_ok _ data 4 (by omega)
    obtain ⟨b₅, hb₅⟩ := @get_ok _ data 5 (by omega)
    obtain ⟨b₆, hb₆⟩ := @get_ok _ data 12 (by omega)
    obtain ⟨n, hle, hlast⟩ := @lastSet_ok data 11 (by omega)
    obtain ⟨space, hspace, hnone⟩ := space_ok b₁
    have htier : NoAudio [if b₁ &&& 0x20 ≠ 0 then 'H' else 'L'] := by
      split <;> exact NoAudio.cons (by decide) List.not_mem_nil
    have hresult : NoAudio (sampleEntry ++ '.' :: (space.toList ++ (decimal (b₁ &&& 0x1f).toNat ++
        '.' :: (decimal (reverseBits (be32 [b₂, b₃, b₄, b₅])).toNat ++
          '.' :: (if b₁ &&& 0x20 ≠ 0 then 'H' else 'L') :: decimal b₆.toNat)))) := by
      refine hentry.append (NoAudio.cons (by decide) (hnone.append ((noAudio_decimal _).append ?_)))
      refine NoAudio.cons (by decide) ((noAudio_decimal _).append (NoAudio.cons (by decide) ?_))
      exact htier.append (noAudio_decimal _)
    simp only [hb₁, hb₂, hb₃, hb₄, hb₅, hb₆, hlast, hspace, ok_bind]
    split
    · rw [slice_eq (by omega) (by omega), ok_bind]
      refine ⟨_, rfl, hresult.append ?_⟩
      intro hmem
      obtain ⟨b, -, hb⟩ := List.mem_flatMap.mp hmem
      exact NoAudio.cons (by decide) (noAudio_hex2 b) hb
    · exact ⟨_, rfl, hresult⟩

theorem noAudio_nil : NoAudio [] := List.not_mem_nil

theorem av1Codec_ok (data : List UInt8) : ∃ text, av1Codec data = .ok text ∧ NoAudio text := by
  have hname : NoAudio "av01.".toList := by
    unfold NoAudio
    decide
  unfold av1Codec
  split
  · exact ⟨[], rfl, noAudio_nil⟩
  · next hlong =>
    obtain ⟨b₀, hb₀⟩ := @get_ok _ data 0 (by omega)
    obtain ⟨b₁, hb₁⟩ := @get_ok _ data 1 (by omega)
    obtain ⟨b₂, hb₂⟩ := @get_ok _ data 2 (by omega)
    have htier : NoAudio [if b₂ &&& 0x80 ≠ 0 then 'H' else 'M'] := by
      split <;> exact NoAudio.cons (by decide) noAudio_nil
    simp only [hb₀, hb₁, hb₂, ok_bind]
    split
    · exact ⟨[], rfl, noAudio_nil⟩
    · refine ⟨_, rfl, hname.append ((noAudio_decimal _).append (NoAudio.cons (by decide) ?_))⟩
      refine (noAudio_decimal2 _).append ?_
      exact htier.append (NoAudio.cons (by decide) (noAudio_decimal2 _))

theorem isVersioned_ok (data : List UInt8) : ∃ found, isVersioned data = .ok found := by
  unfold isVersioned
  split
  · obtain ⟨b₀, hb₀⟩ := @get_ok _ data 0 (by omega)
    rw [hb₀, ok_bind, slice_eq (by omega) (by omega)]
    split <;> exact ⟨_, rfl⟩
  · exact ⟨false, rfl⟩

theorem vp9Codec_ok (data : List UInt8) : ∃ text, vp9Codec data = .ok text ∧ NoAudio text := by
  have hname : NoAudio "vp09.".toList := by
    unfold NoAudio
    decide
  obtain ⟨found, hfound⟩ := isVersioned_ok data
  unfold vp9Codec
  rw [hfound, ok_bind]
  simp only
  generalize (if found = true then 4 else 0) = offset
  split
  · exact ⟨[], rfl, noAudio_nil⟩
  · next hlong =>
    obtain ⟨depth, hdepth⟩ := @get_ok _ data (offset + 2) (by omega)
    obtain ⟨profile, hprofile⟩ := @get_ok _ data offset (by omega)
    obtain ⟨level, hlevel⟩ := @get_ok _ data (offset + 1) (by omega)
    simp only [hdepth, hprofile, hlevel, ok_bind]
    refine ⟨_, rfl, hname.append ((noAudio_decimal2 _).append (NoAudio.cons (by decide) ?_))⟩
    exact (noAudio_decimal2 _).append (NoAudio.cons (by decide) (noAudio_decimal2 _))

theorem audioObject_ok {cursor : ℕ} (h : cursor + 2 ≤ data.length) :
    ∃ object, audioObject data cursor = .ok object := by
  obtain ⟨first, hfirst⟩ := @get_ok _ data cursor (by omega)
  obtain ⟨second, hsecond⟩ := @get_ok _ data (cursor + 1) (by omega)
  unfold audioObject
  rw [hfirst, ok_bind, hsecond]
  split <;> exact ⟨_, rfl⟩

theorem aacCodecFrom_ok {n index : ℕ} (h : index + n ≤ data.length) :
    ∃ text, aacCodecFrom data n index = .ok text ∧ (text ≠ [] → "mp4a.".toList <+: text) := by
  induction n generalizing index with
  | zero => exact ⟨[], rfl, fun hne => absurd rfl hne⟩
  | succ n ih =>
    have hnext := @ih (index + 1) (by omega)
    obtain ⟨b, hb⟩ := @get_ok _ data index (by omega)
    unfold aacCodecFrom
    rw [hb, ok_bind]
    split
    · exact hnext
    · cases hlength : descriptorLength data 4 0 (index + 1) with
      | none => exact hnext
      | some found =>
        obtain ⟨length, cursor⟩ := found
        simp only
        split
        · exact hnext
        · obtain ⟨object, hobject⟩ := @audioObject_ok data cursor (by omega)
          rw [hobject]
          exact ⟨_, rfl, fun _ => ⟨"40.".toList ++ decimal object, rfl⟩⟩

theorem aacCodec_ok (data : List UInt8) :
    ∃ text, aacCodec data = .ok text ∧ (text ≠ [] → "mp4a.".toList <+: text) :=
  aacCodecFrom_ok (by omega)

theorem videoRange_ok (data : List UInt8) : ∃ text, videoRange data = .ok text := by
  unfold videoRange
  split
  · exact ⟨[], rfl⟩
  · unfold u16At
    rw [slice_eq (by omega) (by omega), slice_eq (by omega) (by omega), ok_bind]
    split <;> exact ⟨_, rfl⟩

theorem noAudio_sampleEntryText {kind : List UInt8} {name : String} (h : configType kind = some name) :
    NoAudio (sampleEntryText kind) := by
  have hkinds : ∀ known ∈ ["avc1", "avc3", "hvc1", "hev1", "av01", "vp09"], 'm' ∉ sampleEntryText (fourCc known) := by
    decide
  unfold configType at h
  split at h
  · next hkind => rcases hkind with rfl | rfl <;> exact hkinds _ (by decide)
  · split at h
    · next hkind => rcases hkind with rfl | rfl <;> exact hkinds _ (by decide)
    · split at h
      · next hkind => subst hkind; exact hkinds _ (by decide)
      · split at h
        · next hkind => subst hkind; exact hkinds _ (by decide)
        · cases h

theorem videoCodec_ok {kind : List UInt8} {name : String} (h : configType kind = some name) (payload : List UInt8) :
    ∃ text, videoCodec kind payload = .ok text ∧ NoAudio text := by
  have hentry := noAudio_sampleEntryText h
  unfold videoCodec
  split
  · next hlong =>
    obtain ⟨b₁, hb₁⟩ := @get_ok _ payload 1 (by omega)
    obtain ⟨b₂, hb₂⟩ := @get_ok _ payload 2 (by omega)
    obtain ⟨b₃, hb₃⟩ := @get_ok _ payload 3 (by omega)
    simp only [hb₁, hb₂, hb₃, ok_bind]
    refine ⟨_, rfl, hentry.append (NoAudio.cons (by decide) ?_)⟩
    exact (noAudio_hex2 b₁).append ((noAudio_hex2 b₂).append (noAudio_hex2 b₃))
  · split
    · exact hevcCodec_ok hentry payload
    · split
      · exact av1Codec_ok payload
      · split
        · exact vp9Codec_ok payload
        · exact ⟨[], rfl, noAudio_nil⟩

/-! ### Tracks without positions -/

/-- The text that was made, if it was. -/
def textOf (made : Checked (List Char)) : List Char :=
  match made with
  | .ok text => text
  | .error _ => []

def videoTrack (entry : Node) : Option Track :=
  if entry.payload.length < 78 then none
  else (configType entry.kind).bind fun kind =>
    (child (entry.payload.drop 78) kind).bind fun config =>
      let codec := textOf (videoCodec entry.kind config.payload)
      if codec = [] then none
      else some {
        video := true
        codec
        videoRange := (child (entry.payload.drop 78) "colr").elim [] fun colr => textOf (videoRange colr.payload)
        width := be16 (entry.payload.drop 24)
        height := be16 (entry.payload.drop 26) }

/-- How much stands before the boxes of an audio entry. -/
def audioFields (entry : Node) : ℕ :=
  if be16 (entry.payload.drop 8) = 1 then 44 else if be16 (entry.payload.drop 8) = 2 then 64 else 28

def audioTrack (entry : Node) : Option Track :=
  if entry.kind ≠ fourCc "mp4a" ∨ entry.payload.length < 28 then none
  else (child (entry.payload.drop (audioFields entry)) "esds").bind fun esds =>
    let codec := textOf (aacCodec esds.payload)
    if codec = [] then none else some ⟨false, codec, [], 0, 0⟩

/-- The track of a `trak`, by its first sample entry that says something. -/
def trackOf (trak : Node) : Option Track := do
  let mdia ← child trak.payload "mdia"
  let hdlr ← child mdia.payload "hdlr"
  if hdlr.payload.length < 12 then none
  else
    let handler := (hdlr.payload.drop 8).take 4
    if handler ≠ fourCc "vide" ∧ handler ≠ fourCc "soun" then none
    else do
      let minf ← child mdia.payload "minf"
      let stbl ← child minf.payload "stbl"
      let stsd ← child stbl.payload "stsd"
      if stsd.payload.length < 8 then none
      else
        let entries := (nodes (stsd.payload.drop 8)).take (be32 (stsd.payload.drop 4)).toNat
        entries.findSome? (if handler = fourCc "vide" then videoTrack else audioTrack)

theorem Item.Is.entryRange_eq {entry : Item} {node : Node} (h : entry.Is data node) (n : ℕ) :
    entryRange data (entry.payloadStart + n) entry.end_ =
      .ok ((child (node.payload.drop n) "colr").elim [] fun colr => textOf (videoRange colr.payload)) := by
  unfold entryRange
  obtain ⟨hfound, hchild⟩ | ⟨colr, colr', hfound, hchild, hcolr⟩ := h.finds n "colr"
  · rw [hfound, hchild]
    rfl
  · obtain ⟨range, hrange⟩ := videoRange_ok colr'.payload
    rw [hfound, hchild, ok_bind]
    simp only [hcolr.slice_payload, ok_bind, Option.elim_some, hrange]
    rfl

theorem videoEntry_eq {entry : Item} {node : Node} (h : entry.Is data node) :
    videoEntry data entry = .ok (videoTrack node) := by
  have hlength := h.length_payload
  have hle := h.le
  unfold videoEntry videoTrack
  by_cases hshort : node.payload.length < 78
  · rw [if_pos hshort, if_pos (by omega)]
  · rw [if_neg hshort, if_neg (by omega), h.kind]
    cases htype : configType node.kind with
    | none => rfl
    | some kind =>
      simp only [Option.bind_some]
      obtain ⟨hfound, hchild⟩ | ⟨config, config', hfound, hchild, hconfig⟩ := h.finds 78 kind
      · rw [hfound, hchild]
        rfl
      · obtain ⟨codec, hcodec, -⟩ := videoCodec_ok htype config'.payload
        rw [hfound, hchild, ok_bind, Option.bind_some]
        simp only [hconfig.slice_payload, ok_bind, hcodec]
        have htext : textOf (.ok codec) = codec := rfl
        rw [htext, h.entryRange_eq, h.u16At_eq (by omega), h.u16At_eq (by omega)]
        split <;> rfl

theorem audioEntry_eq {entry : Item} {node : Node} (h : entry.Is data node) :
    audioEntry data entry = .ok (audioTrack node) := by
  have hlength := h.length_payload
  have hle := h.le
  unfold audioEntry audioTrack
  rw [h.kind]
  by_cases hbad : node.kind ≠ fourCc "mp4a" ∨ node.payload.length < 28
  · rw [if_pos hbad, if_pos (hbad.imp_right fun hshort => by omega)]
  · have hlong : 28 ≤ node.payload.length := not_lt.mp fun hshort => hbad (Or.inr hshort)
    have hkind : ¬node.kind ≠ fourCc "mp4a" := fun hne => hbad (Or.inl hne)
    have hstart : (if be16 (node.payload.drop 8) = 1 then entry.payloadStart + 44
        else if be16 (node.payload.drop 8) = 2 then entry.payloadStart + 64 else entry.payloadStart + 28) =
          entry.payloadStart + audioFields node := by
      unfold audioFields
      split
      · rfl
      · split <;> rfl
    rw [if_neg hbad, if_neg (not_or.mpr ⟨hkind, by omega⟩), h.u16At_eq (by omega), ok_bind]
    simp only [hstart]
    obtain ⟨hfound, hchild⟩ | ⟨esds, esds', hfound, hchild, hesds⟩ := h.finds (audioFields node) "esds"
    · rw [hfound, hchild]
      rfl
    · obtain ⟨codec, hcodec, -⟩ := aacCodec_ok esds'.payload
      rw [hfound, hchild, ok_bind, Option.bind_some]
      simp only [hesds.slice_payload, ok_bind, hcodec]
      rfl

/-- The entries of a region, up to the first that says something. -/
theorem readEntries_eq (hstop : stop ≤ data.length) (video : Bool) (n : ℕ) (cursor : ℕ) :
    readEntries data video stop n cursor = .ok (((nodes (part data cursor stop)).take n).findSome?
      (if video then videoTrack else audioTrack)) := by
  induction n generalizing cursor with
  | zero => rfl
  | succ n ih =>
    unfold readEntries
    obtain ⟨hfront, hread⟩ | ⟨node, rest, item, next, hfront, hread, his, hnext, hle, hrest⟩ :=
      readBox_cases hstop cursor
    · rw [hread, nodes_of_none hfront]
      rfl
    · have hentry : trackEntry data video item = .ok ((if video then videoTrack else audioTrack) node) := by
        cases video
        · exact audioEntry_eq his
        · exact videoEntry_eq his
      rw [hread, nodes_of_some hfront, List.take_succ_cons, List.findSome?_cons, ok_bind]
      simp only
      rw [hentry, ok_bind, ← hrest, ih next]
      cases (if video then videoTrack else audioTrack) node <;> rfl

/-- A handler is the third field of its box. -/
theorem Item.Is.slice_eq {item : Item} {node : Node} (h : item.Is data node) {n : ℕ}
    (hn : n + 4 ≤ node.payload.length) :
    slice data (item.payloadStart + n) (item.payloadStart + n + 4) = .ok ((node.payload.drop n).take 4) := by
  have hlength := h.length_payload
  have hend := h.end_le
  rw [Buffer.slice_eq (by omega) (by omega), ← h.payload, drop_part, take_part (by omega)]

theorem readTrack_eq {trak : Item} {node : Node} (h : trak.Is data node) :
    readTrack data trak = .ok (trackOf node) := by
  unfold readTrack trackOf
  refine (h.finds_all "mdia").bind_eq rfl fun mdia mdia' hmdia => ?_
  refine (hmdia.finds_all "hdlr").bind_eq rfl fun hdlr hdlr' hhdlr => ?_
  have hlength := hhdlr.length_payload
  have hle := hhdlr.le
  by_cases hshort : hdlr'.payload.length < 12
  · rw [if_pos hshort]
    exact if_pos (by omega)
  · rw [if_neg hshort]
    simp only
    rw [if_neg (by omega), hhdlr.slice_eq (by omega), ok_bind]
    generalize (hdlr'.payload.drop 8).take 4 = handler
    by_cases hhandler : handler ≠ fourCc "vide" ∧ handler ≠ fourCc "soun"
    · rw [if_pos hhandler]
      exact if_pos ⟨by rw [decide_eq_false hhandler.1]; rfl, hhandler.2⟩
    · have hknown : ¬((!decide (handler = fourCc "vide")) = true ∧ handler ≠ fourCc "soun") := by
        rw [Bool.not_eq_true', decide_eq_false_iff_not]
        exact hhandler
      rw [if_neg hhandler, if_neg hknown]
      refine (hmdia.finds_all "minf").bind_eq rfl fun minf minf' hminf => ?_
      refine (hminf.finds_all "stbl").bind_eq rfl fun stbl stbl' hstbl => ?_
      refine (hstbl.finds_all "stsd").bind_eq rfl fun stsd stsd' hstsd => ?_
      have hlength := hstsd.length_payload
      have hle := hstsd.le
      by_cases hbare : stsd'.payload.length < 8
      · rw [if_pos hbare]
        exact if_pos (by omega)
      · rw [if_neg hbare]
        simp only
        rw [if_neg (by omega), hstsd.u32At_eq (by omega), ok_bind, readEntries_eq hstsd.end_le, ← drop_part,
          hstsd.payload]
        by_cases hvideo : handler = fourCc "vide"
        · rw [decide_eq_true hvideo, if_pos hvideo]
          rfl
        · rw [decide_eq_false hvideo, if_neg hvideo]
          rfl

/-! ### The variant -/

/-- The tracks of a `moov` of which something is known, in order. -/
def tracksOf (moov : Node) : List Track :=
  (((nodes moov.payload).filter fun node => node.kind = fourCc "trak").filterMap trackOf).filter fun track =>
    track.codec ≠ []

theorem readTracks_eq (hstop : stop ≤ data.length) {fuel cursor : ℕ} (hfuel : stop ≤ cursor + fuel)
    (result : VariantInfo) :
    readTracks data stop fuel cursor result =
      .ok ((tracksOf ⟨[], part data cursor stop⟩).foldl VariantInfo.with result) := by
  unfold tracksOf
  induction fuel generalizing cursor result with
  | zero =>
    rw [part_eq_nil (by omega)]
    rfl
  | succ fuel ih =>
    unfold readTracks
    obtain ⟨hfront, hread⟩ | ⟨node, rest, item, next, hfront, hread, his, hnext, hle, hrest⟩ :=
      readBox_cases hstop cursor
    · rw [hread]
      simp only [nodes_of_none hfront]
      rfl
    · have hrun := @ih next (by omega)
      simp only [hrest] at hrun
      rw [hread, ok_bind]
      simp only [nodes_of_some hfront, his.kind]
      by_cases hkind : node.kind = fourCc "trak"
      · have hfilter : ((node :: nodes rest).filter fun node => node.kind = fourCc "trak") =
            node :: (nodes rest).filter fun node => node.kind = fourCc "trak" :=
          List.filter_cons_of_pos (decide_eq_true hkind)
        rw [if_neg (not_not.mpr hkind), readTrack_eq his, ok_bind, hfilter, List.filterMap_cons]
        cases htrack : trackOf node with
        | none => exact hrun result
        | some track =>
          simp only
          by_cases hcodec : track.codec = []
          · rw [if_pos hcodec, List.filter_cons]
            simp only [hcodec, ne_eq, not_true_eq_false, decide_false, Bool.false_eq_true, if_false]
            exact hrun result
          · rw [if_neg hcodec, List.filter_cons]
            simp only [hcodec, ne_eq, not_false_eq_true, decide_true, if_true, List.foldl_cons]
            exact hrun (result.with track)
      · rw [if_pos hkind, List.filter_cons]
        simp only [hkind, decide_false, Bool.false_eq_true, if_false]
        exact hrun result

/-- What is said of tracks in order: the first one's codec; and where that is of a video, the first audio codec
beside it. -/
def describe : List Track → Option VariantInfo
  | [] => none
  | track :: more => some {
    codecs := track.codec ++
      if track.video then ((more.find? fun t => !t.video).elim [] fun t => ',' :: t.codec) else []
    videoRange := if track.video then track.videoRange else []
    width := if track.video then track.width else 0
    height := if track.video then track.height else 0 }

/-- Tracks as they are made of sample entries. -/
structure Track.Made (track : Track) : Prop where
  codec_ne : track.codec ≠ []
  video : track.video = true → NoAudio track.codec
  audio : track.video = false → "mp4a.".toList <+: track.codec

theorem made_of_videoTrack {entry : Node} {track : Track} (h : videoTrack entry = some track) : track.Made := by
  unfold videoTrack at h
  split at h
  · cases h
  · obtain ⟨kind, htype, h⟩ := Option.bind_eq_some_iff.mp h
    obtain ⟨config, -, h⟩ := Option.bind_eq_some_iff.mp h
    obtain ⟨codec, hcodec, hnone⟩ := videoCodec_ok htype config.payload
    have htext : textOf (.ok codec) = codec := rfl
    simp only [hcodec, htext] at h
    split at h
    · cases h
    · next hne =>
      cases h
      exact ⟨hne, fun _ => hnone, fun hvideo => absurd hvideo Bool.false_ne_true.symm⟩

theorem made_of_audioTrack {entry : Node} {track : Track} (h : audioTrack entry = some track) : track.Made := by
  unfold audioTrack at h
  split at h
  · cases h
  · obtain ⟨esds, -, h⟩ := Option.bind_eq_some_iff.mp h
    obtain ⟨codec, hcodec, haudio⟩ := aacCodec_ok esds.payload
    have htext : textOf (.ok codec) = codec := rfl
    simp only [hcodec, htext] at h
    split at h
    · cases h
    · next hne =>
      cases h
      exact ⟨hne, fun hvideo => absurd hvideo Bool.false_ne_true, fun _ => haudio hne⟩

theorem made_of_trackOf {trak : Node} {track : Track} (h : trackOf trak = some track) : track.Made := by
  obtain ⟨mdia, -, h⟩ := Option.bind_eq_some_iff.mp h
  obtain ⟨hdlr, -, h⟩ := Option.bind_eq_some_iff.mp h
  split at h
  · cases h
  · simp only at h
    split at h
    · cases h
    · obtain ⟨minf, -, h⟩ := Option.bind_eq_some_iff.mp h
      obtain ⟨stbl, -, h⟩ := Option.bind_eq_some_iff.mp h
      obtain ⟨stsd, -, h⟩ := Option.bind_eq_some_iff.mp h
      split at h
      · cases h
      · obtain ⟨entry, -, htrack⟩ := List.exists_of_findSome?_eq_some h
        split at htrack
        · exact made_of_videoTrack htrack
        · exact made_of_audioTrack htrack

theorem made_of_mem_tracksOf {moov : Node} {track : Track} (h : track ∈ tracksOf moov) : track.Made := by
  obtain ⟨h, -⟩ := List.mem_filter.mp h
  obtain ⟨trak, -, htrack⟩ := List.mem_filterMap.mp h
  exact made_of_trackOf htrack

/-- Nothing comes after an audio codec. -/
theorem foldl_with_audio {result : VariantInfo} (hne : result.codecs ≠ []) (haudio : "mp4a.".toList <:+: result.codecs)
    (tracks : List Track) : tracks.foldl VariantInfo.with result = result := by
  induction tracks with
  | nil => rfl
  | cons track tracks ih =>
    have hwith : result.with track = result := by
      unfold VariantInfo.with
      rw [if_neg fun h => hne h.2, if_neg hne, if_neg (not_not.mpr haudio), ite_self]
    rw [List.foldl_cons, hwith, ih]

/-- After a video codec, the first audio codec does. -/
theorem foldl_with_video {result : VariantInfo} (hne : result.codecs ≠ []) (hvideo : NoAudio result.codecs)
    {tracks : List Track} (hmade : ∀ track ∈ tracks, track.Made) :
    tracks.foldl VariantInfo.with result = { result with
      codecs := result.codecs ++ (tracks.find? fun t => !t.video).elim [] fun t => ',' :: t.codec } := by
  have hnone : ¬"mp4a.".toList <:+: result.codecs := fun h => hvideo (h.subset (by decide))
  induction tracks with
  | nil => exact congrArg (fun codecs => { result with codecs }) (List.append_nil result.codecs).symm
  | cons track tracks ih =>
    rw [List.foldl_cons, List.find?_cons]
    cases hkind : track.video with
    | true =>
      have hwith : result.with track = result := by
        unfold VariantInfo.with
        rw [if_neg fun h => hne h.2, hkind]
        rfl
      rw [hwith]
      exact ih fun t ht => hmade t (List.mem_cons_of_mem track ht)
    | false =>
      have hwith : result.with track = { result with codecs := result.codecs ++ ',' :: track.codec } := by
        unfold VariantInfo.with
        rw [if_neg fun h => hne h.2, hkind, if_neg hne, if_pos hnone]
        rfl
      have haudio := (hmade track List.mem_cons_self).audio hkind
      rw [hwith]
      refine foldl_with_audio ?_ ?_ tracks
      · exact List.append_ne_nil_of_left_ne_nil hne _
      · exact haudio.isInfix.trans ⟨result.codecs ++ [','], [], by simp⟩

theorem foldl_with (tracks : List Track) (hmade : ∀ track ∈ tracks, track.Made) :
    (if (tracks.foldl VariantInfo.with {}).codecs = [] then none else some (tracks.foldl VariantInfo.with {})) =
      describe tracks := by
  match tracks with
  | [] => rfl
  | track :: more =>
    obtain ⟨hne, hvideo, haudio⟩ := hmade track List.mem_cons_self
    rw [List.foldl_cons]
    cases hkind : track.video with
    | true =>
      have hwith : VariantInfo.with {} track = ⟨track.codec, track.videoRange, track.width, track.height⟩ := by
        unfold VariantInfo.with
        exact if_pos ⟨hkind, rfl⟩
      rw [hwith, foldl_with_video hne (hvideo hkind) fun t ht => hmade t (List.mem_cons_of_mem track ht)]
      rw [if_neg (List.append_ne_nil_of_left_ne_nil hne _)]
      simp only [describe, hkind, if_true]
    | false =>
      have hwith : VariantInfo.with {} track = { codecs := track.codec } := by
        unfold VariantInfo.with
        rw [hkind]
        rfl
      rw [hwith, foldl_with_audio hne (haudio hkind).isInfix]
      rw [if_neg hne]
      simp only [describe, hkind, Bool.false_eq_true, if_false, List.append_nil]

/-- No data makes the reader fail, and what it says is what the tracks of the first `moov` say. -/
theorem read_eq (data : List UInt8) :
    read data = .ok ((child data "moov").bind fun moov => describe (tracksOf moov)) := by
  unfold read
  split
  · next hshort =>
    have hnone : child data "moov" = none := by
      unfold child
      rw [nodes_of_none]
      · rfl
      · exact if_pos hshort
    rw [hnone]
    rfl
  · have hfinds := @findChildUpTo_finds data data.length le_rfl "moov" data.length 0 (by omega)
    rw [part_zero] at hfinds
    refine hfinds.bind_eq rfl fun moov moov' hmoov => ?_
    simp only
    rw [readTracks_eq hmoov.end_le (by have := hmoov.end_le; omega), hmoov.payload, ok_bind]
    exact congrArg _ (foldl_with _ fun track ht => made_of_mem_tracksOf ht)

/-- Where there is video and audio, both codecs are named, with the size and the range of the video, if the
video comes first; else the audio codec alone is. -/
theorem read_both {data : List UInt8} {moov : Node} {video audio : Track} (hmoov : child data "moov" = some moov)
    (hvideo : (tracksOf moov).find? (fun t => t.video) = some video)
    (haudio : (tracksOf moov).find? (fun t => !t.video) = some audio) :
    read data = .ok (some (if (tracksOf moov).head? = some video then
        ⟨video.codec ++ ',' :: audio.codec, video.videoRange, video.width, video.height⟩
      else { codecs := audio.codec })) := by
  rw [read_eq, hmoov, Option.bind_some]
  cases htracks : tracksOf moov with
  | nil =>
    rw [htracks] at hvideo
    cases hvideo
  | cons track more =>
    rw [htracks, List.find?_cons] at hvideo haudio
    cases hkind : track.video with
    | true =>
      rw [hkind] at hvideo haudio
      have haudio' : more.find? (fun t => !t.video) = some audio := haudio
      cases hvideo
      rw [List.head?_cons, if_pos rfl]
      simp only [describe, hkind, if_true, haudio', Option.elim_some]
    | false =>
      rw [hkind] at hvideo haudio
      have hother : some track ≠ some video := by
        intro heq
        cases heq
        have hfirst := List.find?_some (p := fun t : Track => t.video) hvideo
        rw [hkind] at hfirst
        cases hfirst
      cases haudio
      rw [List.head?_cons, if_neg hother]
      simp only [describe, hkind, Bool.false_eq_true, if_false, List.append_nil]

/-! ### Boxes as they are written -/

/-- How the size of a box is written: in four bytes, in eight, or as zero for all that is left. -/
inductive SizeForm
  | compact
  | extended
  | toEnd
  deriving DecidableEq

/-- A box with its size in this form. -/
def encodeBox (form : SizeForm) (node : Node) : List UInt8 :=
  match form with
  | .compact => toBe32 (UInt32.ofNat (node.payload.length + 8)) ++ (node.kind ++ node.payload)
  | .extended => toBe32 1 ++ (node.kind ++ (toBe64 (node.payload.length + 16) ++ node.payload))
  | .toEnd => toBe32 0 ++ (node.kind ++ node.payload)

/-- A box that this form of size is for, with so much after it. -/
def Fits (form : SizeForm) (node : Node) (rest : List UInt8) : Prop :=
  node.kind.length = 4 ∧
    match form with
    | .compact => node.payload.length + 8 < 2 ^ 32
    | .extended => node.payload.length + 16 < 2 ^ 64
    | .toEnd => rest = []

def encodeBoxes (boxes : List (SizeForm × Node)) : List UInt8 := boxes.flatMap fun b => encodeBox b.1 b.2

/-- Each box fits before what follows it. -/
def AllFit : List (SizeForm × Node) → Prop
  | [] => True
  | b :: boxes => Fits b.1 b.2 (encodeBoxes boxes) ∧ AllFit boxes

/-- A box whose size is what its parts have together. -/
theorem front_of_parts {n : UInt32} {kind extended payload rest : List UInt8} (hkind : kind.length = 4)
    (hsize : sizeOf (toBe32 n ++ (kind ++ (extended ++ (payload ++ rest)))) =
      some (8 + extended.length + payload.length, 8 + extended.length)) :
    front (toBe32 n ++ (kind ++ (extended ++ (payload ++ rest)))) = some (⟨kind, payload⟩, rest) := by
  have hlength := length_toBe32 n
  generalize hbytes : toBe32 n ++ (kind ++ (extended ++ (payload ++ rest))) = bytes at hsize
  have htotal : bytes.length = 8 + extended.length + payload.length + rest.length := by
    rw [← hbytes]
    simp only [List.length_append]
    omega
  have hheader : (toBe32 n ++ (kind ++ extended)).length = 8 + extended.length := by
    simp only [List.length_append]
    omega
  have hsplit : bytes = toBe32 n ++ (kind ++ extended) ++ (payload ++ rest) := by
    rw [← hbytes]
    simp only [List.append_assoc]
  have htake : bytes.take (8 + extended.length + payload.length) = toBe32 n ++ (kind ++ extended) ++ payload := by
    rw [hsplit, ← List.append_assoc, List.take_left' (by rw [List.length_append, hheader])]
  have hdrop : bytes.drop (8 + extended.length + payload.length) = rest := by
    rw [hsplit, ← List.append_assoc, List.drop_left' (by rw [List.length_append, hheader])]
  have hfour : (bytes.drop 4).take 4 = kind := by
    rw [← hbytes, List.drop_left' hlength, List.take_left' hkind]
  unfold front
  rw [if_neg (by omega), hsize, Option.bind_some]
  simp only
  rw [if_neg (by omega), htake, hdrop, hfour, List.drop_left' hheader]

theorem front_encodeBox {form : SizeForm} {node : Node} {rest : List UInt8} (h : Fits form node rest) :
    front (encodeBox form node ++ rest) = some (node, rest) := by
  obtain ⟨hkind, hform⟩ := h
  cases form with
  | compact =>
    have hform : node.payload.length + 8 < 2 ^ 32 := hform
    have hnat : (UInt32.ofNat (node.payload.length + 8)).toNat = node.payload.length + 8 := by
      rw [UInt32.toNat_ofNat']
      exact Nat.mod_eq_of_lt hform
    have hne : ∀ m : UInt32, m.toNat < 8 → UInt32.ofNat (node.payload.length + 8) ≠ m := by
      intro m hm heq
      rw [heq] at hnat
      omega
    unfold encodeBox
    rw [List.append_assoc, List.append_assoc]
    refine @front_of_parts _ _ [] _ _ hkind ?_
    unfold sizeOf
    rw [be32_toBe32, if_neg (hne 1 (by decide)), if_neg (hne 0 (by decide)), hnat, List.length_nil]
    congr 2
    omega
  | extended =>
    have hform : node.payload.length + 16 < 2 ^ 64 := hform
    unfold encodeBox
    rw [List.append_assoc, List.append_assoc, List.append_assoc]
    refine front_of_parts hkind ?_
    unfold sizeOf
    rw [be32_toBe32, if_pos rfl, if_neg, ← List.append_assoc (toBe32 1),
      List.drop_left' (by rw [List.length_append, hkind, length_toBe32]), be64_toBe64 hform, length_toBe64]
    · congr 2
      omega
    · simp only [List.length_append, hkind, length_toBe32, length_toBe64]
      omega
  | toEnd =>
    have hform : rest = [] := hform
    subst hform
    unfold encodeBox
    rw [List.append_assoc, List.append_assoc]
    refine @front_of_parts _ _ [] _ _ hkind ?_
    unfold sizeOf
    rw [be32_toBe32, if_neg (by decide), if_pos rfl]
    congr 2
    simp only [List.length_append, hkind, length_toBe32, List.length_nil]
    omega

/-- What is written is read. -/
theorem nodes_encodeBoxes {boxes : List (SizeForm × Node)} (h : AllFit boxes) :
    nodes (encodeBoxes boxes) = boxes.map Prod.snd := by
  induction boxes with
  | nil => rfl
  | cons b boxes ih =>
    have hsplit : encodeBoxes (b :: boxes) = encodeBox b.1 b.2 ++ encodeBoxes boxes := List.flatMap_cons
    rw [hsplit, nodes_of_some (front_encodeBox h.1), ih h.2, List.map_cons]

theorem child_encodeBoxes {boxes : List (SizeForm × Node)} (h : AllFit boxes) (kind : String) :
    child (encodeBoxes boxes) kind = (boxes.map Prod.snd).find? fun node => node.kind = fourCc kind := by
  unfold child
  rw [nodes_encodeBoxes h]

/-- An init segment of any boxes, in any order and with sizes in any form, says what its tracks say. -/
theorem read_encodeBoxes {boxes tracks : List (SizeForm × Node)} {moov : Node} (h : AllFit boxes)
    (hmoov : (boxes.map Prod.snd).find? (fun node => node.kind = fourCc "moov") = some moov)
    (htracks : moov.payload = encodeBoxes tracks) (hfit : AllFit tracks) :
    read (encodeBoxes boxes) = .ok (describe
      ((((tracks.map Prod.snd).filter fun node => node.kind = fourCc "trak").filterMap trackOf).filter
        fun track => track.codec ≠ [])) := by
  rw [read_eq, child_encodeBoxes h, hmoov, Option.bind_some]
  unfold tracksOf
  rw [htracks, nodes_encodeBoxes hfit]

/-! ### An init segment -/

def compact (kind : String) (payload : List UInt8) : SizeForm × Node := (.compact, ⟨fourCc kind, payload⟩)

/-- A `trak` of one sample entry. -/
def oneTrack (handler : String) (entry : SizeForm × Node) : SizeForm × Node :=
  let stsd := compact "stsd" ([0, 0, 0, 0, 0, 0, 0, 1] ++ encodeBoxes [entry])
  let stbl := encodeBoxes [compact "stbl" (encodeBoxes [stsd])]
  compact "trak" (encodeBoxes [compact "mdia" (encodeBoxes
    [compact "hdlr" (List.replicate 8 0 ++ (fourCc handler ++ List.replicate 12 0)), compact "minf" stbl])])

def avcTrack : SizeForm × Node :=
  oneTrack "vide" (compact "avc1" (List.replicate 24 0 ++ ([0, 64, 0, 48] ++ (List.replicate 50 0 ++
    encodeBoxes [compact "avcC" [1, 0x42, 0xC0, 0x0A, 0xFF],
      compact "colr" (fourCc "nclx" ++ [0, 1, 0, 1, 0, 1, 0])]))))

def aacTrack : SizeForm × Node :=
  oneTrack "soun" (compact "mp4a" (List.replicate 28 0 ++ encodeBoxes
    [compact "esds" ([0, 0, 0, 0, 3, 0x19, 0, 1, 0, 4, 0x11, 0x40, 0x15] ++
      (List.replicate 12 0 ++ [5, 2, 0x15, 0x88]))]))

/-- Audio before video, in a `moov` of an extended size. -/
def audioFirst : List UInt8 :=
  encodeBoxes [compact "ftyp" (fourCc "iso6"), (.extended, ⟨fourCc "moov", encodeBoxes [aacTrack, avcTrack]⟩)]

theorem read_both_audio_first : read audioFirst = .ok (some { codecs := "mp4a.40.2".toList }) := by
  have hmoov : child audioFirst "moov" = some ⟨fourCc "moov", encodeBoxes [aacTrack, avcTrack]⟩ := by decide +kernel
  have hvideo : (tracksOf ⟨fourCc "moov", encodeBoxes [aacTrack, avcTrack]⟩).find? (fun t => t.video) =
      some ⟨true, "avc1.42C00A".toList, "SDR".toList, 64, 48⟩ := by decide +kernel
  have haudio : (tracksOf ⟨fourCc "moov", encodeBoxes [aacTrack, avcTrack]⟩).find? (fun t => !t.video) =
      some ⟨false, "mp4a.40.2".toList, [], 0, 0⟩ := by decide +kernel
  have hother : (tracksOf ⟨fourCc "moov", encodeBoxes [aacTrack, avcTrack]⟩).head? ≠
      some ⟨true, "avc1.42C00A".toList, "SDR".toList, 64, 48⟩ := by decide +kernel
  have hboth := read_both hmoov hvideo haudio
  rw [if_neg hother] at hboth
  exact hboth

/-- The same tracks the other way round. -/
theorem read_encodeBoxes_video_first :
    read (encodeBoxes [compact "ftyp" (fourCc "iso6"), compact "moov" (encodeBoxes [avcTrack, aacTrack])]) =
      .ok (describe [⟨true, "avc1.42C00A".toList, "SDR".toList, 64, 48⟩, ⟨false, "mp4a.40.2".toList, [], 0, 0⟩]) := by
  have hfit : AllFit [avcTrack, aacTrack] := by
    refine ⟨⟨rfl, ?_⟩, ⟨rfl, ?_⟩, trivial⟩
    · show avcTrack.2.payload.length + 8 < 2 ^ 32
      decide +kernel
    · show aacTrack.2.payload.length + 8 < 2 ^ 32
      decide +kernel
  have hall : AllFit [compact "ftyp" (fourCc "iso6"), compact "moov" (encodeBoxes [avcTrack, aacTrack])] := by
    refine ⟨⟨rfl, ?_⟩, ⟨rfl, ?_⟩, trivial⟩
    · show (fourCc "iso6").length + 8 < 2 ^ 32
      decide
    · show (encodeBoxes [avcTrack, aacTrack]).length + 8 < 2 ^ 32
      decide +kernel
  have htracks : (((([avcTrack, aacTrack].map Prod.snd).filter fun node => node.kind = fourCc "trak").filterMap
      trackOf).filter fun track => track.codec ≠ []) =
        [⟨true, "avc1.42C00A".toList, "SDR".toList, 64, 48⟩, ⟨false, "mp4a.40.2".toList, [], 0, 0⟩] := by
    decide +kernel
  have hmoov : (([compact "ftyp" (fourCc "iso6"), compact "moov" (encodeBoxes [avcTrack, aacTrack])].map
      Prod.snd).find? fun node => node.kind = fourCc "moov") =
        some ⟨fourCc "moov", encodeBoxes [avcTrack, aacTrack]⟩ := by decide +kernel
  rw [← htracks]
  exact read_encodeBoxes hall hmoov rfl hfit

end Rustorr.InitInfo
