import Rustorr.Lifecycle.TorrsHash

/-! What `decode` makes of a token that `encode` returned: the torrent's texts, if
the length of each fits in sixteen bits. -/

namespace Rustorr.TorrsHash

variable {z : Zlib}

/-! ### The number -/

theorem alphabet_nodup : alphabet.Nodup := by decide

theorem length_alphabet : alphabet.length = 62 := by decide

theorem not_whitespace_of_mem {c : Char} (h : c ∈ alphabet) : Utf8.isWhitespace c = false := by
  have hall : (alphabet.all fun c => !Utf8.isWhitespace c) = true := by decide
  have hnot := List.all_eq_true.mp hall c h
  simpa using hnot

theorem mem_alphabet_of_mem_base62 {bytes : List UInt8} {c : Char} (h : c ∈ base62 bytes) :
    c ∈ alphabet := by
  obtain ⟨d, hd, rfl⟩ := List.mem_map.mp h
  have hlt : d < alphabet.length := by
    rw [length_alphabet]
    exact Radix.lt_of_mem_digits (by decide) hd
  rw [List.getD_eq_getElem _ _ hlt]
  exact List.getElem_mem hlt

/-- A byte string that begins with no zero comes back from its number. -/
theorem unbase62_base62 {first : UInt8} {rest : List UInt8} (hfirst : first ≠ 0) :
    unbase62 (base62 (first :: rest)) = some (first :: rest) := by
  have hlt : ∀ d ∈ Radix.digits 62 (Radix.ofBytes (first :: rest)), d < alphabet.length := by
    intro d hd
    rw [length_alphabet]
    exact Radix.lt_of_mem_digits (by decide) hd
  have htrim : Utf8.trim (base62 (first :: rest)) = base62 (first :: rest) :=
    Utf8.trim_of_forall fun c hc => not_whitespace_of_mem (mem_alphabet_of_mem_base62 hc)
  unfold unbase62
  rw [htrim, base62, Radix.ofLetters_letters alphabet_nodup hlt, Option.map_some,
    Radix.value_digits, Radix.toBytes_ofBytes hfirst]

theorem stripPrefix_base62 (bytes : List UInt8) :
    stripPrefix "torrs://".toList (base62 bytes) = base62 bytes := by
  unfold stripPrefix
  rw [if_neg]
  intro hprefix
  have hmem : ':' ∈ base62 bytes :=
    (List.isPrefixOf_iff_prefix.mp hprefix).subset (by decide)
  exact absurd (mem_alphabet_of_mem_base62 hmem) (by decide)

theorem decompress_of_matrixZlib {plain packed : List UInt8} (h : matrixZlib z plain = some packed) :
    z.decompress packed = some plain := by
  unfold matrixZlib at h
  obtain ⟨raw, -, h⟩ := Option.bind_eq_some_iff.mp h
  obtain ⟨syncLen, -, h⟩ := Option.bind_eq_some_iff.mp h
  split at h
  · cases h
  · obtain ⟨header, -, h⟩ := Option.bind_eq_some_iff.mp h
    obtain ⟨bit, -, h⟩ := List.exists_of_findSome?_eq_some h
    unfold candidate at h
    dsimp only at h
    split at h
    · cases h
    · split at h
      · next hplain =>
        cases h
        exact hplain
      · cases h

/-! ### The record -/

/-- What a field of the record does to what was read before it. -/
def Decoded.setField (d : Decoded) (tag : UInt8) (value : List Char) : Decoded :=
  if (Utf8.trim value).isEmpty then d else d.set tag (Utf8.trim value)

def fits (value : List Char) : Prop := (Utf8.encode (Utf8.trim value)).length < 2 ^ 16

theorem u16Bytes_value {n : ℕ} (h : n < 2 ^ 16) :
    (UInt8.ofNat (n % 256)).toNat + 256 * (UInt8.ofNat (n / 256)).toNat = n := by
  simp only [UInt8.toNat_ofNat']
  omega

theorem decodeFields_field {tag : UInt8} (htag : tag ≠ 4) {value : List Char} (hfits : fits value)
    (rest : List UInt8) (d : Decoded) :
    decodeFields (field tag value ++ rest) d = decodeFields rest (d.setField tag value) := by
  unfold field Decoded.setField
  dsimp only
  split
  · rfl
  · have hlen : (Utf8.encode (Utf8.trim value)).length < 2 ^ 16 := hfits
    rw [if_pos hlen]
    unfold u16Bytes
    simp only [List.cons_append, List.nil_append]
    rw [decodeFields.eq_def]
    dsimp only
    rw [if_neg htag]
    simp only [u16Bytes_value hlen]
    rw [if_neg (by rw [List.length_append]; omega), List.take_left, Utf8.decode_encode,
      List.drop_left]

theorem length_i64Bytes (n : ℕ) : (i64Bytes n).length = 8 := by
  unfold i64Bytes
  rw [List.length_map, List.length_range]

theorem decodeFields_size {size : Option ℕ} {bytes : List UInt8} (h : sizeField size = some bytes)
    (rest : List UInt8) (d : Decoded) : decodeFields (bytes ++ rest) d = decodeFields rest d := by
  unfold sizeField at h
  split at h
  · cases h
    rfl
  · split at h
    · cases h
      rw [List.cons_append, decodeFields.eq_def]
      dsimp only
      rw [if_pos rfl, List.length_append, length_i64Bytes, if_neg (by omega),
        List.drop_left' (length_i64Bytes _)]
    · cases h

theorem decodeFields_trackers {trackers : List (List Char)} (hfits : ∀ t ∈ trackers, fits t)
    (d : Decoded) : decodeFields (trackers.flatMap (field 2)) d =
      some { d with
        trackers := d.trackers ++ (trackers.map Utf8.trim).filter fun t => !t.isEmpty } := by
  induction trackers generalizing d with
  | nil =>
    rw [List.flatMap_nil, decodeFields]
    simp only [List.map_nil, List.filter_nil, List.append_nil]
  | cons tracker trackers ih =>
    obtain ⟨htracker, htrackers⟩ := List.forall_mem_cons.mp hfits
    rw [List.flatMap_cons, decodeFields_field (by decide) htracker, ih htrackers]
    unfold Decoded.setField
    cases hempty : (Utf8.trim tracker).isEmpty with
    | true => simp [hempty]
    | false => simp +decide [hempty, Decoded.set]

theorem setField_title {d : Decoded} (value : List Char) (h : d.title = []) :
    d.setField 0 value = { d with title := Utf8.trim value } := by
  unfold Decoded.setField
  split
  · next hempty => rw [List.isEmpty_iff.mp hempty, ← h]
  · rfl

theorem setField_poster {d : Decoded} (value : List Char) (h : d.poster = []) :
    d.setField 1 value = { d with poster := Utf8.trim value } := by
  unfold Decoded.setField
  split
  · next hempty => rw [List.isEmpty_iff.mp hempty, ← h]
  · rfl

theorem setField_category {d : Decoded} (value : List Char) (h : d.category = []) :
    d.setField 3 value = { d with category := Utf8.trim value } := by
  unfold Decoded.setField
  split
  · next hempty => rw [List.isEmpty_iff.mp hempty, ← h]
  · rfl

/-! ### Values that were read -/

/-- No value is longer than its sixteen bits of length allow. -/
structure Decoded.Short (d : Decoded) : Prop where
  title : (Utf8.encode d.title).length < 2 ^ 16
  poster : (Utf8.encode d.poster).length < 2 ^ 16
  category : (Utf8.encode d.category).length < 2 ^ 16
  trackers : ∀ t ∈ d.trackers, (Utf8.encode t).length < 2 ^ 16

theorem Decoded.Short.set {d : Decoded} (hd : d.Short) (tag : UInt8) {value : List Char}
    (hvalue : (Utf8.encode value).length < 2 ^ 16) : (d.set tag value).Short := by
  unfold Decoded.set
  split
  · exact ⟨hvalue, hd.poster, hd.category, hd.trackers⟩
  split
  · exact ⟨hd.title, hvalue, hd.category, hd.trackers⟩
  split
  · refine ⟨hd.title, hd.poster, hd.category, fun t ht => ?_⟩
    rcases List.mem_append.mp ht with ht | ht
    · exact hd.trackers t ht
    · rwa [List.mem_singleton.mp ht]
  split
  · exact ⟨hd.title, hd.poster, hvalue, hd.trackers⟩
  · exact hd

theorem decodeFields_short {bytes : List UInt8} {d d' : Decoded} (hd : d.Short)
    (h : decodeFields bytes d = some d') : d'.Short := by
  fun_induction decodeFields bytes d with
  | case1 d =>
    cases h
    exact hd
  | case2 | case4 | case5 | case7 => cases h
  | case3 rest d hlen ih => exact ih hd h
  | case6 tag d htag low high rest length hlen value hvalue ih =>
    refine ih (hd.set tag ?_) h
    rw [Utf8.encode_eq_of_decode hvalue, List.length_take]
    have hlow := low.toNat_lt
    have hhigh := high.toNat_lt
    omega

/-! ### The round trip -/

def Fits (view : TorrentView) (trackers : List (List Char)) : Prop :=
  fits view.title ∧ fits view.poster ∧ fits view.category ∧ ∀ t ∈ trackers, fits t

def expected (hash : InfoHash) (view : TorrentView) (trackers : List (List Char)) : Decoded :=
  ⟨hash, Utf8.trim view.title, Utf8.trim view.poster, Utf8.trim view.category,
    (trackers.map Utf8.trim).filter fun t => !t.isEmpty⟩

theorem decodeFields_plain {view : TorrentView} {trackers : List (List Char)}
    (hfits : Fits view trackers) {size : List UInt8} (hsize : sizeField view.torrentSize = some size)
    (hash : InfoHash) : decodeFields (field 0 view.title ++ field 1 view.poster ++
      field 3 view.category ++ size ++ trackers.flatMap (field 2)) ⟨hash, [], [], [], []⟩ =
        some (expected hash view trackers) := by
  obtain ⟨htitle, hposter, hcategory, htrackers⟩ := hfits
  simp only [List.append_assoc]
  rw [decodeFields_field (by decide) htitle, decodeFields_field (by decide) hposter,
    decodeFields_field (by decide) hcategory, decodeFields_size hsize,
    decodeFields_trackers htrackers]
  unfold expected
  rw [setField_title _ rfl, setField_poster _ rfl, setField_category _ rfl, List.nil_append]

/-- `decode` of a token that `encode` returned finds the torrent's texts exactly
when the bytes of each number at most 65535. -/
theorem decode_encode_iff (hz : z.Headed) {view : TorrentView} {trackers : List (List Char)}
    {token : List Char} (h : encode z view trackers = some token) :
    ∃ hash, view.infoHash = some hash ∧
      (decode z token = some (expected hash view trackers) ↔ Fits view trackers) := by
  unfold encode at h
  obtain ⟨plain, hplain, h⟩ := Option.bind_eq_some_iff.mp h
  obtain ⟨packed, hpacked, h⟩ := Option.bind_eq_some_iff.mp h
  cases h
  unfold plainOf at hplain
  obtain ⟨hash, hhash, hplain⟩ := Option.bind_eq_some_iff.mp hplain
  obtain ⟨size, hsize, hplain⟩ := Option.bind_eq_some_iff.mp hplain
  cases hplain
  have hdecompress := decompress_of_matrixZlib hpacked
  have hlen := hash.length_bytes
  refine ⟨hash, hhash, ?_⟩
  obtain ⟨first, rest, rfl, hfirst⟩ := hz packed _ (fun hnil => by
    rw [← List.length_eq_zero_iff] at hnil
    simp only [List.length_append] at hnil
    omega) hdecompress
  have hne : first ≠ 0 := by
    rintro rfl
    cases hfirst
  have hdecode : decode z (base62 (first :: rest)) = decodeFields (field 0 view.title ++
      field 1 view.poster ++ field 3 view.category ++ size ++ trackers.flatMap (field 2))
      ⟨hash, [], [], [], []⟩ := by
    unfold decode
    simp only [stripPrefix_base62, unbase62_base62 hne, hdecompress, Option.bind_eq_bind,
      Option.bind_some, List.append_assoc, List.take_left' hlen, List.drop_left' hlen]
    rw [dif_pos hlen]
  have hempty : (Utf8.encode []).length < 2 ^ 16 := by decide
  rw [hdecode]
  constructor
  · intro hresult
    obtain ⟨htitle, hposter, hcategory, htrackers⟩ := decodeFields_short
      (d := ⟨hash, [], [], [], []⟩) ⟨hempty, hempty, hempty, fun t ht => absurd ht List.not_mem_nil⟩ hresult
    refine ⟨htitle, hposter, hcategory, fun t ht => ?_⟩
    unfold fits
    -- an empty text is not among the trackers that were read
    by_cases ht' : (Utf8.trim t).isEmpty
    · rw [List.isEmpty_iff.mp ht']
      exact hempty
    · exact htrackers _ (List.mem_filter.mpr ⟨List.mem_map_of_mem ht, by simpa using ht'⟩)
  · exact fun hfits => decodeFields_plain hfits hsize hash

/-! ### Two streams -/

/-- A codec that knows one text: its stream, and the stream as `matrix_zlib` frames
it. -/
def oneStream (plain raw packed : List UInt8) : Zlib where
  compress p := if p = plain then some raw else none
  decompress b := if b = packed then some plain else none

theorem oneStream_headed {plain raw : List UInt8} (first : UInt8) (rest : List UInt8)
    (hfirst : first.toNat % 16 = 8) : (oneStream plain raw (first :: rest)).Headed := by
  intro packed p _ h
  unfold oneStream at h
  dsimp only at h
  split at h
  · next heq => exact ⟨first, rest, heq, hfirst⟩
  · cases h

theorem candidate_oneStream (plain raw packed bytes : List UInt8) (header bit : ℕ) :
    candidate (oneStream plain raw packed) plain bytes header bit =
      if bytes.getD header 0 &&& (1 <<< UInt8.ofNat bit) ≠ 0 then none
      else if bytes.set header (bytes.getD header 0 ||| (1 <<< UInt8.ofNat bit)) = packed then
        some (bytes.set header (bytes.getD header 0 ||| (1 <<< UInt8.ofNat bit)))
      else none := by
  unfold candidate oneStream
  dsimp only
  split
  · rfl
  · split
    · rw [if_pos rfl]
    · rw [if_neg nofun]

/-- The stream as `matrix_zlib` frames it, once it has found the bit to set. -/
def framed (raw : List UInt8) (mask : UInt8) : List UInt8 :=
  let bytes := raw.take (raw.length - 6) ++ raw.drop (raw.length - 4)
  bytes.set (raw.length - 11) (bytes.getD (raw.length - 11) 0 ||| mask)

theorem matrixZlib_oneStream {plain raw packed : List UInt8} (syncLen header : ℕ)
    (hsync : checkedSub raw.length 6 = some syncLen)
    (hend : (raw.drop syncLen).take 2 = [0x03, 0x00]) (hheader : checkedSub syncLen 5 = some header)
    (hbit : let bytes := raw.take syncLen ++ raw.drop (syncLen + 2)
      ((List.range 8).findSome? fun bit =>
        if bytes.getD header 0 &&& (1 <<< UInt8.ofNat bit) ≠ 0 then none
        else if bytes.set header (bytes.getD header 0 ||| (1 <<< UInt8.ofNat bit)) = packed then
          some (bytes.set header (bytes.getD header 0 ||| (1 <<< UInt8.ofNat bit)))
        else none) = some packed) :
    matrixZlib (oneStream plain raw packed) plain = some packed := by
  have hcompress : (oneStream plain raw packed).compress plain = some raw := if_pos rfl
  unfold matrixZlib
  simp only [hcompress, Option.bind_eq_bind, Option.bind_some, hsync, hend, ne_eq,
    not_true_eq_false, if_false, hheader]
  rw [← hbit]
  apply congrArg (fun f => (List.range 8).findSome? f)
  funext bit
  exact candidate_oneStream plain raw packed _ header bit

/-- A token comes back when its codec knows the record. -/
theorem encode_oneStream {view : TorrentView} {trackers : List (List Char)}
    {plain raw packed : List UInt8} (hplain : plainOf view trackers = some plain)
    (hpacked : matrixZlib (oneStream plain raw packed) plain = some packed) :
    encode (oneStream plain raw packed) view trackers = some (base62 packed) := by
  unfold encode
  simp only [hplain, hpacked, Option.bind_eq_bind, Option.bind_some, Option.pure_def]

def savedHash : InfoHash :=
  ⟨[104, 195, 204, 221, 82, 178, 146, 95, 79, 151, 226, 246, 30, 162, 72, 231, 40, 229, 76, 234],
    rfl⟩

def singleView : TorrentView :=
  ⟨"single.bin".toList, [], [], some savedHash.toText, some 8388608⟩

def singleTrackers : List (List Char) := ["http://tracker:6969/announce".toList]

def singleRaw : List UInt8 :=
  [120, 218, 202, 56, 124, 230, 110, 208, 166, 73, 241, 254, 211, 31, 125, 147, 91, 228, 241,
    92, 227, 169, 207, 43, 6, 46, 134, 226, 204, 188, 244, 156, 84, 189, 164, 204, 60, 22, 6,
    134, 6, 6, 16, 96, 146, 97, 200, 40, 41, 41, 176, 210, 215, 47, 41, 74, 76, 206, 78, 45, 178,
    50, 179, 52, 179, 212, 79, 204, 203, 203, 47, 205, 75, 78, 5, 0, 0, 0, 255, 255, 3, 0, 67,
    143, 26, 49]

theorem decode_encode_iff_single :
    ∃ z token hash, z.Headed ∧ encode z singleView singleTrackers = some token ∧
      singleView.infoHash = some hash ∧
      (decode z token = some (expected hash singleView singleTrackers) ↔
        Fits singleView singleTrackers) := by
  obtain ⟨plain, hplain⟩ : ∃ plain, plainOf singleView singleTrackers = some plain :=
    Option.isSome_iff_exists.mp (by decide)
  have hpacked : matrixZlib (oneStream plain singleRaw (framed singleRaw 4)) plain =
      some (framed singleRaw 4) :=
    matrixZlib_oneStream 80 75 (by decide) (by decide) (by decide)
      (by decide)
  have hheaded : (oneStream plain singleRaw (framed singleRaw 4)).Headed :=
    oneStream_headed 120 (framed singleRaw 4).tail (by decide)
  have hencode := encode_oneStream hplain hpacked
  obtain ⟨hash, hhash, hiff⟩ := decode_encode_iff hheaded hencode
  exact ⟨_, _, hash, hheaded, hencode, hhash, hiff⟩

/-- A title one byte too long for its sixteen bits of length. -/
def longView : TorrentView := ⟨List.replicate 65536 'a', [], [], some savedHash.toText, none⟩

def longRaw : List UInt8 :=
  [120, 218, 236, 193, 177, 9, 128, 48, 0, 0, 48, 47, 233, 236, 41, 14, 130, 224, 3, 226, 214,
    123, 92, 186, 123, 130, 47, 184, 250, 66, 23, 65, 10, 61, 192, 181, 122, 72, 146, 120, 94,
    121, 62, 182, 101, 74, 247, 27, 246, 161, 244, 207, 88, 187, 214, 86] ++
    List.replicate 63 0 ++ [248, 125, 0, 0, 0, 255, 255, 3, 0, 157, 150, 19, 103]

theorem length_encode_replicate (n : ℕ) : (Utf8.encode (List.replicate n 'a')).length = n := by
  induction n with
  | zero => rfl
  | succ n ih =>
    rw [List.replicate_succ, Utf8.encode, List.flatMap_cons, List.length_append]
    show (String.utf8EncodeChar 'a').length + (Utf8.encode (List.replicate n 'a')).length = n + 1
    rw [ih, String.length_utf8EncodeChar]
    exact Nat.add_comm 1 n

theorem longView_not_fits : ¬Fits longView [] := by
  rintro ⟨htitle, -⟩
  have htrim : Utf8.trim longView.title = longView.title :=
    Utf8.trim_of_forall fun c hc => by
      rw [List.eq_of_mem_replicate hc]
      decide
  unfold fits at htitle
  rw [htrim, show longView.title = List.replicate 65536 'a' from rfl,
    length_encode_replicate] at htitle
  exact absurd htitle (by decide)

set_option maxRecDepth 2000 in
/-- Its token is returned, and is read as another record. -/
theorem longTitle_lost :
    ∃ z token hash, z.Headed ∧ encode z longView [] = some token ∧
      longView.infoHash = some hash ∧ decode z token ≠ some (expected hash longView []) := by
  obtain ⟨hash, hhash⟩ : ∃ hash, longView.infoHash = some hash :=
    Option.isSome_iff_exists.mp (by decide)
  obtain ⟨plain, hplain⟩ : ∃ plain, plainOf longView [] = some plain := by
    unfold plainOf
    simp only [hhash, Option.bind_eq_bind, Option.bind_some]
    exact ⟨_, rfl⟩
  have hpacked : matrixZlib (oneStream plain longRaw (framed longRaw 1)) plain =
      some (framed longRaw 1) :=
    matrixZlib_oneStream 126 121 (by decide) (by decide) (by decide)
      (by decide)
  have hheaded : (oneStream plain longRaw (framed longRaw 1)).Headed :=
    oneStream_headed 120 (framed longRaw 1).tail (by decide)
  have hencode := encode_oneStream hplain hpacked
  obtain ⟨hash', hhash', hiff⟩ := decode_encode_iff hheaded hencode
  obtain rfl : hash' = hash := Option.some.inj (hhash'.symm.trans hhash)
  exact ⟨_, _, hash', hheaded, hencode, hhash, fun h => longView_not_fits (hiff.mp h)⟩

end Rustorr.TorrsHash
