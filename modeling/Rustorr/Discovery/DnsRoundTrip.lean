import Rustorr.Discovery.DnsNames
import Mathlib.Data.List.Forall2

/-! What is packed is parsed again, as long as no name takes too many steps to read. -/

namespace Rustorr.Dns

open DomainName (Reads)

/-! ### Names as texts -/

/-- Labels between dots, perhaps with a dot at the end. -/
def IsName (name : Name) : Prop :=
  ∃ labels, (∀ t ∈ labels, IsLabel t) ∧
    (name = ['.'].intercalate labels ∨ name = ['.'].intercalate labels ++ ['.'])

theorem intercalate_eq_append_getLast : ∀ {labels : List (List Char)} (hne : labels ≠ []),
    ∃ pre, ['.'].intercalate labels = pre ++ labels.getLast hne
  | [], hne => absurd rfl hne
  | [label], _ => ⟨[], List.intercalate_singleton⟩
  | label :: next :: labels, _ => by
    obtain ⟨pre, hpre⟩ := intercalate_eq_append_getLast (List.cons_ne_nil next labels)
    refine ⟨label ++ ['.'] ++ pre, ?_⟩
    rw [List.intercalate_cons_cons, hpre, List.getLast_cons (List.cons_ne_nil _ _)]
    simp only [List.append_assoc]

theorem rdropWhile_intercalate {labels : List (List Char)} (h : ∀ t ∈ labels, IsLabel t) :
    (['.'].intercalate labels).rdropWhile (· = '.') = ['.'].intercalate labels := by
  by_cases hne : labels = []
  · subst hne
    rfl
  · obtain ⟨pre, hpre⟩ := intercalate_eq_append_getLast hne
    have hlast := h _ (List.getLast_mem hne)
    rw [hpre]
    apply List.rdropWhile_eq_self_iff.mpr
    intro hl hdot
    rw [List.getLast_append_of_ne_nil _ hlast.ne_nil] at hdot
    have hmem := List.getLast_mem hlast.ne_nil
    rw [of_decide_eq_true hdot] at hmem
    exact hlast.dot_notMem hmem

/-- The labels of a name are those it is made of. -/
theorem labelsOf_eq {name : Name} {labels : List (List Char)} (h : ∀ t ∈ labels, IsLabel t)
    (hname : name = ['.'].intercalate labels ∨ name = ['.'].intercalate labels ++ ['.']) :
    labelsOf name = labels := by
  have htrim : name.rdropWhile (· = '.') = ['.'].intercalate labels := by
    rcases hname with rfl | rfl
    · exact rdropWhile_intercalate h
    · refine (List.rdropWhile_concat_pos _ _ _ ?_).trans (rdropWhile_intercalate h)
      exact decide_eq_true rfl
  unfold labelsOf
  rw [htrim]
  by_cases hne : labels = []
  · subst hne
    rfl
  · rw [List.splitOn_intercalate '.' (fun t ht => (h t ht).dot_notMem) hne]
    apply List.filter_eq_self.mpr
    intro t ht
    simp [(h t ht).ne_nil]

theorem isLabel_of_mem_labelsOf {name : Name} (h : IsName name) :
    ∀ t ∈ labelsOf name, IsLabel t := by
  obtain ⟨labels, hlabels, hname⟩ := h
  rw [labelsOf_eq hlabels hname]
  exact hlabels

/-! ### What the layout adds -/

namespace Layout

def data (data : Data) (l : Layout) : Layout :=
  match data with
  | .ptr target => l.labels true (labelsOf target)
  | .srv _ target => (l.advance 6).labels false (labelsOf target)
  | .txt strings => l.advance (strings.flatMap fun text =>
      let bytes := (Utf8.encode text).take 255
      UInt8.ofNat bytes.length :: bytes).length
  | .a _ => l.advance 4
  | .aaaa _ => l.advance 16

/-- Where the data of a record begins. -/
def toData (record : Record) (l : Layout) : Layout :=
  (l.labels true (labelsOf record.name)).advance 10

def record (record : Record) (l : Layout) : Layout := (l.toData record).data record.data

def question (question : Question) (l : Layout) : Layout :=
  (l.labels true (labelsOf question.name)).advance 4

/-- The names of a question and of a record that are read take no more steps than a reader makes. -/
def QuestionFits (question : Question) (l : Layout) : Prop :=
  l.stepsOf true (labelsOf question.name) ≤ 128

instance (question : Question) (l : Layout) : Decidable (l.QuestionFits question) :=
  inferInstanceAs (Decidable (_ ≤ _))

def RecordFits (record : Record) (l : Layout) : Prop :=
  l.stepsOf true (labelsOf record.name) ≤ 128 ∧
    ∀ target, record.data = .ptr target → (l.toData record).stepsOf true (labelsOf target) ≤ 128

def QuestionsFit : List Question → Layout → Prop
  | [], _ => True
  | question :: questions, l => l.QuestionFits question ∧ QuestionsFit questions (l.question question)

def RecordsFit : List Record → Layout → Prop
  | [], _ => True
  | record :: records, l => l.RecordFits record ∧ RecordsFit records (l.record record)

end Layout

/-- The writer and its layout, with a table that is right. -/
structure Good (w : Writer) (l : Layout) : Prop where
  follows : Follows w l
  knows : ∀ n, Knows n w l

theorem Good.push {w : Writer} {l : Layout} (h : Good w l) {bytes : List UInt8} {n : ℕ}
    (hn : bytes.length = n) : Good (w.push bytes) (l.advance n) :=
  ⟨h.follows.push hn, fun m => (h.knows m).push bytes n⟩

theorem Good.name {w : Writer} {l : Layout} (h : Good w l) (compressible : Bool) {name : Name}
    (hname : IsName name) :
    Good (w.name name compressible) (l.labels compressible (labelsOf name)) ∧
    w.out <+: (w.name name compressible).out ∧
    ∃ ts, lower ts = lower (labelsOf name) ∧
      Reads ShortLength (w.name name compressible).out w.out.length (ts.map Utf8.encode)
        (l.stepsOf compressible (labelsOf name)) (w.name name compressible).out.length := by
  obtain ⟨hfollows, hprefix, hreads, hgrows⟩ :=
    labels_spec compressible (isLabel_of_mem_labelsOf hname) h.follows (h.knows _)
  refine ⟨⟨hfollows, fun n s hs hvalid hlen p hp => ?_⟩, hprefix, hreads⟩
  rcases hgrows s hs hvalid p hp with ⟨hold, hsame⟩ | hnew
  · obtain ⟨hlt, k, hk, hentry⟩ := h.knows n s hs hvalid hlen p hold
    obtain ⟨more, hmore⟩ := hprefix
    refine ⟨hlt, k, hsame.trans hk, ?_⟩
    unfold Writer.name
    rw [← hmore]
    exact hentry.append more
  · exact hnew

/-! ### The bytes of a record -/

/-- What is written depends on what is there only by its length. -/
theorem labels_out (compressible : Bool) : ∀ (labels : List (List Char)) (w : Writer),
    ∃ bytes names, ∀ v : Writer, v.out.length = w.out.length → v.names = w.names →
      v.labels compressible labels = ⟨v.out ++ bytes, names⟩
  | [], w => ⟨[0], w.names, fun v _ hnames => by
      unfold Writer.labels Writer.push
      rw [hnames]⟩
  | label :: rest, w => by
    cases hhit : if compressible then w.names.bind fun names => names (suffix (label :: rest))
      else none with
    | some p =>
      refine ⟨be16 (0xC000 ||| p), w.names, fun v _ hnames => ?_⟩
      unfold Writer.labels Writer.push
      rw [hnames, hhit]
    | none =>
      set bytes := (Utf8.encode label).take 63
      obtain ⟨more, names, hmore⟩ := labels_out compressible rest
        ((w.register (suffix (label :: rest))).push (UInt8.ofNat bytes.length :: bytes))
      refine ⟨UInt8.ofNat bytes.length :: bytes ++ more, names, fun v hlen hnames => ?_⟩
      have hregister : (v.register (suffix (label :: rest))).names =
          (w.register (suffix (label :: rest))).names := by
        unfold Writer.register
        rw [hlen, hnames]
        split
        · rfl
        · exact hnames
      have hv := hmore ((v.register (suffix (label :: rest))).push
        (UInt8.ofNat bytes.length :: bytes)) (by
          rw [length_push, length_push, out_register, out_register, hlen]) hregister
      rw [Writer.labels, hnames, hhit]
      refine hv.trans ?_
      unfold Writer.push
      rw [out_register, List.append_assoc]

theorem push_out (bytes : List UInt8) (w : Writer) :
    ∃ more names, ∀ v : Writer, v.out.length = w.out.length → v.names = w.names →
      v.push bytes = ⟨v.out ++ more, names⟩ :=
  ⟨bytes, w.names, fun v _ hnames => by
    unfold Writer.push
    rw [hnames]⟩

theorem data_out (data : Data) (w : Writer) :
    ∃ bytes names, ∀ v : Writer, v.out.length = w.out.length → v.names = w.names →
      v.data data = ⟨v.out ++ bytes, names⟩ := by
  cases data with
  | ptr target => exact labels_out true (labelsOf target) w
  | srv port target =>
    obtain ⟨bytes, names, h⟩ := labels_out false (labelsOf target)
      (w.push ([0, 0, 0, 0] ++ be16 port))
    refine ⟨[0, 0, 0, 0] ++ be16 port ++ bytes, names, fun v hlen hnames => ?_⟩
    refine (h (v.push ([0, 0, 0, 0] ++ be16 port)) ?_ hnames).trans ?_
    · rw [length_push, length_push, hlen]
    · unfold Writer.push
      rw [List.append_assoc v.out]
  | txt strings => exact push_out _ w
  | a ip => exact push_out _ w
  | aaaa ip => exact push_out _ w

/-- The length that is patched in could have been written at once. -/
theorem record_eq (record : Record) (w : Writer) :
    let head := (w.name record.name true).push
      (be16 record.kind ++ be16 record.class_ ++ BigEndian.toBe32 record.ttl)
    ∃ (bytes : List UInt8) (names : Option (List Char → Option UInt16)),
      let n := UInt16.ofNat (min bytes.length 0xFFFF)
      w.record record = (head.push (be16 n)).data record.data ∧
      w.record record = ⟨head.out ++ be16 n ++ bytes, names⟩ := by
  intro head
  obtain ⟨bytes, names, hdata⟩ := data_out record.data (head.push [0, 0])
  refine ⟨bytes, names, ?_⟩
  intro n
  have hzero : (head.push [0, 0]).data record.data = ⟨head.out ++ [0, 0] ++ bytes, names⟩ :=
    hdata _ rfl rfl
  have hlength : (head.push (be16 n)).out.length = (head.push [0, 0]).out.length :=
    (length_push (be16 n) head).trans (length_push [0, 0] head).symm
  have hdone : (head.push (be16 n)).data record.data = ⟨head.out ++ be16 n ++ bytes, names⟩ :=
    hdata _ hlength rfl
  have hpatch : w.record record = ⟨head.out ++ be16 n ++ bytes, names⟩ := by
    have hunfold : w.record record = ((head.push [0, 0]).data record.data).patch head.out.length
        (UInt16.ofNat (min (((head.push [0, 0]).data record.data).out.length -
          head.out.length - 2) 0xFFFF)) := rfl
    have hn : (head.out ++ [0, 0] ++ bytes).length - head.out.length - 2 = bytes.length := by
      rw [List.length_append, List.length_append]
      simp only [List.length_cons, List.length_nil]
      omega
    rw [hunfold, hzero]
    unfold Writer.patch
    simp only
    rw [hn, List.append_assoc head.out, List.take_left, List.drop_append,
      List.drop_of_length_le (Nat.le_add_right _ _), Nat.add_sub_cancel_left]
    rfl
  exact ⟨hpatch.trans hdone.symm, hpatch⟩

theorem field_be16 (pre post : List UInt8) (n : UInt16) :
    field (pre ++ (be16 n ++ post)) pre.length = some n := by
  have hn := n.toNat_lt
  have hhigh : (pre ++ (be16 n ++ post))[pre.length]? = some (UInt8.ofNat (n.toNat / 256)) := by
    rw [List.getElem?_append_right (Nat.le_refl _), Nat.sub_self]
    rfl
  have hlow : (pre ++ (be16 n ++ post))[pre.length + 1]? = some (UInt8.ofNat n.toNat) := by
    rw [List.getElem?_append_right (Nat.le_add_right _ 1), Nat.add_sub_cancel_left]
    rfl
  unfold field
  rw [hhigh, hlow]
  have hnat : (UInt8.ofNat (n.toNat / 256)).toNat * 256 + (UInt8.ofNat n.toNat).toNat = n.toNat := by
    rw [UInt8.toNat_ofNat', UInt8.toNat_ofNat']
    omega
  show some (UInt16.ofNat _) = some n
  rw [hnat, UInt16.ofNat_toNat]

theorem toBe32_eq (n : UInt32) : BigEndian.toBe32 n =
    be16 (UInt16.ofNat (n.toNat / 2 ^ 16)) ++ be16 (UInt16.ofNat (n.toNat % 2 ^ 16)) := by
  have hn := n.toNat_lt
  have hbyte : ∀ {a b : ℕ}, a % 256 = b % 256 → UInt8.ofNat a = UInt8.ofNat b := by
    intro a b h
    apply UInt8.toNat_inj.mp
    rw [UInt8.toNat_ofNat', UInt8.toNat_ofNat', h]
  unfold BigEndian.toBe32 be16
  rw [UInt16.toNat_ofNat', UInt16.toNat_ofNat']
  refine congrArg₂ _ (hbyte (by omega)) (congrArg₂ _ (hbyte (by omega)) ?_)
  exact congrArg₂ _ (hbyte (by omega)) (congrArg₂ _ (hbyte (by omega)) rfl)

/-- What a record is made of keeps the table right. -/
theorem Good.data {w : Writer} {l : Layout} (h : Good w l) {data : Data}
    (hnames : ∀ target, (data = .ptr target ∨ ∃ port, data = .srv port target) → IsName target) :
    Good (w.data data) (l.data data) ∧ w.out <+: (w.data data).out := by
  cases data with
  | ptr target =>
    obtain ⟨hgood, hprefix, -⟩ := h.name true (hnames target (Or.inl rfl))
    exact ⟨hgood, hprefix⟩
  | srv port target =>
    obtain ⟨hgood, hprefix, -⟩ := (@Good.push _ _ h ([0, 0, 0, 0] ++ be16 port) 6 rfl).name
      false (hnames target (Or.inr ⟨port, rfl⟩))
    exact ⟨hgood, (List.prefix_append _ _).trans hprefix⟩
  | txt strings => exact ⟨h.push rfl, List.prefix_append _ _⟩
  | a ip => exact ⟨h.push ip.size_toArray, List.prefix_append _ _⟩
  | aaaa ip => exact ⟨h.push ip.size_toArray, List.prefix_append _ _⟩

/-- The names in a record. -/
structure NamesIn (record : Record) : Prop where
  name : IsName record.name
  target : ∀ target, (record.data = .ptr target ∨ ∃ port, record.data = .srv port target) →
    IsName target

/-! ### Reading it back -/

/-- A name read back: its labels up to case, escaped. -/
def SameName (read name : Name) : Prop :=
  ∃ ts, lower ts = lower (labelsOf name) ∧ read = dotted (ts.map Utf8.encode)

def SameQuestion (read question : Question) : Prop :=
  SameName read.name question.name ∧ read.kind = question.kind ∧ read.class_ = question.class_

/-- A PTR record comes back; any other leaves its place. -/
def SameRecord (read record : Record) : Prop :=
  match record.data with
  | .ptr target => SameName read.name record.name ∧ read.class_ = record.class_ ∧
      read.ttl = record.ttl ∧ ∃ t, read.data = .ptr t ∧ SameName t target
  | _ => read = .placeholder

theorem readName_of_reads {bytes : List UInt8} {o k e : ℕ} {ls : List (List UInt8)}
    (h : Reads ShortLength bytes o ls k e) :
    readName bytes o = if k ≤ 128 then some (dotted ls, e) else none :=
  readLabels_of_reads h 128 [] none

/-- The bytes of a record, and how its names are read. -/
structure RecordBytes (w w' : Writer) (l : Layout) (record : Record) where
  e : ℕ
  n : UInt16
  owner : List (List Char)
  stop : e + 10 + n.toNat = w'.out.length
  lower_owner : lower owner = lower (labelsOf record.name)
  reads : Reads ShortLength w'.out w.out.length (owner.map Utf8.encode)
    (l.stepsOf true (labelsOf record.name)) e
  fields : ∀ more, let bytes := w'.out ++ more
    field bytes e = some record.kind ∧ field bytes (e + 2) = some record.class_ ∧
    field bytes (e + 4) = some (UInt16.ofNat (record.ttl.toNat / 2 ^ 16)) ∧
    field bytes (e + 6) = some (UInt16.ofNat (record.ttl.toNat % 2 ^ 16)) ∧
    field bytes (e + 8) = some n
  target : ∀ target, record.data = .ptr target → ∃ ts, lower ts = lower (labelsOf target) ∧
    Reads ShortLength w'.out (e + 10) (ts.map Utf8.encode)
      ((l.toData record).stepsOf true (labelsOf target)) w'.out.length

theorem fields_be16 (pre post : List UInt8) (a b c d n : UInt16) :
    let bytes := pre ++ (be16 a ++ be16 b ++ (be16 c ++ be16 d)) ++ be16 n ++ post
    field bytes pre.length = some a ∧ field bytes (pre.length + 2) = some b ∧
    field bytes (pre.length + 4) = some c ∧ field bytes (pre.length + 6) = some d ∧
    field bytes (pre.length + 8) = some n := by
  have ha := field_be16 pre (be16 b ++ be16 c ++ be16 d ++ be16 n ++ post) a
  have hb := field_be16 (pre ++ be16 a) (be16 c ++ be16 d ++ be16 n ++ post) b
  have hc := field_be16 (pre ++ be16 a ++ be16 b) (be16 d ++ be16 n ++ post) c
  have hd := field_be16 (pre ++ be16 a ++ be16 b ++ be16 c) (be16 n ++ post) d
  have hn := field_be16 (pre ++ be16 a ++ be16 b ++ be16 c ++ be16 d) post n
  have hlen : ∀ m : UInt16, (be16 m).length = 2 := fun _ => rfl
  simp only [List.append_assoc, List.length_append, hlen] at ha hb hc hd hn ⊢
  exact ⟨ha, hb, hc, hd, hn⟩

theorem Good.record {w : Writer} {l : Layout} (h : Good w l) {record : Record}
    (hnames : NamesIn record) (hsize : (w.record record).out.length < 65536) :
    Good (w.record record) (l.record record) ∧ w.out <+: (w.record record).out ∧
      Nonempty (RecordBytes w (w.record record) l record) := by
  obtain ⟨hgood₁, hprefix₁, ts, hlower, hreads⟩ := h.name true hnames.name
  obtain ⟨bytes, names, hdata, hout⟩ := record_eq record w
  set w₁ := w.name record.name true
  set n := UInt16.ofNat (min bytes.length 0xFFFF)
  set head := w₁.push (be16 record.kind ++ be16 record.class_ ++ BigEndian.toBe32 record.ttl)
  have hgood₂ : Good (head.push (be16 n)) (l.toData record) := (hgood₁.push rfl).push rfl
  obtain ⟨hgood₃, hprefix₃⟩ := hgood₂.data hnames.target
  have hbytes : (w.record record).out = w₁.out ++ (be16 record.kind ++ be16 record.class_ ++
      BigEndian.toBe32 record.ttl) ++ be16 n ++ bytes := by
    rw [hout]
    rfl
  have hbegin : (head.push (be16 n)).out.length = w₁.out.length + 10 := by
    rw [length_push, length_push]
    rfl
  have hlength : (w.record record).out.length = w₁.out.length + 10 + bytes.length := by
    rw [hout, List.length_append, ← hbegin]
    rfl
  have hn : n.toNat = bytes.length := by
    rw [UInt16.toNat_ofNat']
    omega
  have hwhole : w₁.out <+: (w.record record).out := by
    rw [hbytes, List.append_assoc, List.append_assoc]
    exact List.prefix_append _ _
  rw [← hdata] at hgood₃
  refine ⟨hgood₃, hprefix₁.trans hwhole, ⟨⟨w₁.out.length, n, ts, by omega, hlower, ?_, ?_, ?_⟩⟩⟩
  · obtain ⟨more, hmore⟩ := hwhole
    rw [← hmore]
    exact hreads.append more
  · intro more
    rw [hbytes, toBe32_eq, List.append_assoc]
    exact fields_be16 w₁.out (bytes ++ more) _ _ _ _ _
  · intro target htarget
    obtain ⟨-, -, ts', hlower', hreads'⟩ :=
      hgood₂.name true (hnames.target target (Or.inl htarget))
    have hrecord : w.record record = (head.push (be16 n)).name target true := by
      rw [hdata, htarget]
      rfl
    rw [hbegin, ← hrecord] at hreads'
    exact ⟨ts', hlower', hreads'⟩

theorem ttl_eq (ttl : UInt32) : UInt32.ofNat
    ((UInt16.ofNat (ttl.toNat / 2 ^ 16)).toNat * 2 ^ 16 +
      (UInt16.ofNat (ttl.toNat % 2 ^ 16)).toNat) = ttl := by
  have httl := ttl.toNat_lt
  apply UInt32.toNat_inj.mp
  rw [UInt32.toNat_ofNat', UInt16.toNat_ofNat', UInt16.toNat_ofNat']
  omega

theorem kind_eq_ptr {record : Record} (h : record.kind = TYPE_PTR) :
    ∃ target, record.data = .ptr target := by
  unfold Record.kind at h
  cases hdata : record.data with
  | ptr target => exact ⟨target, rfl⟩
  | srv port target =>
    rw [hdata] at h
    exact absurd h (show TYPE_SRV ≠ TYPE_PTR by decide)
  | txt strings =>
    rw [hdata] at h
    exact absurd h (show TYPE_TXT ≠ TYPE_PTR by decide)
  | a ip =>
    rw [hdata] at h
    exact absurd h (show TYPE_A ≠ TYPE_PTR by decide)
  | aaaa ip =>
    rw [hdata] at h
    exact absurd h (show TYPE_AAAA ≠ TYPE_PTR by decide)

/-- A record is read back as it should be exactly if its names fit. -/
theorem readRecord_spec {w w' : Writer} {l : Layout} {record : Record}
    (h : RecordBytes w w' l record) (more : List UInt8) :
    (l.RecordFits record → ∃ read,
      readRecord (w'.out ++ more) w.out.length = some (read, w'.out.length) ∧
      SameRecord (read.getD .placeholder) record) ∧
    (¬l.RecordFits record → ∀ read next,
      readRecord (w'.out ++ more) w.out.length = some (read, next) →
      ¬SameRecord (read.getD .placeholder) record) := by
  obtain ⟨hkind, hclass, hhigh, hlow, hlength⟩ := h.fields more
  have howner := readName_of_reads (h.reads.append more)
  have hin : h.e + 10 + h.n.toNat ≤ (w'.out ++ more).length := by
    rw [h.stop, List.length_append]
    exact Nat.le_add_right _ _
  unfold Layout.RecordFits
  by_cases hfits : l.stepsOf true (labelsOf record.name) ≤ 128
  case neg =>
    refine ⟨fun hall => absurd hall.1 hfits, fun _ read next hread => ?_⟩
    rw [if_neg hfits] at howner
    unfold readRecord at hread
    rw [howner] at hread
    exact nomatch hread
  rw [if_pos hfits] at howner
  have hread := readRecord_eq howner hkind hclass hhigh hlow hlength hin
  rw [h.stop, ttl_eq] at hread
  rw [hread]
  by_cases hptr : record.kind = TYPE_PTR
  case neg =>
    rw [if_neg hptr]
    have hsame : SameRecord (none.getD .placeholder) record := by
      unfold SameRecord
      split
      · rename_i target hdata
        unfold Record.kind at hptr
        rw [hdata] at hptr
        exact absurd rfl hptr
      · rfl
    refine ⟨fun _ => ⟨none, rfl, hsame⟩, fun hall => absurd ⟨hfits, fun target hdata => ?_⟩ hall⟩
    unfold Record.kind at hptr
    rw [hdata] at hptr
    exact absurd rfl hptr
  obtain ⟨target, hdata⟩ := kind_eq_ptr hptr
  obtain ⟨ts, hlower, hreads⟩ := h.target target hdata
  rw [if_pos hptr, readName_of_reads (hreads.append more)]
  unfold SameRecord
  rw [hdata]
  simp only
  by_cases htarget : (l.toData record).stepsOf true (labelsOf target) ≤ 128
  · rw [if_pos htarget]
    constructor
    · intro _
      exact ⟨_, rfl, ⟨h.owner, h.lower_owner, rfl⟩, rfl, rfl, _, rfl, ts, hlower, rfl⟩
    · intro hall
      refine absurd ⟨hfits, fun t ht => ?_⟩ hall
      obtain rfl := Data.ptr.inj ht
      exact htarget
  · rw [if_neg htarget]
    constructor
    · intro hall
      exact absurd (hall.2 target rfl) htarget
    · rintro _ read next hread ⟨-, -, -, t, ht, -⟩
      obtain ⟨rfl, -⟩ := Prod.mk.inj (Option.some.inj hread)
      exact nomatch ht

/-! ### Lists of questions and records -/

/-- What is written only grows. -/
theorem prefix_foldl {α : Type} {f : Writer → α → Writer} (hf : ∀ w x, w.out <+: (f w x).out) :
    ∀ (xs : List α) (w : Writer), w.out <+: (xs.foldl f w).out
  | [], _ => List.prefix_rfl
  | x :: xs, w => (hf w x).trans (prefix_foldl hf xs (f w x))

theorem prefix_name (name : Name) (compressible : Bool) (w : Writer) :
    w.out <+: (w.name name compressible).out := by
  obtain ⟨bytes, names, h⟩ := labels_out compressible (labelsOf name) w
  unfold Writer.name
  rw [h w rfl rfl]
  exact List.prefix_append _ _

theorem prefix_record (w : Writer) (record : Record) : w.out <+: (w.record record).out := by
  obtain ⟨bytes, names, -, hout⟩ := record_eq record w
  rw [hout]
  refine (prefix_name record.name true w).trans ?_
  unfold Writer.push
  simp only [List.append_assoc]
  exact List.prefix_append _ _

theorem prefix_question (w : Writer) (question : Question) : w.out <+: (w.question question).out :=
  (prefix_name question.name true w).trans (List.prefix_append _ _)

theorem readRecords_spec : ∀ {records : List Record}, (∀ r ∈ records, NamesIn r) →
    ∀ {w : Writer} {l : Layout}, Good w l →
    (records.foldl (fun w r => w.record r) w).out.length < 65536 → ∀ more : List UInt8,
    let w' := records.foldl (fun w r => w.record r) w
    (l.RecordsFit records → ∃ read,
      readRecords (w'.out ++ more) records.length w.out.length = some (read, w'.out.length) ∧
      List.Forall₂ SameRecord read records) ∧
    (¬l.RecordsFit records → ∀ read next,
      readRecords (w'.out ++ more) records.length w.out.length = some (read, next) →
      ¬List.Forall₂ SameRecord read records)
  | [], _, _, _, _, _, _ => ⟨fun _ => ⟨[], rfl, .nil⟩, fun h => absurd trivial h⟩
  | record :: records, hnames, w, l, hgood, hsize, more => by
    obtain ⟨hname, hrest⟩ := List.forall_mem_cons.mp hnames
    intro w'
    have hprefix : (w.record record).out <+: w'.out :=
      prefix_foldl prefix_record records (w.record record)
    obtain ⟨hgood', -, ⟨hrecord⟩⟩ := hgood.record hname
      (Nat.lt_of_le_of_lt hprefix.length_le hsize)
    obtain ⟨rest, hrest'⟩ := hprefix
    have hfirst := readRecord_spec hrecord (rest ++ more)
    have hmore := readRecords_spec hrest hgood' hsize more
    rw [← List.append_assoc, hrest'] at hfirst
    change (_ ∧ _ → _) ∧ (¬(_ ∧ _) → _)
    constructor
    · rintro ⟨hfits, hfit⟩
      obtain ⟨read, hread, hsame⟩ := hfirst.1 hfits
      obtain ⟨reads, hreads, hsames⟩ : ∃ reads, readRecords (w'.out ++ more) records.length
          (w.record record).out.length = some (reads, w'.out.length) ∧
          List.Forall₂ SameRecord reads records := hmore.1 hfit
      refine ⟨read.getD .placeholder :: reads, ?_, .cons hsame hsames⟩
      show readRecords _ (records.length + 1) _ = _
      unfold readRecords
      simp only [hread, hreads, Option.bind_eq_bind, Option.bind_some, Option.pure_def]
    · intro hunfit read next hread hsame
      change readRecords _ (records.length + 1) _ = _ at hread
      unfold readRecords at hread
      obtain ⟨⟨r, o⟩, hr, hread⟩ := Option.bind_eq_some_iff.mp hread
      obtain ⟨⟨rs, o'⟩, hrs, hread⟩ := Option.bind_eq_some_iff.mp hread
      obtain ⟨rfl, rfl⟩ := Prod.mk.inj (Option.some.inj hread)
      obtain ⟨hsame, hsames⟩ := List.forall₂_cons.mp hsame
      by_cases hfits : l.RecordFits record
      · obtain ⟨read, hread, -⟩ := hfirst.1 hfits
        obtain ⟨-, rfl⟩ := Prod.mk.inj (Option.some.inj (hr.symm.trans hread))
        exact hmore.2 (fun hfit => hunfit ⟨hfits, hfit⟩) rs o' hrs hsames
      · exact hfirst.2 hfits r o hr hsame

theorem Good.question {w : Writer} {l : Layout} (h : Good w l) {question : Question}
    (hname : IsName question.name) : Good (w.question question) (l.question question) :=
  (h.name true hname).1.push rfl

/-- A question is read back as it should be exactly if its name fits. -/
theorem readQuestion_spec {w : Writer} {l : Layout} (h : Good w l) {question : Question}
    (hname : IsName question.name) (more : List UInt8) :
    let bytes := (w.question question).out ++ more
    ∃ e name, e + 4 = (w.question question).out.length ∧ SameName name question.name ∧
      readName bytes w.out.length = (if l.QuestionFits question then some (name, e) else none) ∧
      field bytes e = some question.kind ∧ field bytes (e + 2) = some question.class_ := by
  obtain ⟨-, -, ts, hlower, hreads⟩ := h.name true hname
  intro bytes
  have hbytes : bytes = (w.name question.name true).out ++
      (be16 question.kind ++ (be16 question.class_ ++ more)) := by
    show (w.name question.name true).out ++ (be16 question.kind ++ be16 question.class_) ++ more = _
    simp only [List.append_assoc]
  have hend := (length_push (be16 question.kind ++ be16 question.class_)
    (w.name question.name true)).symm
  refine ⟨(w.name question.name true).out.length, _, hend, ⟨ts, hlower, rfl⟩, ?_, ?_, ?_⟩
  · rw [hbytes]
    exact readName_of_reads (hreads.append _)
  · rw [hbytes]
    exact field_be16 _ _ _
  · have hclass := field_be16 ((w.name question.name true).out ++ be16 question.kind) more
      question.class_
    rw [List.append_assoc, List.length_append] at hclass
    rw [hbytes]
    exact hclass

theorem readQuestions_spec : ∀ {questions : List Question}, (∀ q ∈ questions, IsName q.name) →
    ∀ {w : Writer} {l : Layout}, Good w l → ∀ more : List UInt8,
    let w' := questions.foldl (fun w q => w.question q) w
    (l.QuestionsFit questions → ∃ read,
      readQuestions (w'.out ++ more) questions.length w.out.length = some (read, w'.out.length) ∧
      List.Forall₂ SameQuestion read questions) ∧
    (¬l.QuestionsFit questions →
      readQuestions (w'.out ++ more) questions.length w.out.length = none)
  | [], _, _, _, _, _ => ⟨fun _ => ⟨[], rfl, .nil⟩, fun h => absurd trivial h⟩
  | question :: questions, hnames, w, l, hgood, more => by
    obtain ⟨hname, hrest⟩ := List.forall_mem_cons.mp hnames
    intro w'
    obtain ⟨rest, hrest'⟩ : (w.question question).out <+: w'.out :=
      prefix_foldl prefix_question questions (w.question question)
    obtain ⟨e, name, he, hsame, hread, hkind, hclass⟩ := readQuestion_spec hgood hname (rest ++ more)
    obtain ⟨hfit, hunfit⟩ : (Layout.QuestionsFit questions (l.question question) → ∃ read,
        readQuestions (w'.out ++ more) questions.length (w.question question).out.length =
          some (read, w'.out.length) ∧ List.Forall₂ SameQuestion read questions) ∧
        (¬Layout.QuestionsFit questions (l.question question) →
          readQuestions (w'.out ++ more) questions.length (w.question question).out.length =
            none) :=
      readQuestions_spec hrest (hgood.question hname) more
    rw [← List.append_assoc, hrest'] at hread hkind hclass
    rw [← he] at hfit hunfit
    change (_ ∧ _ → _) ∧ (¬(_ ∧ _) → readQuestions _ (questions.length + 1) _ = _)
    unfold readQuestions
    by_cases hfits : l.QuestionFits question
    · rw [if_pos hfits] at hread
      simp only [hread, hkind, hclass, Option.bind_eq_bind, Option.bind_some, Option.pure_def]
      constructor
      · rintro ⟨-, hall⟩
        obtain ⟨reads, hreads, hsames⟩ := hfit hall
        refine ⟨⟨name, question.kind, question.class_⟩ :: reads, ?_, .cons ⟨hsame, rfl, rfl⟩ hsames⟩
        show readQuestions _ (questions.length + 1) _ = _
        unfold readQuestions
        simp only [hread, hkind, hclass, hreads, Option.bind_eq_bind, Option.bind_some,
          Option.pure_def]
      · intro hall
        rw [hunfit fun h => hall ⟨hfits, h⟩]
        rfl
    · rw [if_neg hfits] at hread
      refine ⟨fun hall => absurd hall.1 hfits, fun _ => ?_⟩
      rw [hread]
      rfl

/-! ### Messages -/

theorem readRecords_append {bytes : List UInt8} {n : ℕ} : ∀ {m o : ℕ} {rs : List Record} {stop : ℕ},
    readRecords bytes (m + n) o = some (rs, stop) ↔
      ∃ rs₁ rs₂ mid, readRecords bytes m o = some (rs₁, mid) ∧
        readRecords bytes n mid = some (rs₂, stop) ∧ rs = rs₁ ++ rs₂ ∧ rs₁.length = m
  | 0, o, rs, stop => by
    rw [Nat.zero_add]
    constructor
    · intro h
      exact ⟨[], rs, o, rfl, h, rfl, rfl⟩
    · rintro ⟨rs₁, rs₂, mid, h₁, h₂, rfl, -⟩
      obtain ⟨rfl, rfl⟩ := Prod.mk.inj (Option.some.inj h₁)
      exact h₂
  | m + 1, o, rs, stop => by
    rw [Nat.add_right_comm]
    constructor
    · intro h
      unfold readRecords at h
      obtain ⟨⟨r, next⟩, hr, h⟩ := Option.bind_eq_some_iff.mp h
      obtain ⟨⟨rest, stop'⟩, hrest, h⟩ := Option.bind_eq_some_iff.mp h
      obtain ⟨rfl, rfl⟩ := Prod.mk.inj (Option.some.inj h)
      obtain ⟨rs₁, rs₂, mid, h₁, h₂, rfl, hlen⟩ := readRecords_append.mp hrest
      refine ⟨r.getD .placeholder :: rs₁, rs₂, mid, ?_, h₂, rfl, congrArg (· + 1) hlen⟩
      unfold readRecords
      simp only [hr, h₁, Option.bind_eq_bind, Option.bind_some, Option.pure_def]
    · rintro ⟨rs₁, rs₂, mid, h₁, h₂, rfl, hlen⟩
      unfold readRecords at h₁
      obtain ⟨⟨r, next⟩, hr, h₁⟩ := Option.bind_eq_some_iff.mp h₁
      obtain ⟨⟨rest, mid'⟩, hrest, h₁⟩ := Option.bind_eq_some_iff.mp h₁
      obtain ⟨rfl, rfl⟩ := Prod.mk.inj (Option.some.inj h₁)
      have hmore := readRecords_append.mpr ⟨rest, rs₂, mid', hrest, h₂, rfl, Nat.succ.inj hlen⟩
      unfold readRecords
      simp only [hr, hmore, Option.bind_eq_bind, Option.bind_some, Option.pure_def,
        List.cons_append]

/-- The fields of a header, and how the sections follow. -/
structure Parsed (bytes : List UInt8) (p : Message) where
  flags : UInt16
  questions : UInt16
  answers : UInt16
  authority : UInt16
  additional : UInt16
  mid : ℕ
  stop : ℕ
  flags_eq : field bytes 2 = some flags
  id_eq : field bytes 0 = some p.id
  questions_eq : field bytes 4 = some questions
  answers_eq : field bytes 6 = some answers
  authority_eq : field bytes 8 = some authority
  additional_eq : field bytes 10 = some additional
  readQuestions_eq : readQuestions bytes questions.toNat 12 = some (p.questions, mid)
  readRecords_eq : readRecords bytes (answers.toNat + authority.toNat + additional.toNat) mid =
    some (p.answers ++ p.authority ++ p.additional, stop)
  answers_length : p.answers.length = answers.toNat
  authority_length : p.authority.length = authority.toNat
  response_eq : p.response = hasBit flags 15
  opcode_eq : p.opcode = ((flags >>> 11) &&& 0x0f).toUInt8
  authoritative_eq : p.authoritative = hasBit flags 10
  recursionDesired_eq : p.recursionDesired = hasBit flags 8
  checkingDisabled_eq : p.checkingDisabled = hasBit flags 4

theorem readRecords_length {bytes : List UInt8} : ∀ {n o : ℕ} {rs : List Record} {stop : ℕ},
    readRecords bytes n o = some (rs, stop) → rs.length = n
  | 0, _, _, _, h => by
    obtain ⟨rfl, -⟩ := Prod.mk.inj (Option.some.inj h)
    rfl
  | n + 1, o, rs, stop, h => by
    unfold readRecords at h
    obtain ⟨⟨r, next⟩, -, h⟩ := Option.bind_eq_some_iff.mp h
    obtain ⟨⟨rest, stop'⟩, hrest, h⟩ := Option.bind_eq_some_iff.mp h
    obtain ⟨rfl, -⟩ := Prod.mk.inj (Option.some.inj h)
    exact congrArg (· + 1) (readRecords_length hrest)

theorem parse_eq_some {bytes : List UInt8} {p : Message} :
    Message.parse bytes = some p ↔ Nonempty (Parsed bytes p) := by
  constructor
  · intro h
    unfold Message.parse at h
    obtain ⟨flags, hflags, h⟩ := Option.bind_eq_some_iff.mp h
    obtain ⟨id, hid, h⟩ := Option.bind_eq_some_iff.mp h
    obtain ⟨qs, hqs, h⟩ := Option.bind_eq_some_iff.mp h
    obtain ⟨an, han, h⟩ := Option.bind_eq_some_iff.mp h
    obtain ⟨au, hau, h⟩ := Option.bind_eq_some_iff.mp h
    obtain ⟨ad, had, h⟩ := Option.bind_eq_some_iff.mp h
    obtain ⟨⟨questions, mid⟩, hquestions, h⟩ := Option.bind_eq_some_iff.mp h
    obtain ⟨⟨answers, o₁⟩, hanswers, h⟩ := Option.bind_eq_some_iff.mp h
    obtain ⟨⟨authority, o₂⟩, hauthority, h⟩ := Option.bind_eq_some_iff.mp h
    obtain ⟨⟨additional, stop⟩, hadditional, h⟩ := Option.bind_eq_some_iff.mp h
    obtain rfl := Option.some.inj h
    have hlen := readRecords_length hanswers
    have hlen' := readRecords_length hauthority
    have hboth := readRecords_append.mpr ⟨answers, authority, o₁, hanswers, hauthority, rfl, hlen⟩
    have hall := readRecords_append.mpr ⟨answers ++ authority, additional, o₂, hboth, hadditional,
      rfl, readRecords_length hboth⟩
    exact ⟨⟨flags, qs, an, au, ad, mid, stop, hflags, hid, hqs, han, hau, had, hquestions, hall, hlen,
      hlen', rfl, rfl, rfl, rfl, rfl⟩⟩
  · rintro ⟨h⟩
    obtain ⟨rs, additional, o₂, hboth, hadditional, heq, hlen⟩ :=
      readRecords_append.mp h.readRecords_eq
    obtain ⟨answers, authority, o₁, hanswers, hauthority, rfl, hlen'⟩ := readRecords_append.mp hboth
    have hlens : (p.answers ++ p.authority).length = (answers ++ authority).length := by
      rw [List.length_append, h.answers_length, h.authority_length, hlen]
    obtain ⟨hsections, rfl⟩ := List.append_inj heq hlens
    obtain ⟨rfl, rfl⟩ := List.append_inj hsections (h.answers_length.trans hlen'.symm)
    unfold Message.parse
    simp only [h.flags_eq, h.id_eq, h.questions_eq, h.answers_eq, h.authority_eq, h.additional_eq,
      h.readQuestions_eq, hanswers, hauthority, hadditional, Option.bind_eq_bind, Option.bind_some,
      Option.pure_def, ← h.response_eq, ← h.opcode_eq, ← h.authoritative_eq,
      ← h.recursionDesired_eq, ← h.checkingDisabled_eq]

/-- The flags as they are read. -/
theorem bits_eq (opcode : UInt8) (response authoritative recursionDesired checkingDisabled : Bool) :
    let flags := bit 15 response ||| (opcode &&& 0x0f).toUInt16 <<< 11 ||| bit 10 authoritative |||
      bit 8 recursionDesired ||| bit 4 checkingDisabled
    hasBit flags 15 = response ∧ ((flags >>> 11) &&& 0x0f).toUInt8 = opcode &&& 0x0f ∧
      hasBit flags 10 = authoritative ∧ hasBit flags 8 = recursionDesired ∧
      hasBit flags 4 = checkingDisabled := by
  have hlt : (opcode &&& 0x0f).toNat < 16 := by
    rw [UInt8.toNat_and]
    exact Nat.lt_succ_of_le Nat.and_le_right
  have hall : ∀ q < 16, ∀ a b c d : Bool,
      let flags := bit 15 a ||| (UInt8.ofNat q).toUInt16 <<< 11 ||| bit 10 b ||| bit 8 c ||| bit 4 d
      hasBit flags 15 = a ∧ ((flags >>> 11) &&& 0x0f).toUInt8 = UInt8.ofNat q ∧
        hasBit flags 10 = b ∧ hasBit flags 8 = c ∧ hasBit flags 4 = d := by
    decide +kernel
  have hat := hall _ hlt response authoritative recursionDesired checkingDisabled
  rw [UInt8.ofNat_toNat] at hat
  exact hat

theorem flags_eq (message : Message) :
    hasBit message.flags 15 = message.response ∧
      ((message.flags >>> 11) &&& 0x0f).toUInt8 = message.opcode &&& 0x0f ∧
      hasBit message.flags 10 = message.authoritative ∧
      hasBit message.flags 8 = message.recursionDesired ∧
      hasBit message.flags 4 = message.checkingDisabled :=
  bits_eq message.opcode message.response message.authoritative message.recursionDesired
    message.checkingDisabled

theorem and_eq_self_iff (opcode : UInt8) : opcode &&& 0x0f = opcode ↔ opcode < 16 := by
  rw [← UInt8.toNat_inj, UInt8.toNat_and, UInt8.lt_iff_toNat_lt]
  show opcode.toNat &&& 2 ^ 4 - 1 = _ ↔ opcode.toNat < 16
  rw [Nat.and_two_pow_sub_one_eq_mod]
  exact Nat.mod_eq_iff_lt (by decide)

/-- What a message should be read back as. -/
structure SameMessage (read message : Message) : Prop where
  id : read.id = message.id
  response : read.response = message.response
  opcode : read.opcode = message.opcode
  authoritative : read.authoritative = message.authoritative
  recursionDesired : read.recursionDesired = message.recursionDesired
  checkingDisabled : read.checkingDisabled = message.checkingDisabled
  questions : List.Forall₂ SameQuestion read.questions message.questions
  answers : List.Forall₂ SameRecord read.answers message.answers
  authority : List.Forall₂ SameRecord read.authority message.authority
  additional : List.Forall₂ SameRecord read.additional message.additional

/-- Sections that can be counted, names of labels, and a packet of less than 64 KiB. -/
structure IsMessage (message : Message) : Prop where
  questions : message.questions.length < 65536
  answers : message.answers.length < 65536
  authority : message.authority.length < 65536
  additional : message.additional.length < 65536
  questionNames : ∀ q ∈ message.questions, IsName q.name
  recordNames : ∀ r ∈ message.records, NamesIn r
  size : ∀ compress, (message.pack compress).length < 65536

/-- The layout after the header. -/
def Layout.start (compress : Bool) : Layout := ⟨12, if compress then some fun _ => none else none⟩

/-- No name of the message that is read takes more steps than a reader makes: one for each label
written, for each place the rest of the name is found at and for the end. -/
structure Message.Fits (message : Message) (compress : Bool) : Prop where
  questions : (Layout.start compress).QuestionsFit message.questions
  records : Layout.RecordsFit message.records
    (message.questions.foldl (fun (l : Layout) q => l.question q) (Layout.start compress))

theorem count_toNat {n : ℕ} (h : n < 65536) : (count n).toNat = n := by
  unfold count
  rw [UInt16.toNat_ofNat']
  omega

theorem field_flatMap_be16 (post : List UInt8) : ∀ (ns : List UInt16) (pre : List UInt8) (i : ℕ)
    (h : i < ns.length), field (pre ++ (ns.flatMap be16 ++ post)) (pre.length + 2 * i) = some ns[i]
  | n :: ns, pre, 0, _ => by
    rw [List.flatMap_cons, List.append_assoc]
    exact field_be16 pre _ n
  | n :: ns, pre, i + 1, h => by
    have hrest := field_flatMap_be16 post ns (pre ++ be16 n) i (Nat.lt_of_succ_lt_succ h)
    have hlen : (pre ++ be16 n).length + 2 * i = pre.length + 2 * (i + 1) := by
      rw [List.length_append]
      show pre.length + 2 + 2 * i = _
      omega
    rw [hlen] at hrest
    rw [List.flatMap_cons, List.append_assoc, ← List.append_assoc, hrest]
    rfl

section roundTrip

variable {message : Message} (compress : Bool)

def writer₀ (message : Message) (compress : Bool) : Writer :=
  ⟨message.header, if compress then some fun _ => none else none⟩

theorem good_start : Good (writer₀ message compress) (.start compress) := by
  have hnone : ∀ s, (writer₀ message compress).find s = none := by
    intro s
    unfold writer₀ Writer.find
    cases compress <;> rfl
  refine ⟨⟨rfl, fun s => ?_, ?_⟩, fun n s _ _ _ p hp => ?_⟩
  · rw [hnone]
    unfold Layout.start Layout.find
    cases compress <;> rfl
  · unfold writer₀ Layout.start
    cases compress <;> rfl
  · rw [hnone] at hp
    exact nomatch hp

theorem good_questions : ∀ {questions : List Question}, (∀ q ∈ questions, IsName q.name) →
    ∀ {w : Writer} {l : Layout}, Good w l →
    Good (questions.foldl (fun w q => w.question q) w) (questions.foldl (fun l q => l.question q) l)
  | [], _, _, _, hgood => hgood
  | question :: questions, hnames, w, l, hgood => by
    obtain ⟨hname, hrest⟩ := List.forall_mem_cons.mp hnames
    exact good_questions hrest (hgood.question hname)

/-- The fields of the header in a packed message. -/
theorem field_pack (i : ℕ) (h : i < 6) : field (message.pack compress) (2 * i) =
    some ([message.id, message.flags, count message.questions.length,
      count message.answers.length, count message.authority.length,
      count message.additional.length][i]) := by
  obtain ⟨rest, hrest⟩ : message.header <+: message.pack compress :=
    (prefix_foldl prefix_question message.questions (writer₀ message compress)).trans
      (prefix_foldl prefix_record message.records _)
  have hfield := field_flatMap_be16 rest [message.id, message.flags,
    count message.questions.length, count message.answers.length, count message.authority.length,
    count message.additional.length] [] i h
  rw [← hrest]
  rw [List.length_nil, Nat.zero_add] at hfield
  exact hfield

def RoundTrips (message : Message) : Prop :=
  ∃ read, Message.parse (message.pack compress) = some read ∧ SameMessage read message

/-- The length of the records of a message is what its header counts. -/
theorem counts_eq (h : IsMessage message) :
    (count message.questions.length).toNat = message.questions.length ∧
    (count message.answers.length).toNat + (count message.authority.length).toNat +
      (count message.additional.length).toNat = message.records.length := by
  unfold Message.records
  rw [count_toNat h.questions, count_toNat h.answers, count_toNat h.authority,
    count_toNat h.additional, List.length_append, List.length_append]
  exact ⟨rfl, rfl⟩

/-- A message is read back from its packet exactly if its opcode has four bits and its names fit. -/
theorem roundTrips_iff (h : IsMessage message) :
    RoundTrips compress message ↔ message.opcode < 16 ∧ message.Fits compress := by
  set w := message.questions.foldl (fun w q => w.question q) (writer₀ message compress) with hw
  obtain ⟨rest, hrest⟩ : w.out <+: message.pack compress :=
    prefix_foldl prefix_record message.records w
  have hstart : Good (writer₀ message compress) (Layout.start compress) := good_start compress
  have hquestions := readQuestions_spec h.questionNames hstart rest
  dsimp only at hquestions
  rw [← hw, hrest] at hquestions
  have hrecords := readRecords_spec h.recordNames (good_questions h.questionNames hstart)
    (h.size compress) []
  dsimp only at hrecords
  rw [← hw, List.append_nil] at hrecords
  change (_ → ∃ read, readRecords (message.pack compress) _ _ =
    some (read, (message.pack compress).length) ∧ _) ∧ (_ → ∀ read next,
      readRecords (message.pack compress) _ _ = some (read, next) → _) at hrecords
  obtain ⟨hcount, hcounts⟩ := counts_eq h
  have hfield := @field_pack message compress
  obtain ⟨hresponse, hopcode, hauthoritative, hdesired, hdisabled⟩ := flags_eq message
  rw [← and_eq_self_iff]
  unfold RoundTrips
  simp only [parse_eq_some]
  constructor
  · rintro ⟨read, ⟨p⟩, hsame⟩
    have hflags : p.flags = message.flags :=
      Option.some.inj (p.flags_eq.symm.trans (hfield 1 (by decide)))
    have hqs := Option.some.inj (p.questions_eq.symm.trans (hfield 2 (by decide)))
    have han := Option.some.inj (p.answers_eq.symm.trans (hfield 3 (by decide)))
    have hau := Option.some.inj (p.authority_eq.symm.trans (hfield 4 (by decide)))
    have had := Option.some.inj (p.additional_eq.symm.trans (hfield 5 (by decide)))
    have hread := p.readQuestions_eq
    have hreads := p.readRecords_eq
    rw [hqs] at hread
    rw [han, hau, had] at hreads
    change readQuestions _ (count message.questions.length).toNat _ = _ at hread
    change readRecords _ ((count message.answers.length).toNat +
      (count message.authority.length).toNat + (count message.additional.length).toNat) _ = _
      at hreads
    rw [hcount] at hread
    rw [hcounts] at hreads
    have hfit : (Layout.start compress).QuestionsFit message.questions := by
      by_contra hunfit
      exact nomatch (hquestions.2 hunfit).symm.trans hread
    obtain ⟨questions, hfound, -⟩ := hquestions.1 hfit
    obtain ⟨-, hmid⟩ := Prod.mk.inj (Option.some.inj (hfound.symm.trans hread))
    rw [← hmid] at hreads
    refine ⟨?_, hfit, ?_⟩
    · rw [← hopcode, ← hflags, ← p.opcode_eq, hsame.opcode]
    · by_contra hunfit
      refine hrecords.2 hunfit _ _ hreads ?_
      exact List.rel_append (List.rel_append hsame.answers hsame.authority) hsame.additional
  · rintro ⟨hmask, hfit, hfits⟩
    obtain ⟨questions, hread, hsame⟩ := hquestions.1 hfit
    obtain ⟨records, hreads, hsames⟩ := hrecords.1 hfits
    have hlen := hsames.length_eq
    set n := message.answers.length
    set m := message.authority.length
    have hlast : records.take (n + m) ++ records.drop (n + m) = records :=
      List.take_append_drop _ _
    have hfirst : (records.take (n + m)).take n ++ (records.take (n + m)).drop n =
        records.take (n + m) := List.take_append_drop _ _
    have hsections : List.Forall₂ SameRecord (records.take (n + m))
        (message.answers ++ message.authority) := by
      have htake := List.forall₂_take_append _ _ _ hsames
      rwa [List.length_append] at htake
    have hdrop := List.forall₂_drop_append _ _ _ hsames
    rw [List.length_append] at hdrop
    refine ⟨{
      id := message.id
      response := message.response
      opcode := message.opcode
      authoritative := message.authoritative
      recursionDesired := message.recursionDesired
      checkingDisabled := message.checkingDisabled
      questions := questions
      answers := (records.take (n + m)).take n
      authority := (records.take (n + m)).drop n
      additional := records.drop (n + m) }, ?_, ?_⟩
    · refine ⟨⟨message.flags, count message.questions.length, count n, count m,
        count message.additional.length, w.out.length, (message.pack compress).length,
        hfield 1 (by decide), hfield 0 (by decide), hfield 2 (by decide), hfield 3 (by decide),
        hfield 4 (by decide), hfield 5 (by decide), ?_, ?_, ?_, ?_, hresponse.symm, ?_,
        hauthoritative.symm, hdesired.symm, hdisabled.symm⟩⟩
      · rw [hcount]
        exact hread
      · rw [hcounts, hfirst, hlast]
        exact hreads
      · rw [count_toNat h.answers]
        exact (List.forall₂_take_append _ _ _ hsections).length_eq
      · rw [count_toNat h.authority]
        exact (List.forall₂_drop_append _ _ _ hsections).length_eq
      · exact hmask.symm.trans hopcode.symm
    · exact ⟨rfl, rfl, rfl, rfl, rfl, rfl, hsame, List.forall₂_take_append _ _ _ hsections,
        List.forall₂_drop_append _ _ _ hsections, hdrop⟩

end roundTrip

/-- A message comes back from its packet, compressed or not, exactly if its opcode has four bits and
no name takes more steps than a reader makes. -/
theorem dns_round_trip_iff (message : Message) (h : IsMessage message) :
    RoundTrips true message ∧ RoundTrips false message ↔
      message.opcode < 16 ∧ message.Fits true ∧ message.Fits false := by
  rw [roundTrips_iff true h, roundTrips_iff false h]
  constructor
  · rintro ⟨⟨hopcode, htrue⟩, -, hfalse⟩
    exact ⟨hopcode, htrue, hfalse⟩
  · rintro ⟨hopcode, htrue, hfalse⟩
    exact ⟨⟨hopcode, htrue⟩, hopcode, hfalse⟩

/-! ### A name that is asked for twice -/

theorem stepsOf_of_find_eq_none (compressible : Bool) {l : Layout} (h : ∀ s, l.find s = none) :
    ∀ labels : List (List Char), l.stepsOf compressible labels = labels.length + 1
  | [] => rfl
  | label :: rest => by
    have hhit : l.hit compressible (suffix (label :: rest)) = none := by
      unfold Layout.hit
      rw [h, ite_self]
    unfold Layout.stepsOf
    rw [hhit]
    exact congrArg (· + 1) (stepsOf_of_find_eq_none compressible h rest)

/-- What is known of a suffix is never forgotten. -/
theorem find_labels (compressible : Bool) {s : List Char} {k : ℕ} :
    ∀ (labels : List (List Char)) {l : Layout}, l.find s = some k →
      (l.labels compressible labels).find s = some k
  | [], _, h => h
  | label :: rest, l, h => by
    unfold Layout.labels
    split
    · exact h
    · apply find_labels compressible rest
      rw [find_advance, Layout.find_register]
      split
      · rename_i hkey
        rw [← hkey.1, h, Option.getD_some]
      · exact h

theorem find_start (compress : Bool) (s : List Char) : (Layout.start compress).find s = none := by
  unfold Layout.start Layout.find
  cases compress <;> rfl

/-- The second time a name is two steps longer than its labels. -/
theorem stepsOf_again {labels : List (List Char)} (hne : labels ≠ []) :
    (((Layout.start true).labels true labels).advance 4).stepsOf true labels =
      labels.length + 2 := by
  cases labels with
  | nil => exact absurd rfl hne
  | cons label rest =>
    set key := suffix (label :: rest)
    have hnone : (Layout.start true).hit true key = none := find_start true key
    have hknown : ((Layout.start true).labels true (label :: rest)).find key =
        some (rest.length + 2) := by
      rw [Layout.labels, hnone]
      apply find_labels
      rw [find_advance, Layout.find_register, if_pos ⟨rfl, by decide, rfl⟩, find_start,
        Option.getD_none, stepsOf_of_find_eq_none true (find_start true)]
      rfl
    have hhit : (((Layout.start true).labels true (label :: rest)).advance 4).hit true key =
        some (rest.length + 2) := hknown
    unfold Layout.stepsOf
    rw [hhit]
    rfl

theorem length_labels_le (compressible : Bool) : ∀ (labels : List (List Char)) (w : Writer),
    (w.labels compressible labels).out.length ≤ w.out.length + labels.length * 64 + 1
  | [], w => by
    unfold Writer.labels
    rw [length_push]
    exact Nat.le_refl _
  | label :: rest, w => by
    unfold Writer.labels
    split
    · rw [length_push]
      show w.out.length + 2 ≤ w.out.length + (rest.length + 1) * 64 + 1
      omega
    · refine (length_labels_le compressible rest _).trans ?_
      have htake := List.length_take_le 63 (Utf8.encode label)
      rw [length_push, out_register, List.length_cons, List.length_cons]
      omega

def longLabels : List (List Char) := List.replicate 127 ['a']

/-- A name of 127 labels, 253 characters. -/
def longName : Name := ['.'].intercalate longLabels

theorem length_longLabels : longLabels.length = 127 := List.length_replicate

theorem isLabel_longLabels : ∀ t ∈ longLabels, IsLabel t := by
  intro t ht
  rw [List.eq_of_mem_replicate ht]
  exact ⟨List.cons_ne_nil _ _, by decide, by decide⟩

theorem labelsOf_longName : labelsOf longName = longLabels :=
  labelsOf_eq isLabel_longLabels (Or.inl rfl)

/-- A message of one question, asked twice. -/
def askedTwice (name : Name) : Message :=
  ⟨0, false, 0, false, false, false, [⟨name, TYPE_PTR, 1⟩, ⟨name, TYPE_PTR, 1⟩], [], [], []⟩

theorem pack_askedTwice (name : Name) (compress : Bool) : (askedTwice name).pack compress =
    (((writer₀ (askedTwice name) compress).question ⟨name, TYPE_PTR, 1⟩).question
      ⟨name, TYPE_PTR, 1⟩).out := rfl

theorem isMessage_askedTwice : IsMessage (askedTwice longName) := by
  have hname : IsName longName := ⟨longLabels, isLabel_longLabels, Or.inl rfl⟩
  refine ⟨by decide, by decide, by decide, by decide, ?_, fun r hr => absurd hr List.not_mem_nil, ?_⟩
  · intro q hq
    rcases List.mem_pair.mp hq with rfl | rfl
    · exact hname
    · exact hname
  · intro compress
    have hlength : ∀ w : Writer, (w.question ⟨longName, TYPE_PTR, 1⟩).out.length ≤
        w.out.length + 127 * 64 + 5 := by
      intro w
      have hlabels := length_labels_le true longLabels w
      rw [length_longLabels] at hlabels
      unfold Writer.question Writer.name
      rw [length_push, labelsOf_longName]
      exact Nat.add_le_add_right hlabels 4
    have hfirst := hlength (writer₀ (askedTwice longName) compress)
    have hsecond := hlength ((writer₀ (askedTwice longName) compress).question
      ⟨longName, TYPE_PTR, 1⟩)
    have hstart : (writer₀ (askedTwice longName) compress).out.length = 12 := rfl
    rw [pack_askedTwice]
    omega

/-- A message that asks twice for a name of 127 labels does not come back compressed. -/
theorem name_asked_twice :
    IsMessage (askedTwice longName) ∧ ¬RoundTrips true (askedTwice longName) := by
  refine ⟨isMessage_askedTwice, fun h => ?_⟩
  obtain ⟨-, hfits⟩ := (roundTrips_iff true isMessage_askedTwice).mp h
  obtain ⟨-, hsecond, -⟩ := hfits.questions
  have hne : longLabels ≠ [] := List.ne_nil_of_length_pos (Nat.lt_of_lt_of_eq (by decide)
    length_longLabels.symm)
  have hsteps := stepsOf_again hne
  unfold Layout.QuestionFits Layout.question at hsecond
  simp only [labelsOf_longName] at hsecond
  rw [hsteps, length_longLabels] at hsecond
  exact absurd hsecond (by decide)

/-- The announcement of a service. -/
def announced : Message :=
  ⟨0, true, 0, true, false, false, [],
    [⟨"_http._tcp.local.".toList, 1, 3200, .ptr "tv._http._tcp.local.".toList⟩], [],
    [⟨"tv._http._tcp.local.".toList, 1, 120, .srv 8090 "tv.local.".toList⟩]⟩

theorem isName_of_labels {labels : List (List Char)}
    (h : ∀ t ∈ labels, t ≠ [] ∧ '.' ∉ t ∧ (Utf8.encode t).length ≤ 63) :
    IsName (['.'].intercalate labels ++ ['.']) :=
  ⟨labels, fun t ht => ⟨(h t ht).1, (h t ht).2.1, (h t ht).2.2⟩, Or.inr rfl⟩

theorem isMessage_announced : IsMessage announced := by
  have htype : IsName "_http._tcp.local.".toList :=
    @isName_of_labels (["_http", "_tcp", "local"].map String.toList) (by decide)
  have hservice : IsName "tv._http._tcp.local.".toList :=
    @isName_of_labels (["tv", "_http", "_tcp", "local"].map String.toList) (by decide)
  have hhost : IsName "tv.local.".toList :=
    @isName_of_labels (["tv", "local"].map String.toList) (by decide)
  refine ⟨by decide, by decide, by decide, by decide, fun q hq => absurd hq List.not_mem_nil, ?_, ?_⟩
  · intro r hr
    rcases List.mem_pair.mp hr with rfl | rfl
    · refine ⟨htype, ?_⟩
      rintro target (h | ⟨port, h⟩)
      · exact Data.ptr.inj h ▸ hservice
      · exact nomatch h
    · refine ⟨hservice, ?_⟩
      rintro target (h | ⟨port, h⟩)
      · exact nomatch h
      · exact (Data.srv.inj h).2 ▸ hhost
  · intro compress
    cases compress <;> decide +kernel

theorem announced_round_trip : RoundTrips true announced ∧ RoundTrips false announced := by
  refine (dns_round_trip_iff announced isMessage_announced).mpr ⟨by decide, ⟨trivial, ?_⟩,
    ⟨trivial, ?_⟩⟩
  · refine ⟨⟨by decide +kernel, fun target h => ?_⟩, ⟨by decide +kernel, fun target h => nomatch h⟩,
      trivial⟩
    obtain rfl := Data.ptr.inj h
    decide +kernel
  · refine ⟨⟨by decide +kernel, fun target h => ?_⟩, ⟨by decide +kernel, fun target h => nomatch h⟩,
      trivial⟩
    obtain rfl := Data.ptr.inj h
    decide +kernel

end Rustorr.Dns
