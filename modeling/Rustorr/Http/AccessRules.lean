import Mathlib.Data.Set.Basic
import Rustorr.Http.Access
import Rustorr.Lib.Trim

/-! What the lines of the access lists denote, and the lines whose rule matches just that. -/

namespace Rustorr.Waf

open Conditional (Bytes)

/-! ### Lines -/

/-- Line `index` of a text says something. -/
def Entry (text : List Char) (index : ℕ) (raw : List Char) : Prop :=
  ((Text.lines text)[index]?).map Utf8.trim = some raw ∧ skipped raw = false

section lines

variable {ρ : Type} (rule : List Char → Option ρ) (list code : String)

def lineRule (line : List Char × ℕ) : Option ρ :=
  if skipped (Utf8.trim line.1) then none else rule (Utf8.trim line.1)

def lineWarning (line : List Char × ℕ) : Option WafWarning :=
  if skipped (Utf8.trim line.1) then none
  else match rule (Utf8.trim line.1) with
    | some _ => none
    | none => some ⟨list, some (line.2 + 1), code⟩

/-- A walk that adds to two lists collects what each line gives to them. -/
theorem foldl_filterMap {ε α β : Type} {f : List α × List β → ε → List α × List β} {g : ε → Option α}
    {k : ε → Option β} (h : ∀ as bs e, f (as, bs) e = (as ++ (g e).toList, bs ++ (k e).toList))
    (es : List ε) : ∀ as bs,
      es.foldl f (as, bs) = (as ++ es.filterMap g, bs ++ es.filterMap k) := by
  induction es with
  | nil =>
    intro as bs
    simp
  | cons e es ih =>
    intro as bs
    rw [List.foldl_cons, h, ih, List.append_assoc, List.append_assoc]
    cases hg : g e <;> cases hk : k e <;> simp [hg, hk]

theorem parseLines_eq (text : List Char) :
    parseLines rule list code text = ((Text.lines text).zipIdx.filterMap (lineRule rule),
      (Text.lines text).zipIdx.filterMap (lineWarning rule list code)) := by
  unfold parseLines
  refine foldl_filterMap (fun rules warnings line => ?_) (Text.lines text).zipIdx [] []
  obtain ⟨line, index⟩ := line
  by_cases hskip : skipped (Utf8.trim line) = true
  · simp [lineRule, lineWarning, hskip]
  · simp only [lineRule, lineWarning, if_neg hskip]
    cases rule (Utf8.trim line) with
    | some r => simp
    | none => simp

variable {rule list code} {text : List Char} {index : ℕ} {raw : List Char}

theorem mem_parseLines_rules {r : ρ} :
    r ∈ (parseLines rule list code text).1 ↔
      ∃ index raw, Entry text index raw ∧ rule raw = some r := by
  rw [parseLines_eq, List.mem_filterMap]
  constructor
  · rintro ⟨⟨line, index⟩, hmem, hrule⟩
    have hline := List.mem_zipIdx_iff_getElem?.mp hmem
    unfold lineRule at hrule
    split at hrule
    · cases hrule
    · next hskip =>
      refine ⟨index, Utf8.trim line, ⟨?_, Bool.eq_false_iff.mpr hskip⟩, hrule⟩
      rw [hline]
      rfl
  · rintro ⟨index, raw, ⟨hline, hskip⟩, hrule⟩
    obtain ⟨line, hget, rfl⟩ := Option.map_eq_some_iff.mp hline
    refine ⟨(line, index), List.mem_zipIdx_iff_getElem?.mpr hget, ?_⟩
    unfold lineRule
    rw [hskip]
    exact hrule

theorem mem_parseLines_warnings {w : WafWarning} :
    w ∈ (parseLines rule list code text).2 ↔
      ∃ index raw, Entry text index raw ∧ rule raw = none ∧ w = ⟨list, some (index + 1), code⟩ := by
  rw [parseLines_eq, List.mem_filterMap]
  constructor
  · rintro ⟨⟨line, index⟩, hmem, hwarning⟩
    have hline := List.mem_zipIdx_iff_getElem?.mp hmem
    unfold lineWarning at hwarning
    split at hwarning
    · cases hwarning
    · next hskip =>
      split at hwarning
      · cases hwarning
      · next hrule =>
        refine ⟨index, Utf8.trim line, ⟨?_, Bool.eq_false_iff.mpr hskip⟩, hrule, ?_⟩
        · rw [hline]
          rfl
        · exact (Option.some.inj hwarning).symm
  · rintro ⟨index, raw, ⟨hline, hskip⟩, hrule, rfl⟩
    obtain ⟨line, hget, rfl⟩ := Option.map_eq_some_iff.mp hline
    refine ⟨(line, index), List.mem_zipIdx_iff_getElem?.mpr hget, ?_⟩
    unfold lineWarning
    rw [hskip, hrule]
    rfl

/-- A line is warned of under its own number. -/
theorem warned_iff (h : Entry text index raw) :
    ⟨list, some (index + 1), code⟩ ∈ (parseLines rule list code text).2 ↔ rule raw = none := by
  rw [mem_parseLines_warnings]
  constructor
  · rintro ⟨index', raw', h', hrule, heq⟩
    have hindex : index = index' := by
      have hline := congrArg WafWarning.line heq
      simpa using hline
    subst hindex
    have hraw : raw' = raw := Option.some.inj (h'.1.symm.trans h.1)
    rwa [← hraw]
  · exact fun hrule => ⟨index, raw, h, hrule, rfl⟩

theorem list_eq_of_warned {list' code' : String} {line : Option ℕ}
    (h : ⟨list', line, code'⟩ ∈ (parseLines rule list code text).2) : list' = list := by
  obtain ⟨index, raw, -, -, heq⟩ := mem_parseLines_warnings.mp h
  exact congrArg WafWarning.list heq

end lines

/-! ### Addresses -/

/-- The addresses whose first bits are those of the network. -/
def IpNet.block (net : IpNet) : Set IpAddr :=
  {a | a.width = net.address.width ∧ a.number / net.size = net.address.number / net.size}

theorem IpNet.contains_iff (net : IpNet) (a : IpAddr) : net.contains a = true ↔ a ∈ net.block := by
  have hpos : 0 < net.size := Nat.two_pow_pos _
  unfold IpNet.contains IpNet.broadcast IpNet.network IpNet.block
  rw [Bool.and_eq_true, Bool.and_eq_true, decide_eq_true_eq, decide_eq_true_eq, decide_eq_true_eq,
    and_assoc]
  refine and_congr Iff.rfl ⟨fun ⟨hlow, hhigh⟩ => ?_, fun heq => ?_⟩
  · apply Nat.div_eq_of_lt_le hlow
    rw [Nat.add_mul, Nat.one_mul]
    omega
  · rw [← heq]
    have hdiv := Nat.div_add_mod' a.number net.size
    have hmod := Nat.mod_lt a.number hpos
    constructor <;> omega

/-- Two addresses of one family in order. -/
def IpAddr.Ordered (first last : IpAddr) : Prop :=
  first.width = last.width ∧ first.number ≤ last.number

/-- The addresses that a rule, as it is written, stands for. -/
def IpRule.Denotes : IpRule → Set IpAddr → Prop
  | address expected, S => S = {expected}
  | network net, S => S = net.block
  | range first last, S => first.Ordered last ∧
      S = {a | a.width = first.width ∧ first.number ≤ a.number ∧ a.number ≤ last.number}

theorem contains_range {first last : IpAddr} (h : first.Ordered last) (a : IpAddr) :
    (IpRule.range first last).contains a = true ↔
      a.width = first.width ∧ first.number ≤ a.number ∧ a.number ≤ last.number := by
  obtain ⟨hwidth, hle⟩ := h
  cases first <;> cases last <;> cases a <;>
    simp_all [IpRule.contains, ipNumber, IpAddr.width, IpAddr.number, Prod.Lex.le_iff]

/-- A rule matches what it stands for, unless it is a range without order. -/
theorem takesEffect_iff (rule : IpRule) :
    (∃ S, rule.Denotes S ∧ S.Nonempty ∧ ∀ a, rule.contains a = true ↔ a ∈ S) ↔
      ∀ first last, rule = .range first last → first.Ordered last := by
  cases rule with
  | address expected =>
    refine iff_of_true ⟨{expected}, rfl, ⟨expected, rfl⟩, fun a => ?_⟩ fun first last h => nomatch h
    exact decide_eq_true_iff.trans eq_comm
  | network net =>
    refine iff_of_true ⟨net.block, rfl, ⟨net.address, rfl, rfl⟩, fun a => ?_⟩
      fun first last h => nomatch h
    exact net.contains_iff a
  | range first last =>
    constructor
    · rintro ⟨S, ⟨hordered, -⟩, -⟩ first' last' heq
      cases heq
      exact hordered
    · intro h
      have hordered := h first last rfl
      refine ⟨_, ⟨hordered, rfl⟩, ⟨first, rfl, le_rfl, hordered.2⟩, fun a => ?_⟩
      exact contains_range hordered a

/-! ### Host names -/

/-- A printable character that no address of a page ends or divides a host at. -/
def hostChar (c : Char) : Bool :=
  0x21 ≤ c.toNat && c.toNat < 0x7f && decide (c ∉ ['/', '?', '#', '@', '[', ']', ':', '*'])

def authorityOf (rest : List Char) : List Char := rest.takeWhile fun c => decide (c ∉ ['/', '?', '#'])

/-- A host in lower case, without dots about it. -/
def plainName (host : List Char) : List Char :=
  toAsciiLowercase ((host.dropWhile (· = '.')).rdropWhile (· = '.'))

/-- The name that a host, a host with a port or a URL denotes. An address in brackets is none. -/
def denotedHost (raw : List Char) : Option (List Char) :=
  let authority := match afterScheme raw with
    | some rest => (authorityOf rest).rtakeWhile (· ≠ '@')
    | none => raw
  let host := upToPort authority
  if host.all hostChar ∧ plainName host ≠ [] then some (plainName host) else none

/-- A name as `header_host` gives it back. -/
structure HostName (s : List Char) : Prop where
  chars : ∀ c ∈ s, hostChar c = true
  lower : toAsciiLowercase s = s
  ne : s ≠ []
  stem : ∀ h : s ≠ [], s.getLast h ≠ '.'

theorem hostChar_lt {c : Char} (h : hostChar c = true) : c.toNat < 127 := by
  unfold hostChar at h
  simp only [Bool.and_eq_true, decide_eq_true_eq] at h
  exact h.1.2

/-- What holds of the first characters holds of those in a host. -/
theorem of_hostChar {P : Char → Bool} (hall : ((List.range 127).all fun n =>
    !hostChar (.ofNat n) || P (.ofNat n)) = true) {c : Char} (h : hostChar c = true) :
    P c = true := by
  have hc := List.all_eq_true.mp hall c.toNat (List.mem_range.mpr (hostChar_lt h))
  rw [Char.ofNat_toNat, h] at hc
  exact hc

theorem hostChar_toLower {c : Char} (h : hostChar c = true) : hostChar c.toLower = true :=
  of_hostChar (P := fun c => hostChar c.toLower) (by decide +kernel) h

theorem toLower_toLower {c : Char} (h : hostChar c = true) : c.toLower.toLower = c.toLower := by
  have hc := of_hostChar (P := fun c => decide (c.toLower.toLower = c.toLower))
    (by decide +kernel) h
  exact of_decide_eq_true hc

theorem toLower_ne_dot {c : Char} (h : hostChar c = true) (hne : c ≠ '.') : c.toLower ≠ '.' := by
  have hc := of_hostChar (P := fun c => decide (c ≠ '.' → c.toLower ≠ '.')) (by decide +kernel) h
  exact of_decide_eq_true hc hne

theorem ne_of_hostChar {c d : Char} (h : hostChar c = true) (hd : hostChar d = false) : c ≠ d := by
  intro e
  rw [e, hd] at h
  cases h

theorem hostName_plainName {host : List Char} (hchars : ∀ c ∈ host, hostChar c = true)
    (hne : plainName host ≠ []) : HostName (plainName host) := by
  have hsub : ∀ c ∈ (host.dropWhile (· = '.')).rdropWhile (· = '.'), hostChar c = true :=
    fun c hc => hchars c (List.dropWhile_subset _ (List.rdropWhile_subset _ _ hc))
  refine ⟨?_, ?_, hne, ?_⟩
  · intro c hc
    obtain ⟨d, hd, rfl⟩ := List.mem_map.mp hc
    exact hostChar_toLower (hsub d hd)
  · unfold plainName toAsciiLowercase
    rw [List.map_map]
    exact List.map_congr_left fun c hc => toLower_toLower (hsub c hc)
  · intro hne'
    unfold plainName toAsciiLowercase at hne' ⊢
    rw [List.getLast_map]
    have hlast : (host.dropWhile (· = '.')).rdropWhile (· = '.') ≠ [] :=
      fun e => hne' (List.map_eq_nil_iff.mpr e)
    apply toLower_ne_dot (hsub _ (List.getLast_mem hlast))
    have hnot := List.rdropWhile_last_not _ _ hlast
    simpa using hnot

/-- A request from a name is seen as one. -/
theorem headerHost_url {s : List Char} (h : HostName s) :
    headerHost ("http://".toList ++ s) = some s := by
  have hafter : afterScheme ("http://".toList ++ s) = some s := by
    simp [afterScheme]
  have hslash : s.takeWhile (· ≠ '/') = s := by
    rw [List.takeWhile_eq_self_iff]
    intro c hc
    simpa using ne_of_hostChar (h.chars c hc) (d := '/') (by decide)
  have hbracket : s.dropWhile (· = '[') = s := by
    rw [List.dropWhile_eq_self_iff]
    intro hpos
    simpa using ne_of_hostChar (h.chars _ (List.getElem_mem hpos)) (d := '[') (by decide)
  have hport : (s.takeWhile fun c => c ≠ ']' && c ≠ ':') = s := by
    rw [List.takeWhile_eq_self_iff]
    intro c hc
    have hclose := ne_of_hostChar (h.chars c hc) (d := ']') (by decide)
    have hcolon := ne_of_hostChar (h.chars c hc) (d := ':') (by decide)
    simp [hclose, hcolon]
  have hdot : s.rdropWhile (· = '.') = s := by
    rw [List.rdropWhile_eq_self_iff]
    intro hne
    simpa using h.stem hne
  unfold headerHost
  rw [hafter, Option.bind_some]
  simp only [hslash, hbracket, hport, hdot, h.lower, if_neg h.ne]

theorem exists_header {s : List Char} (h : HostName s) :
    ∃ value, (headerText value).bind headerHost = some s := by
  refine ⟨("http://".toList ++ s).map fun c => UInt8.ofNat c.toNat, ?_⟩
  have hsmall : ∀ c ∈ "http://".toList ++ s, 0x21 ≤ c.toNat ∧ c.toNat < 0x7f := by
    intro c hc
    rcases List.mem_append.mp hc with hc | hc
    · have hall : ("http://".toList.all fun c => decide (0x21 ≤ c.toNat ∧ c.toNat < 0x7f)) = true := by
        decide
      exact of_decide_eq_true (List.all_eq_true.mp hall c hc)
    · have hchar := h.chars c hc
      unfold hostChar at hchar
      simp only [Bool.and_eq_true, decide_eq_true_eq] at hchar
      exact hchar.1
  have hround : ∀ c ∈ "http://".toList ++ s, (UInt8.ofNat c.toNat).toNat = c.toNat := by
    intro c hc
    have hlt := (hsmall c hc).2
    exact UInt8.toNat_ofNat_of_lt' (hlt.trans (by decide))
  have htext : headerText (("http://".toList ++ s).map fun c => UInt8.ofNat c.toNat) =
      some ("http://".toList ++ s) := by
    unfold headerText
    rw [if_pos, List.map_map]
    · congr 1
      refine (List.map_congr_left fun c hc => ?_).trans (List.map_id _)
      show Char.ofNat (UInt8.ofNat c.toNat).toNat = c
      rw [hround c hc, Char.ofNat_toNat]
    · rw [List.all_map, List.all_eq_true]
      intro c hc
      have hbounds := hsmall c hc
      have hvalue := hround c hc
      have hlow : (0x20 : UInt8) ≤ UInt8.ofNat c.toNat := by
        rw [UInt8.le_iff_toNat_le, hvalue]
        exact Nat.le_of_succ_le hbounds.1
      have hhigh : UInt8.ofNat c.toNat < (0x7f : UInt8) := by
        rw [UInt8.lt_iff_toNat_lt, hvalue]
        exact hbounds.2
      simp [Conditional.isVisibleAscii, hlow, hhigh]
  rw [htext, Option.bind_some]
  exact headerHost_url h

/-! ### Referers -/

/-- A host is blocked with a name: it is the name, or below it. -/
def Below (name host : List Char) : Prop := host = name ∨ ('.' :: name) <:+ host

theorem hostMatches_iff {blocked host : List Char} :
    hostMatches blocked host = true ↔ Below blocked host := by
  unfold hostMatches Below
  rw [Bool.or_eq_true, decide_eq_true_eq, List.isSuffixOf_iff_suffix]

/-- The rule of a line matches some host, and just the hosts that the line denotes. -/
def RefererHolds (raw blocked : List Char) : Prop :=
  ∃ name, denotedHost raw = some name ∧
    (∃ value host, (headerText value).bind headerHost = some host ∧
      hostMatches blocked host = true) ∧
    ∀ value host, (headerText value).bind headerHost = some host →
      (hostMatches blocked host = true ↔ Below name host)

theorem hostName_of_denoted {raw name : List Char} (h : denotedHost raw = some name) :
    HostName name := by
  unfold denotedHost at h
  split at h <;>
  · simp only at h
    split at h
    · next hcond =>
      cases h
      exact hostName_plainName (List.all_eq_true.mp hcond.1) hcond.2
    · cases h

theorem HostName.of_suffix {name blocked : List Char} (h : HostName name)
    (hsuffix : ('.' :: blocked) <:+ name) : HostName blocked := by
  obtain ⟨front, rfl⟩ := hsuffix
  have hne : blocked ≠ [] := by
    rintro rfl
    exact h.stem (by simp) (by simp)
  have hmem : ∀ c ∈ blocked, c ∈ front ++ '.' :: blocked := fun c hc =>
    List.mem_append_right _ (List.mem_cons_of_mem _ hc)
  refine ⟨fun c hc => h.chars c (hmem c hc), ?_, hne, fun hne' => ?_⟩
  · have hlower := h.lower
    unfold toAsciiLowercase at hlower ⊢
    rw [List.map_append, List.map_cons] at hlower
    have htail := List.append_inj_right hlower (List.length_map _)
    exact (List.cons.inj htail).2
  · have hlast := h.stem (by simp)
    rw [List.getLast_append_of_ne_nil _ (List.cons_ne_nil _ _), List.getLast_cons hne'] at hlast
    exact hlast

/-- Two names with the same hosts below them are one. -/
theorem refererHolds_iff {raw blocked : List Char} :
    RefererHolds raw blocked ↔ denotedHost raw = some blocked := by
  constructor
  · rintro ⟨name, hdenoted, -, hexact⟩
    have hname := hostName_of_denoted hdenoted
    obtain ⟨value, hvalue⟩ := exists_header hname
    have hmatch := hostMatches_iff.mp ((hexact value name hvalue).mpr (Or.inl rfl))
    rcases hmatch with heq | hsuffix
    · rw [hdenoted, heq]
    · exfalso
      obtain ⟨value', hvalue'⟩ := exists_header (hname.of_suffix hsuffix)
      have hbelow := (hexact value' blocked hvalue').mp (hostMatches_iff.mpr (Or.inl rfl))
      have hlonger := hsuffix.length_le
      rw [List.length_cons] at hlonger
      rcases hbelow with heq | hsuffix'
      · rw [heq] at hlonger
        omega
      · have hlonger' := hsuffix'.length_le
        rw [List.length_cons] at hlonger'
        omega
  · intro hdenoted
    have hname := hostName_of_denoted hdenoted
    obtain ⟨value, hvalue⟩ := exists_header hname
    refine ⟨blocked, hdenoted, ⟨value, blocked, hvalue, hostMatches_iff.mpr (Or.inl rfl)⟩, ?_⟩
    exact fun value host _ => hostMatches_iff

/-- The text before the first colon, after the scheme and without slashes at the end. -/
def hostPart (raw : List Char) : List Char :=
  upToPort (((afterScheme raw).map fun rest => rest.rdropWhile (· = '/')).getD raw)

/-- A line that is refused for its text. -/
def RefusedReferer (raw : List Char) : Prop :=
  '*' ∈ raw ∨ (afterScheme raw = none ∧ ∃ c ∈ raw, c ∈ ['/', '?', '#', '@']) ∨ hostPart raw = []

/-- A text that is a host: printable characters that divide no URL, not dots alone. -/
def NamesHost (host : List Char) : Prop := (∀ c ∈ host, hostChar c = true) ∧ plainName host ≠ []

/-- The text that is taken for the host is one. In a URL with user information it is the user
name, which must be the host too. -/
def PlainReferer (raw : List Char) : Prop :=
  match afterScheme raw with
  | none => NamesHost (hostPart raw)
  | some rest =>
    if '@' ∈ authorityOf rest then denotedHost raw = some (hostText (hostPart raw))
    else NamesHost (hostPart raw)

theorem refererRule_eq (raw : List Char) :
    (RefusedReferer raw → refererRule raw = none) ∧
      (¬RefusedReferer raw → refererRule raw = some (hostText (hostPart raw))) := by
  have hany : (raw.any fun c => decide (c ∈ ['/', '?', '#', '@'])) = true ↔
      ∃ c ∈ raw, c ∈ ['/', '?', '#', '@'] := by
    simp only [List.any_eq_true, decide_eq_true_eq]
  have hhost : ¬('*' ∈ raw ∨ (raw.any fun c => decide (c ∈ ['/', '?', '#', '@'])) = true ∧
      afterScheme raw = none) → refererHost raw = some (hostPart raw) := by
    intro hnot
    unfold refererHost hostPart
    rw [if_neg hnot]
    cases afterScheme raw <;> rfl
  constructor
  · intro hrefused
    unfold refererRule
    by_cases hshape : '*' ∈ raw ∨ (raw.any fun c => decide (c ∈ ['/', '?', '#', '@'])) = true ∧
        afterScheme raw = none
    · unfold refererHost
      rw [if_pos hshape]
      rfl
    · rw [hhost hshape]
      rcases hrefused with hstar | ⟨hscheme, hchar⟩ | hempty
      · exact absurd (Or.inl hstar) hshape
      · exact absurd (Or.inr ⟨hany.mpr hchar, hscheme⟩) hshape
      · rw [hempty]
        rfl
  · intro haccepted
    have hshape : ¬('*' ∈ raw ∨ (raw.any fun c => decide (c ∈ ['/', '?', '#', '@'])) = true ∧
        afterScheme raw = none) := by
      rintro (hstar | ⟨hchar, hscheme⟩)
      · exact haccepted (Or.inl hstar)
      · exact haccepted (Or.inr (Or.inl ⟨hscheme, hany.mp hchar⟩))
    have hne : hostPart raw ≠ [] := fun h => haccepted (Or.inr (Or.inr h))
    unfold refererRule
    rw [hhost hshape, Option.filter_some, if_pos (decide_eq_true hne)]
    rfl

theorem hostText_eq_plainName {host : List Char} (h : ∀ c ∈ host, hostChar c = true) :
    hostText host = plainName host := by
  have hsame : ∀ c ∈ host, (c = '[' || c = ']' || c = '.' : Bool) = decide (c = '.') := by
    intro c hc
    have hopen := ne_of_hostChar (h c hc) (d := '[') (by decide)
    have hclose := ne_of_hostChar (h c hc) (d := ']') (by decide)
    simp [hopen, hclose]
  unfold hostText plainName
  simp only
  rw [List.dropWhile_congr hsame]
  rw [List.rdropWhile_congr fun c hc => hsame c (List.dropWhile_subset _ hc)]

/-- A character that is not taken off the ends is in the rule. -/
theorem mem_hostText {c : Char} {host : List Char} (hc : c ∈ host)
    (hkeep : (c = '[' || c = ']' || c = '.' : Bool) = false) : c.toLower ∈ hostText host := by
  unfold hostText toAsciiLowercase
  exact List.mem_map_of_mem (List.mem_rdropWhile_of_neg (List.mem_dropWhile_of_neg hc hkeep) hkeep)

theorem namesHost_of_denoted {host name : List Char}
    (h : (if host.all hostChar ∧ plainName host ≠ [] then some (plainName host) else none) =
      some name) : NamesHost host := by
  split at h
  · next hcond => exact ⟨List.all_eq_true.mp hcond.1, hcond.2⟩
  · cases h

theorem denoted_of_namesHost {host : List Char} (h : NamesHost host) :
    (if host.all hostChar ∧ plainName host ≠ [] then some (plainName host) else none) =
      some (hostText host) := by
  rw [if_pos ⟨List.all_eq_true.mpr h.1, h.2⟩, hostText_eq_plainName h.1]

/-- The host part of a URL is its authority up to the port, and may be what follows it. -/
theorem upToPort_rest (rest : List Char) :
    ∃ extra, upToPort (rest.rdropWhile (· = '/')) = upToPort (authorityOf rest) ++ extra ∧
      ∀ c ∈ extra.head?, c ∈ ['/', '?', '#'] := by
  set authority := authorityOf rest with hauthority
  set after := rest.dropWhile fun c => decide (c ∉ ['/', '?', '#']) with hafter
  have hsplit : rest = authority ++ after := List.takeWhile_append_dropWhile.symm
  have hslash : ∀ c ∈ authority, decide (c = '/') = false := by
    intro c hc
    rw [hauthority] at hc
    unfold authorityOf at hc
    have hnot := List.mem_takeWhile_imp hc
    rw [decide_eq_true_eq] at hnot
    rw [decide_eq_false_iff_not]
    rintro rfl
    exact hnot List.mem_cons_self
  set tail := after.rdropWhile (· = '/') with htail
  have hdrop : rest.rdropWhile (· = '/') = authority ++ tail := by
    rw [hsplit, List.rdropWhile_append_of_neg hslash]
  have hfirst : ∀ c ∈ tail.head?, c ∈ ['/', '?', '#'] := by
    intro c hc
    have hhead : after.head? = some c := by
      obtain ⟨back, hback⟩ := List.rdropWhile_prefix (· = '/') after
      cases htl : tail with
      | nil => rw [htl] at hc; cases hc
      | cons d tl =>
        rw [htl] at hc
        rw [← hback, ← htail, htl]
        exact hc
    have hnot := List.head?_dropWhile_not (fun c => decide (c ∉ ['/', '?', '#'])) rest
    rw [← hafter, hhead] at hnot
    exact not_not.mp (of_decide_eq_false hnot)
  rw [hdrop]
  by_cases hport : ':' ∈ authority
  · -- the host ends at the port
    refine ⟨[], ?_, fun c hc => nomatch hc⟩
    have hshort : (authority.takeWhile (· ≠ ':')).length ≠ authority.length := by
      intro hlength
      have hself := (List.takeWhile_prefix (p := fun c => decide (c ≠ ':'))).eq_of_length hlength
      have hall := List.takeWhile_eq_self_iff.mp hself
      have hcolon := hall ':' hport
      simp at hcolon
    unfold upToPort
    rw [List.takeWhile_append, if_neg hshort, List.append_nil]
  · have hall : ∀ c ∈ authority, decide (c ≠ ':') = true := by
      intro c hc
      rw [decide_eq_true_eq]
      rintro rfl
      exact hport hc
    refine ⟨upToPort tail, ?_, fun c hc => ?_⟩
    · unfold upToPort
      rw [List.takeWhile_append_of_pos hall, List.takeWhile_eq_self_iff.mpr hall]
    · apply hfirst
      unfold upToPort at hc
      cases htl : tail with
      | nil => rw [htl] at hc; cases hc
      | cons d tl =>
        rw [htl, List.takeWhile_cons] at hc
        split at hc
        · exact hc
        · cases hc

/-- The rule is the host that the line denotes just when the text taken for the host is one. -/
theorem denoted_iff_plain (raw : List Char) :
    denotedHost raw = some (hostText (hostPart raw)) ↔ PlainReferer raw := by
  unfold PlainReferer
  cases hscheme : afterScheme raw with
  | none =>
    have hhost : hostPart raw = upToPort raw := by
      unfold hostPart
      rw [hscheme]
      rfl
    have hdenoted : denotedHost raw =
        if (upToPort raw).all hostChar ∧ plainName (upToPort raw) ≠ [] then
          some (plainName (upToPort raw)) else none := by
      unfold denotedHost
      rw [hscheme]
    rw [hhost, hdenoted]
    exact ⟨namesHost_of_denoted, denoted_of_namesHost⟩
  | some rest =>
    by_cases huser : '@' ∈ authorityOf rest
    · simp only [if_pos huser]
    · simp only [if_neg huser]
      obtain ⟨extra, hextra, hfirst⟩ := upToPort_rest rest
      have hpart : hostPart raw = upToPort (authorityOf rest) ++ extra := by
        unfold hostPart
        rw [hscheme]
        exact hextra
      have hwhole : (authorityOf rest).rtakeWhile (· ≠ '@') = authorityOf rest := by
        rw [List.rtakeWhile_eq_self_iff]
        intro c hc
        rw [decide_eq_true_eq]
        rintro rfl
        exact huser hc
      have hdenoted : denotedHost raw =
          if (upToPort (authorityOf rest)).all hostChar ∧
              plainName (upToPort (authorityOf rest)) ≠ [] then
            some (plainName (upToPort (authorityOf rest))) else none := by
        unfold denotedHost
        simp only [hscheme, hwhole]
      cases extra with
      | nil =>
        rw [List.append_nil] at hpart
        rw [hpart, hdenoted]
        exact ⟨namesHost_of_denoted, denoted_of_namesHost⟩
      | cons c extra =>
        -- the path or the query is kept with the host
        have hc : c ∈ ['/', '?', '#'] := hfirst c rfl
        have hmem : c ∈ hostPart raw := by
          rw [hpart]
          exact List.mem_append_right _ List.mem_cons_self
        have hdelimiter : hostChar c = false ∧ c.toLower = c ∧
            (c = '[' || c = ']' || c = '.' : Bool) = false := by
          simp only [List.mem_cons, List.not_mem_nil, or_false] at hc
          rcases hc with rfl | rfl | rfl <;> decide
        obtain ⟨hnot, hsame, hkeep⟩ := hdelimiter
        refine iff_of_false (fun h => ?_) (fun h => ?_)
        · have hname := hostName_of_denoted h
          have hchar := hname.chars _ (mem_hostText hmem hkeep)
          rw [hsame, hnot] at hchar
          cases hchar
        · have hchar := h.1 c hmem
          rw [hnot] at hchar
          cases hchar

/-! ### Snapshots -/

section snapshot

variable (parseIpNet : List Char → Option IpNet)

theorem mem_foldl_addHost (hosts referers : List (List Char)) (host : List Char) :
    host ∈ hosts.foldl addHost referers ↔ host ∈ referers ∨ host ∈ hosts := by
  induction hosts generalizing referers with
  | nil => simp
  | cons h hosts ih =>
    rw [List.foldl_cons, ih, List.mem_cons]
    unfold addHost
    split
    · next hmem =>
      constructor
      · exact Or.imp_right Or.inr
      · rintro (h' | rfl | h')
        · exact Or.inl h'
        · exact Or.inl hmem
        · exact Or.inr h'
    · rw [List.mem_append, List.mem_singleton, or_assoc]

variable (lists : WafLists)

theorem mem_warnings {w : WafWarning} :
    w ∈ (WafSnapshot.parse parseIpNet lists).warnings ↔
      w ∈ (parseIpRules parseIpNet "whitelist" lists.whitelist).2 ∨
      w ∈ (parseIpRules parseIpNet "blacklist" lists.blacklist).2 ∨
      w ∈ (parseReferers lists.referers).2 := by
  unfold WafSnapshot.parse
  simp only [List.mem_append, or_assoc]

/-- A line of an address list is warned of, or gives a rule that matches some address, and just
those that the line denotes. -/
def IpLineHolds (s : WafSnapshot) (rules : List IpRule) (list : String) (index : ℕ)
    (raw : List Char) : Prop :=
  ⟨list, some (index + 1), "invalid_ip_range"⟩ ∈ s.warnings ∨
    ∃ rule ∈ rules, ipRule parseIpNet raw = some rule ∧
      ∃ S, rule.Denotes S ∧ S.Nonempty ∧ ∀ a, rule.contains a = true ↔ a ∈ S

def RefererLineHolds (s : WafSnapshot) (index : ℕ) (raw : List Char) : Prop :=
  ⟨"referers", some (index + 1), "invalid_referer"⟩ ∈ s.warnings ∨
    ∃ blocked ∈ s.referers, refererRule raw = some blocked ∧ RefererHolds raw blocked

def LinesHold (s : WafSnapshot) : Prop :=
  (∀ index raw, Entry lists.whitelist index raw →
    IpLineHolds parseIpNet s s.whitelist "whitelist" index raw) ∧
  (∀ index raw, Entry lists.blacklist index raw →
    IpLineHolds parseIpNet s s.blacklist "blacklist" index raw) ∧
  ∀ index raw, Entry lists.referers index raw → RefererLineHolds s index raw

/-- A line that reads as a range has its ends in one family and in order. -/
def OrderedLine (raw : List Char) : Prop :=
  ∀ first last, ipRule parseIpNet raw = some (.range first last) → first.Ordered last

variable {parseIpNet lists}

theorem ipLine_holds_iff {s : WafSnapshot} {list : String} {text raw : List Char} {index : ℕ}
    (hentry : Entry text index raw)
    (hwarned : ⟨list, some (index + 1), "invalid_ip_range"⟩ ∈ s.warnings ↔
      ⟨list, some (index + 1), "invalid_ip_range"⟩ ∈ (parseIpRules parseIpNet list text).2) :
    IpLineHolds parseIpNet s (parseIpRules parseIpNet list text).1 list index raw ↔
      OrderedLine parseIpNet raw := by
  unfold IpLineHolds OrderedLine
  rw [hwarned]
  unfold parseIpRules
  rw [warned_iff hentry]
  cases hrule : ipRule parseIpNet raw with
  | none => exact iff_of_true (Or.inl rfl) fun first last h => nomatch h
  | some rule =>
    have hmem : rule ∈ (parseLines (ipRule parseIpNet) list "invalid_ip_range" text).1 :=
      mem_parseLines_rules.mpr ⟨index, raw, hentry, hrule⟩
    have hiff := takesEffect_iff rule
    constructor
    · rintro (hnone | ⟨rule', -, heq, hholds⟩) first last hrange
      · cases hnone
      · cases heq
        exact hiff.mp hholds first last (Option.some.inj hrange)
    · intro hordered
      refine Or.inr ⟨rule, hmem, rfl, hiff.mpr fun first last hrange => ?_⟩
      exact hordered first last (congrArg some hrange)

theorem refererLine_holds_iff {index : ℕ} {raw : List Char}
    (hentry : Entry lists.referers index raw) :
    RefererLineHolds (WafSnapshot.parse parseIpNet lists) index raw ↔
      RefusedReferer raw ∨ PlainReferer raw := by
  have hwarned : ⟨"referers", some (index + 1), "invalid_referer"⟩ ∈
      (WafSnapshot.parse parseIpNet lists).warnings ↔ refererRule raw = none := by
    have hline : ⟨"referers", some (index + 1), "invalid_referer"⟩ ∈
        (parseLines refererRule "referers" "invalid_referer" lists.referers).2 ↔
          refererRule raw = none := warned_iff hentry
    rw [mem_warnings, ← hline]
    constructor
    · rintro (h | h | h)
      · exact absurd (list_eq_of_warned h) (by decide)
      · exact absurd (list_eq_of_warned h) (by decide)
      · exact h
    · exact fun h => Or.inr (Or.inr h)
  unfold RefererLineHolds
  rw [hwarned]
  by_cases hrefused : RefusedReferer raw
  · exact iff_of_true (Or.inl ((refererRule_eq raw).1 hrefused)) (Or.inl hrefused)
  · have hrule := (refererRule_eq raw).2 hrefused
    have hmem : hostText (hostPart raw) ∈ (WafSnapshot.parse parseIpNet lists).referers := by
      apply (mem_foldl_addHost _ _ _).mpr
      exact Or.inr (mem_parseLines_rules.mpr ⟨index, raw, hentry, hrule⟩)
    rw [hrule, ← denoted_iff_plain, ← refererHolds_iff]
    constructor
    · rintro (hnone | ⟨blocked, -, heq, hholds⟩)
      · cases hnone
      · cases heq
        exact Or.inr hholds
    · rintro (h | hholds)
      · exact absurd h hrefused
      · exact Or.inr ⟨_, hmem, rfl, hholds⟩

/-- An address that a rule of the blacklist matches is blocked. -/
theorem blocks_of_blacklisted {s : WafSnapshot} {rule : IpRule} {peer : IpAddr}
    (hrule : rule ∈ s.blacklist) (hmatch : rule.contains peer = true) (headers : RequestHeaders) :
    s.blocks peer headers = true := by
  have hany : (s.blacklist.any fun rule => rule.contains peer) = true :=
    List.any_eq_true.mpr ⟨rule, hrule, hmatch⟩
  unfold WafSnapshot.blocks
  split
  · rfl
  · split
    · rfl
    · exact hany

/-- A request from a page of a host that a rule matches is blocked. -/
theorem blocks_of_referer {s : WafSnapshot} {blocked host : List Char} {value : Bytes}
    {headers : RequestHeaders} (hblocked : blocked ∈ s.referers)
    (hhost : (headerText value).bind headerHost = some host)
    (hmatch : hostMatches blocked host = true)
    (hvalue : headers.referer = some value ∨ headers.origin = some value) (peer : IpAddr) :
    s.blocks peer headers = true := by
  have hreferer : s.blocksReferer headers = true := by
    unfold WafSnapshot.blocksReferer
    rw [List.any_eq_true]
    refine ⟨some value, ?_, ?_⟩
    · rcases hvalue with h | h <;> simp [h]
    · rw [Option.bind_some, hhost]
      exact List.any_eq_true.mpr ⟨blocked, hblocked, hmatch⟩
  unfold WafSnapshot.blocks
  rw [if_pos hreferer]

end snapshot

end Rustorr.Waf
