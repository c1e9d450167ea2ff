import Mathlib.Order.Interval.Set.Basic
import Rustorr.Http.AccessRules

/-! The two forms of an IPv4 client's address, as a socket of either family reports it, and what the
access lists and the trusted proxies make of them. -/

namespace Rustorr.Waf

open Conditional (Bytes)

/-- The IPv4-mapped IPv6 address. -/
def IpAddr.mapped (a : BitVec 32) : IpAddr := .v6 (0xffff#96 ++ a)

/-! ### The public base -/

/-- The first value of each header that the base is made of. -/
structure ForwardHeaders where
  forwarded : Option Bytes
  xForwardedProto : Option Bytes
  xForwardedHost : Option Bytes
  host : Option Bytes

/-- The scheme of a request's target, which holds no colon. -/
structure Uri where
  scheme : Option (List Char)
  plain : ∀ s ∈ scheme, ':' ∉ s

/-- `first_header`. -/
def firstHeader (value : Option Bytes) : Option (List Char) :=
  ((value.bind headerText).map fun text => Utf8.trim (text.takeWhile (· ≠ ','))).filter (· ≠ [])

/-- `trim_matches('"')`. -/
def trimQuotes (s : List Char) : List Char := (s.dropWhile (· = '"')).rdropWhile (· = '"')

/-- A field of the first element of `Forwarded`. -/
def forwardedField (found : Option (List Char) × Option (List Char)) (field : List Char) :
    Option (Option (List Char) × Option (List Char)) := do
  let (name, value) ← Text.splitOnce '=' (Utf8.trim field)
  let value := trimQuotes value
  let name := toAsciiLowercase name
  if name = "proto".toList then return (some (toAsciiLowercase value), found.2)
  else if name = "host".toList then return (found.1, some value)
  else return found

def parseForwarded (value : List Char) : Option (Option (List Char) × Option (List Char)) :=
  ((value.takeWhile (· ≠ ',')).splitOn ';').foldlM forwardedField (none, none)

section base

variable (trustedProxies : List IpNet) (peer : IpAddr) (headers : ForwardHeaders) (uri : Uri)

def trusts : Bool := trustedProxies.any fun network => network.contains peer

/-- What a trusted proxy says in `Forwarded`. -/
def forwarded (trusted : Bool) : Option (Option (List Char) × Option (List Char)) :=
  if trusted then (headers.forwarded.bind headerText).bind parseForwarded else none

def publicScheme : List Char :=
  let trusted := trusts trustedProxies peer
  ((((forwarded headers trusted).bind Prod.fst).or
    (if trusted then firstHeader headers.xForwardedProto else none)).filter
      fun scheme => scheme = "http".toList ∨ scheme = "https".toList).getD
    (uri.scheme.getD "http".toList)

def publicBase : List Char :=
  let trusted := trusts trustedProxies peer
  let host := (((forwarded headers trusted).bind Prod.snd).or
    (if trusted then firstHeader headers.xForwardedHost else none)).or
      (headers.host.bind headerText)
  publicScheme trustedProxies peer headers uri ++ "://".toList ++
    host.getD "127.0.0.1:8090".toList

end base

/-! ### The rules of each family -/

/-- The numbers of the IPv4 addresses that a rule holds. A range from an IPv4 address to an IPv6
address holds all that follow. -/
def IpRule.span4 : IpRule → Set ℕ
  | address (.v4 a) => {a.toNat}
  | network net => {n | net.address.width = 32 ∧ n / net.size = net.address.number / net.size}
  | range (.v4 first) (.v4 last) => Set.Icc first.toNat last.toNat
  | range (.v4 first) (.v6 _) => Set.Ici first.toNat
  | _ => ∅

/-- The numbers of the IPv6 addresses that a rule holds. -/
def IpRule.span6 : IpRule → Set ℕ
  | address (.v6 a) => {a.toNat}
  | network net => {n | net.address.width = 128 ∧ n / net.size = net.address.number / net.size}
  | range (.v6 first) (.v6 last) => Set.Icc first.toNat last.toNat
  | range (.v4 _) (.v6 last) => Set.Iic last.toNat
  | _ => ∅

theorem contains_v4_iff (rule : IpRule) (a : BitVec 32) :
    rule.contains (.v4 a) = true ↔ a.toNat ∈ rule.span4 := by
  cases rule with
  | address expected =>
    cases expected with
    | v4 b =>
      show decide (IpAddr.v4 b = .v4 a) = true ↔ a.toNat = b.toNat
      rw [decide_eq_true_eq, IpAddr.v4.injEq, ← BitVec.toNat_inj]
      exact eq_comm
    | v6 b =>
      have hne : IpAddr.v6 b ≠ .v4 a := fun h => nomatch h
      exact iff_of_false (fun h => hne (of_decide_eq_true h)) fun h => h
  | network net =>
    refine (net.contains_iff (.v4 a)).trans (and_congr eq_comm Iff.rfl)
  | range first last =>
    cases first <;> cases last <;>
      simp [IpRule.contains, IpRule.span4, ipNumber, Prod.Lex.le_iff]

theorem contains_v6_iff (rule : IpRule) (a : BitVec 128) :
    rule.contains (.v6 a) = true ↔ a.toNat ∈ rule.span6 := by
  cases rule with
  | address expected =>
    cases expected with
    | v4 b =>
      have hne : IpAddr.v4 b ≠ .v6 a := fun h => nomatch h
      exact iff_of_false (fun h => hne (of_decide_eq_true h)) fun h => h
    | v6 b =>
      show decide (IpAddr.v6 b = .v6 a) = true ↔ a.toNat = b.toNat
      rw [decide_eq_true_eq, IpAddr.v6.injEq, ← BitVec.toNat_inj]
      exact eq_comm
  | network net =>
    refine (net.contains_iff (.v6 a)).trans (and_congr eq_comm Iff.rfl)
  | range first last =>
    cases first <;> cases last <;>
      simp [IpRule.contains, IpRule.span6, ipNumber, Prod.Lex.le_iff]

/-- The number of the mapped form. -/
def mappedNumber (a : BitVec 32) : ℕ := 0xffff * 2 ^ 32 + a.toNat

theorem toNat_mapped (a : BitVec 32) : (0xffff#96 ++ a).toNat = mappedNumber a := by
  rw [BitVec.toNat_append, Nat.shiftLeft_eq, Nat.mul_comm, ← Nat.two_pow_add_eq_or_of_lt a.isLt,
    Nat.mul_comm]
  rfl

/-- A rule of the list holds the address in its IPv4 form. -/
def Holds4 (rules : List IpRule) (a : BitVec 32) : Prop := ∃ rule ∈ rules, a.toNat ∈ rule.span4

/-- A rule of the list holds the address in its mapped form. -/
def Holds6 (rules : List IpRule) (a : BitVec 32) : Prop := ∃ rule ∈ rules, mappedNumber a ∈ rule.span6

theorem any_contains_v4_iff (rules : List IpRule) (a : BitVec 32) :
    (rules.any fun rule => rule.contains (.v4 a)) = true ↔ Holds4 rules a := by
  rw [List.any_eq_true]
  exact exists_congr fun rule => and_congr Iff.rfl (contains_v4_iff rule a)

theorem any_contains_mapped_iff (rules : List IpRule) (a : BitVec 32) :
    (rules.any fun rule => rule.contains (.mapped a)) = true ↔ Holds6 rules a := by
  rw [List.any_eq_true]
  refine exists_congr fun rule => and_congr Iff.rfl ?_
  rw [← toNat_mapped]
  exact contains_v6_iff rule _

/-! ### The verdict -/

/-- The lists let the address in by what they hold of it. -/
def Admits (s : WafSnapshot) (holds : List IpRule → Prop) : Prop :=
  (s.whitelist = [] ∨ holds s.whitelist) ∧ ¬holds s.blacklist

theorem blocks_eq_false_iff (s : WafSnapshot) {peer : IpAddr} (headers : RequestHeaders)
    {holds : List IpRule → Prop}
    (hholds : ∀ rules, (rules.any fun rule => rule.contains peer) = true ↔ holds rules) :
    s.blocks peer headers = false ↔ s.blocksReferer headers = false ∧ Admits s holds := by
  unfold WafSnapshot.blocks Admits
  rw [← hholds, ← hholds]
  cases s.blocksReferer headers with
  | true => exact iff_of_false (fun h => nomatch h) fun h => nomatch h.1
  | false =>
    rw [if_neg Bool.false_ne_true]
    cases (s.whitelist.any fun rule => rule.contains peer) with
    | true =>
      rw [if_neg fun h => nomatch h.2]
      simp
    | false => by_cases hempty : s.whitelist = [] <;> simp [hempty]

/-- Both forms of the address are let in, or neither, by what each holds of them, if no referer is
refused. -/
def AdmittedAlike (s : WafSnapshot) (headers : RequestHeaders) (a : BitVec 32) : Prop :=
  s.blocksReferer headers = true ∨
    (Admits s (fun rules => Holds4 rules a) ↔ Admits s fun rules => Holds6 rules a)

theorem blocks_alike_iff (s : WafSnapshot) (headers : RequestHeaders) (a : BitVec 32) :
    s.blocks (.v4 a) headers = s.blocks (.mapped a) headers ↔ AdmittedAlike s headers a := by
  have h4 := blocks_eq_false_iff s headers fun rules => any_contains_v4_iff rules a
  have h6 := blocks_eq_false_iff s headers fun rules => any_contains_mapped_iff rules a
  unfold AdmittedAlike
  cases hreferer : s.blocksReferer headers with
  | true =>
    refine iff_of_true ?_ (Or.inl rfl)
    unfold WafSnapshot.blocks
    rw [hreferer]
    rfl
  | false =>
    rw [hreferer] at h4 h6
    have hfalse : s.blocks (.v4 a) headers = s.blocks (.mapped a) headers ↔
        (s.blocks (.v4 a) headers = false ↔ s.blocks (.mapped a) headers = false) := by
      cases s.blocks (.v4 a) headers <;> cases s.blocks (.mapped a) headers <;> simp
    rw [hfalse, h4, h6]
    simp

/-! ### The base -/

/-- What the headers that are only taken of a trusted proxy say of the scheme. -/
def forwardedScheme (headers : ForwardHeaders) : Option (List Char) :=
  (((forwarded headers true).bind Prod.fst).or (firstHeader headers.xForwardedProto)).filter
    fun scheme => scheme = "http".toList ∨ scheme = "https".toList

def forwardedHost (headers : ForwardHeaders) : Option (List Char) :=
  ((forwarded headers true).bind Prod.snd).or (firstHeader headers.xForwardedHost)

def ownScheme (uri : Uri) : List Char := uri.scheme.getD "http".toList

def ownHost (headers : ForwardHeaders) : List Char :=
  (headers.host.bind headerText).getD "127.0.0.1:8090".toList

/-- A proxy says nothing that the request does not say itself. -/
def Redundant (headers : ForwardHeaders) (uri : Uri) : Prop :=
  (∀ scheme, forwardedScheme headers = some scheme → scheme = ownScheme uri) ∧
    ∀ host, forwardedHost headers = some host → host = ownHost headers

theorem publicBase_of_trusted {proxies : List IpNet} {peer : IpAddr} (headers : ForwardHeaders)
    (uri : Uri) (h : trusts proxies peer = true) :
    publicBase proxies peer headers uri = (forwardedScheme headers).getD (ownScheme uri) ++
      "://".toList ++ (forwardedHost headers).getD (ownHost headers) := by
  unfold publicBase publicScheme
  rw [h]
  dsimp only
  rw [Option.getD_or]
  rfl

theorem publicBase_of_not_trusted {proxies : List IpNet} {peer : IpAddr}
    (headers : ForwardHeaders) (uri : Uri) (h : trusts proxies peer = false) :
    publicBase proxies peer headers uri = ownScheme uri ++ "://".toList ++ ownHost headers := by
  unfold publicBase publicScheme
  rw [h]
  rfl

theorem colon_notMem_ownScheme (uri : Uri) : ':' ∉ ownScheme uri := by
  unfold ownScheme
  cases hscheme : uri.scheme with
  | none => decide
  | some scheme => exact uri.plain scheme hscheme

theorem colon_notMem_forwardedScheme {headers : ForwardHeaders} {scheme : List Char}
    (h : forwardedScheme headers = some scheme) : ':' ∉ scheme := by
  unfold forwardedScheme at h
  rw [Option.filter_eq_some_iff] at h
  obtain rfl | rfl := of_decide_eq_true h.2
  · decide
  · decide

/-- The first colon ends the scheme. -/
theorem base_inj {s s' host host' : List Char} (hs : ':' ∉ s) (hs' : ':' ∉ s')
    (h : s ++ "://".toList ++ host = s' ++ "://".toList ++ host') : s = s' ∧ host = host' := by
  have htake : ∀ (s host : List Char), ':' ∉ s →
      (s ++ "://".toList ++ host).takeWhile (· ≠ ':') = s := by
    intro s host hs
    rw [List.append_assoc, List.takeWhile_append_of_pos fun c hc =>
      decide_eq_true (ne_of_mem_of_not_mem hc hs)]
    exact List.append_nil s
  have hscheme : s = s' := by rw [← htake s host hs, h, htake s' host' hs']
  subst hscheme
  exact ⟨rfl, List.append_cancel_left h⟩

theorem base_of_forwarded_iff (headers : ForwardHeaders) (uri : Uri) :
    (forwardedScheme headers).getD (ownScheme uri) ++ "://".toList ++
        (forwardedHost headers).getD (ownHost headers) =
      ownScheme uri ++ "://".toList ++ ownHost headers ↔ Redundant headers uri := by
  have hgetD : ∀ {said : Option (List Char)} {own : List Char},
      said.getD own = own ↔ ∀ s, said = some s → s = own := by
    intro said own
    cases said with
    | none => exact iff_of_true rfl fun s h => nomatch h
    | some s => exact ⟨fun h s' hs' => (Option.some.inj hs') ▸ h, fun h => h s rfl⟩
  have hcolon : ':' ∉ (forwardedScheme headers).getD (ownScheme uri) := by
    cases hscheme : forwardedScheme headers with
    | none => exact colon_notMem_ownScheme uri
    | some scheme => exact colon_notMem_forwardedScheme hscheme
  unfold Redundant
  rw [← hgetD, ← hgetD]
  constructor
  · exact base_inj hcolon (colon_notMem_ownScheme uri)
  · rintro ⟨hscheme, hhost⟩
    rw [hscheme, hhost]

/-- Both forms are trusted, or neither, or it makes no difference. -/
def TrustedAlike (proxies : List IpNet) (headers : ForwardHeaders) (uri : Uri) (a : BitVec 32) :
    Prop :=
  (Holds4 (proxies.map IpRule.network) a ↔ Holds6 (proxies.map IpRule.network) a) ∨
    Redundant headers uri

theorem trusts_eq (proxies : List IpNet) (peer : IpAddr) :
    trusts proxies peer = (proxies.map IpRule.network).any fun rule => rule.contains peer := by
  rw [List.any_map]
  rfl

theorem base_alike_iff (proxies : List IpNet) (headers : ForwardHeaders) (uri : Uri)
    (a : BitVec 32) :
    publicBase proxies (.v4 a) headers uri = publicBase proxies (.mapped a) headers uri ↔
      TrustedAlike proxies headers uri a := by
  unfold TrustedAlike
  rw [← any_contains_v4_iff, ← any_contains_mapped_iff, ← trusts_eq, ← trusts_eq]
  cases h4 : trusts proxies (.v4 a) <;> cases h6 : trusts proxies (.mapped a)
  · rw [publicBase_of_not_trusted headers uri h4, publicBase_of_not_trusted headers uri h6]
    exact iff_of_true rfl (Or.inl Iff.rfl)
  · rw [publicBase_of_not_trusted headers uri h4, publicBase_of_trusted headers uri h6, eq_comm,
      base_of_forwarded_iff]
    simp
  · rw [publicBase_of_trusted headers uri h4, publicBase_of_not_trusted headers uri h6,
      base_of_forwarded_iff]
    simp
  · rw [publicBase_of_trusted headers uri h4, publicBase_of_trusted headers uri h6]
    exact iff_of_true rfl (Or.inl Iff.rfl)

/-- The access lists and the proxies treat the two forms of a client's address alike exactly if they
hold the two alike, where it matters. -/
theorem same_client_same_decision_iff (parseIpNet : List Char → Option IpNet) (lists : WafLists)
    (proxies : List IpNet) (requestHeaders : RequestHeaders) (headers : ForwardHeaders) (uri : Uri)
    (a : BitVec 32) :
    let s := WafSnapshot.parse parseIpNet lists
    s.blocks (.v4 a) requestHeaders = s.blocks (.mapped a) requestHeaders ∧
        publicBase proxies (.v4 a) headers uri = publicBase proxies (.mapped a) headers uri ↔
      AdmittedAlike s requestHeaders a ∧ TrustedAlike proxies headers uri a :=
  and_congr (blocks_alike_iff _ requestHeaders a) (base_alike_iff proxies headers uri a)

/-- A client at 10.0.0.1 is banned where the list is read against its own address, and let in where
its address comes mapped. -/
theorem mapped_client_is_not_banned :
    let s := WafSnapshot.parse (fun _ => none) ⟨[], "10.0.0.1".toList, []⟩
    let client : BitVec 32 := 0x0a000001
    s.blocks (.v4 client) ⟨none, none⟩ = true ∧ s.blocks (.mapped client) ⟨none, none⟩ = false := by
  decide +kernel

end Rustorr.Waf
