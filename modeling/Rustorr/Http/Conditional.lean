import Rustorr.Http.EntityTags

/-! Conditional requests (`serve_content.rs`), against the order in which RFC 9110 has the
conditions decide. -/

namespace Rustorr.Conditional

inductive Method
  | get
  | head
  | other
  deriving DecidableEq

def Method.isGetOrHead : Method → Bool
  | .get | .head => true
  | .other => false

inductive HeaderName
  | ifMatch
  | ifUnmodifiedSince
  | ifNoneMatch
  | ifModifiedSince
  | ifRange
  | range
  deriving DecidableEq

/-- The values of each field, in order. -/
def HeaderMap := HeaderName → List Bytes

/-- `headers.get`: of several fields with one name, the first. -/
def HeaderMap.get (headers : HeaderMap) (name : HeaderName) : Option Bytes := (headers name).head?

/-- What of `Content` decides. -/
structure Content where
  modified : Option ℕ
  etag : Option Bytes

/-- Reads a date, in seconds since 1970. An empty text is no date. -/
structure DateReader where
  read : Bytes → Option ℕ
  read_nil : read [] = none

inductive Outcome
  | preconditionFailed
  | notModified
  | proceed (range : Option Bytes)
  deriving DecidableEq

/-! ### The code -/

def isVisibleAscii (b : UInt8) : Bool := (0x20 ≤ b && b < 0x7f) || b = 0x09

/-- A value that `to_str` does not take counts as no value. -/
def headerText (headers : HeaderMap) (name : HeaderName) : Bytes :=
  match headers.get name with
  | some value => if value.all isVisibleAscii then value else []
  | none => []

def httpDate (dates : DateReader) (headers : HeaderMap) (name : HeaderName) : Option ℕ :=
  dates.read (headerText headers name)

/-- `if_match.is_empty()` leaves no condition. -/
def listCondition (text : Bytes) (star : Condition) (isMatch : Bytes → Bool) : Condition :=
  if text = [] then .none else tagList text star isMatch

def unmodifiedSince (modified since : Option ℕ) : Condition :=
  match modified, since with
  | some modified, some since => if modified ≤ since then .true else .false
  | _, _ => .none

/-- Whether the content is not newer than the date. -/
def notNewer (modified since : Option ℕ) : Bool :=
  match modified, since with
  | some modified, some since => modified ≤ since
  | _, _ => false

def isFresh (dates : DateReader) (headers : HeaderMap) (content : Content) : Bool :=
  match scanEtag (headerText headers .ifRange) with
  | some (tag, _) => strongMatch tag content.etag
  | none => content.modified.isSome && httpDate dates headers .ifRange = content.modified

/-- What remains of `Range`. -/
def proceed (dates : DateReader) (method : Method) (headers : HeaderMap) (content : Content) :
    Outcome :=
  let range := headerText headers .range
  if range = [] then .proceed none
  else if method.isGetOrHead && headerText headers .ifRange ≠ [] &&
      !isFresh dates headers content then .proceed none
  else .proceed (some range)

def preconditions (dates : DateReader) (method : Method) (headers : HeaderMap)
    (content : Content) : Outcome :=
  let check := match listCondition (headerText headers .ifMatch) .true
      fun tag => strongMatch tag content.etag with
    | .none => unmodifiedSince content.modified (httpDate dates headers .ifUnmodifiedSince)
    | check => check
  if check = .false then .preconditionFailed
  else
    match listCondition (headerText headers .ifNoneMatch) .false
        fun tag => weakMatch tag content.etag with
    | .false => if method.isGetOrHead then .notModified else .preconditionFailed
    | .none =>
      if method.isGetOrHead &&
          notNewer content.modified (httpDate dates headers .ifModifiedSince) then .notModified
      else proceed dates method headers content
    | .true => proceed dates method headers content

/-! ### The order of RFC 9110 -/

/-- What the conditions are about. -/
structure Representation where
  modified : Option ℕ
  tag : Option EntityTag

def Representation.content (r : Representation) : Content := ⟨r.modified, r.tag.map EntityTag.bytes⟩

section decision

-- the fields, as texts and as dates; a field without text is absent
variable (text : HeaderName → Bytes) (date : HeaderName → Option ℕ) (method : Method)
  (r : Representation)

def StrongTag (t : EntityTag) : Prop := ∃ u, r.tag = some u ∧ t.strongEq u

def WeakTag (t : EntityTag) : Prop := ∃ u, r.tag = some u ∧ t.weakEq u

def MatchFails : Prop := text .ifMatch ≠ [] ∧ ¬Listed (text .ifMatch) (StrongTag r)

/-- The content is newer than the date. -/
def UnmodifiedSinceFails : Prop :=
  ∃ modified since, r.modified = some modified ∧ date .ifUnmodifiedSince = some since ∧
    since < modified

def Fails : Prop := MatchFails text r ∨ (text .ifMatch = [] ∧ UnmodifiedSinceFails date r)

def NoneMatchFails : Prop := text .ifNoneMatch ≠ [] ∧ Listed (text .ifNoneMatch) (WeakTag r)

def ModifiedSinceFails : Prop :=
  ∃ modified since, r.modified = some modified ∧ date .ifModifiedSince = some since ∧
    modified ≤ since

/-- The answer is 412. -/
def Refused : Prop :=
  Fails text date r ∨ (method.isGetOrHead = false ∧ NoneMatchFails text r)

/-- The answer is 304. -/
def Unmodified : Prop :=
  method.isGetOrHead = true ∧
    (NoneMatchFails text r ∨ (text .ifNoneMatch = [] ∧ ModifiedSinceFails date r))

/-- A tag, where the value begins with one, or else a date. -/
def Fresh : Prop :=
  (∃ t rest, trim (text .ifRange) = t.bytes ++ rest ∧ StrongTag r t) ∨
    ((∀ (t : EntityTag) rest, trim (text .ifRange) ≠ t.bytes ++ rest) ∧
      r.modified ≠ none ∧ date .ifRange = r.modified)

def RangeStale : Prop :=
  method.isGetOrHead = true ∧ text .ifRange ≠ [] ∧ ¬Fresh text date r

open Classical in
noncomputable def decision : Outcome :=
  if Fails text date r then .preconditionFailed
  else if NoneMatchFails text r then
    if method.isGetOrHead then .notModified else .preconditionFailed
  else if method.isGetOrHead = true ∧ text .ifNoneMatch = [] ∧ ModifiedSinceFails date r then
    .notModified
  else if text .range = [] ∨ RangeStale text date method r then .proceed none
  else .proceed (some (text .range))

end decision

section code

variable {r : Representation}

theorem EntityTag.bytes_inj {t u : EntityTag} : t.bytes = u.bytes ↔ t = u := by
  constructor
  · intro h
    have happ : t.bytes ++ [] = u.bytes ++ [] := by rw [h]
    exact (EntityTag.eq_of_append happ).1
  · exact congrArg _

theorem EntityTag.head_bytes_eq (t : EntityTag) : t.bytes.head? = some quote ↔ t.weak = false := by
  obtain ⟨weak, value, hall⟩ := t
  cases weak with
  | true => exact iff_of_false (fun h => nomatch h) (fun h => nomatch h)
  | false => exact ⟨fun _ => rfl, fun _ => rfl⟩

theorem strongMatch_iff (t : EntityTag) :
    strongMatch t.bytes r.content.etag = true ↔ StrongTag r t := by
  unfold Representation.content strongMatch StrongTag EntityTag.strongEq
  cases r.tag with
  | none => exact iff_of_false (fun h => nomatch h) fun ⟨u, hu, _⟩ => nomatch hu
  | some u =>
    dsimp only [Option.map_some]
    rw [Bool.and_eq_true, decide_eq_true_eq, decide_eq_true_eq, EntityTag.bytes_inj,
      EntityTag.head_bytes_eq]
    constructor
    · rintro ⟨rfl, hweak⟩
      exact ⟨t, rfl, hweak, hweak, rfl⟩
    · rintro ⟨u', hu, hweak, hweak', hvalue⟩
      cases hu
      obtain ⟨weak, value, hall⟩ := t
      obtain ⟨weak', value', hall'⟩ := u
      cases hweak
      cases hweak'
      cases hvalue
      exact ⟨rfl, rfl⟩

theorem trimWeak_bytes (t : EntityTag) : trimWeak t.bytes = quote :: (t.value ++ [quote]) := by
  obtain ⟨weak, value, hall⟩ := t
  cases weak <;> rfl

theorem weakMatch_iff (t : EntityTag) :
    weakMatch t.bytes r.content.etag = true ↔ WeakTag r t := by
  unfold Representation.content weakMatch WeakTag EntityTag.weakEq
  rw [decide_eq_true_eq, trimWeak_bytes]
  cases r.tag with
  | none => exact iff_of_false (fun h => nomatch h) fun ⟨u, hu, _⟩ => nomatch hu
  | some u =>
    rw [Option.map_some, Option.getD_some, trimWeak_bytes]
    constructor
    · intro h
      exact ⟨u, rfl, List.append_cancel_right (List.cons.inj h).2⟩
    · rintro ⟨u', hu, hvalue⟩
      cases hu
      rw [hvalue]

theorem ifMatch_condition (text : Bytes) :
    listCondition text .true (fun tag => strongMatch tag r.content.etag) =
      open Classical in if text = [] then .none
        else if Listed text (StrongTag r) then .true else .false := by
  unfold listCondition
  by_cases hempty : text = []
  · rw [if_pos hempty, if_pos hempty]
  · rw [if_neg hempty, if_neg hempty]
    have hlist := tagList_eq .true rfl (fun tag => strongMatch tag r.content.etag)
      strongMatch_iff text
    by_cases hlisted : Listed text (StrongTag r)
    · rw [if_pos hlisted, hlist.1 hlisted]
      rfl
    · rw [if_neg hlisted, hlist.2 hlisted]
      rfl

theorem ifNoneMatch_condition (text : Bytes) :
    listCondition text .false (fun tag => weakMatch tag r.content.etag) =
      open Classical in if text = [] then .none
        else if Listed text (WeakTag r) then .false else .true := by
  unfold listCondition
  by_cases hempty : text = []
  · rw [if_pos hempty, if_pos hempty]
  · rw [if_neg hempty, if_neg hempty]
    have hlist := tagList_eq .false rfl (fun tag => weakMatch tag r.content.etag)
      weakMatch_iff text
    by_cases hlisted : Listed text (WeakTag r)
    · rw [if_pos hlisted, hlist.1 hlisted]
      rfl
    · rw [if_neg hlisted, hlist.2 hlisted]
      rfl

variable {dates : DateReader} {method : Method} {headers : HeaderMap}

theorem unmodifiedSince_eq_false :
    unmodifiedSince r.modified (httpDate dates headers .ifUnmodifiedSince) = .false ↔
      UnmodifiedSinceFails (httpDate dates headers) r := by
  unfold unmodifiedSince UnmodifiedSinceFails
  cases r.modified with
  | none => exact iff_of_false (fun h => nomatch h) fun ⟨_, _, h, _⟩ => nomatch h
  | some modified =>
    cases httpDate dates headers .ifUnmodifiedSince with
    | none => exact iff_of_false (fun h => nomatch h) fun ⟨_, _, _, h, _⟩ => nomatch h
    | some since =>
      dsimp only
      constructor
      · intro h
        refine ⟨modified, since, rfl, rfl, ?_⟩
        by_contra hle
        rw [if_pos (Nat.not_lt.mp hle)] at h
        cases h
      · rintro ⟨_, _, hm, hs, hlt⟩
        cases hm
        cases hs
        exact if_neg (Nat.not_le.mpr hlt)

theorem notNewer_iff :
    notNewer r.modified (httpDate dates headers .ifModifiedSince) = true ↔
      ModifiedSinceFails (httpDate dates headers) r := by
  unfold notNewer ModifiedSinceFails
  cases r.modified with
  | none => exact iff_of_false (fun h => nomatch h) fun ⟨_, _, h, _⟩ => nomatch h
  | some modified =>
    cases httpDate dates headers .ifModifiedSince with
    | none => exact iff_of_false (fun h => nomatch h) fun ⟨_, _, _, h, _⟩ => nomatch h
    | some since =>
      dsimp only
      rw [decide_eq_true_eq]
      constructor
      · exact fun h => ⟨modified, since, rfl, rfl, h⟩
      · rintro ⟨_, _, hm, hs, hle⟩
        cases hm
        cases hs
        exact hle

theorem isFresh_iff :
    isFresh dates headers r.content = true ↔
      Fresh (headerText headers) (httpDate dates headers) r := by
  unfold isFresh Fresh
  cases hscan : scanEtag (headerText headers .ifRange) with
  | none =>
    have hnone : ∀ (t : EntityTag) rest, trim (headerText headers .ifRange) ≠ t.bytes ++ rest := by
      intro t rest h
      rw [scanEtag_eq_some.mpr ⟨t, rfl, h⟩] at hscan
      cases hscan
    dsimp only
    rw [Bool.and_eq_true, decide_eq_true_eq, Option.isSome_iff_ne_none]
    constructor
    · exact fun h => Or.inr ⟨hnone, h⟩
    · rintro (⟨t, rest, h, -⟩ | ⟨-, h⟩)
      · exact absurd h (hnone t rest)
      · exact h
  | some p =>
    obtain ⟨tag, rest⟩ := p
    obtain ⟨t, rfl, htext⟩ := scanEtag_eq_some.mp hscan
    dsimp only
    rw [strongMatch_iff]
    constructor
    · exact fun h => Or.inl ⟨t, rest, htext, h⟩
    · rintro (⟨u, rest', h, hstrong⟩ | ⟨h, -⟩)
      · rw [(EntityTag.eq_of_append (htext.symm.trans h)).1]
        exact hstrong
      · exact absurd htext (h t rest)

theorem proceed_eq :
    proceed dates method headers r.content =
      open Classical in
      if headerText headers .range = [] ∨
          RangeStale (headerText headers) (httpDate dates headers) method r then .proceed none
      else .proceed (some (headerText headers .range)) := by
  unfold proceed RangeStale
  dsimp only
  by_cases hrange : headerText headers .range = []
  · rw [if_pos hrange, if_pos (Or.inl hrange)]
  · have hstale : (method.isGetOrHead && headerText headers .ifRange ≠ [] &&
        !isFresh dates headers r.content) = true ↔ method.isGetOrHead = true ∧
          headerText headers .ifRange ≠ [] ∧
          ¬Fresh (headerText headers) (httpDate dates headers) r := by
      rw [← isFresh_iff, Bool.and_eq_true, Bool.and_eq_true, decide_eq_true_eq,
        Bool.not_eq_true', Bool.not_eq_true, and_assoc]
    rw [if_neg hrange]
    by_cases h : (method.isGetOrHead && headerText headers .ifRange ≠ [] &&
        !isFresh dates headers r.content) = true
    · rw [if_pos h, if_pos (Or.inr (hstale.mp h))]
    · rw [if_neg h, if_neg (not_or.mpr ⟨hrange, fun h' => h (hstale.mpr h')⟩)]

/-- On what `to_str` takes, the code decides in the order of RFC 9110. -/
theorem preconditions_eq :
    preconditions dates method headers r.content =
      decision (headerText headers) (httpDate dates headers) method r := by
  have hmatch : (match listCondition (headerText headers .ifMatch) .true
      fun tag => strongMatch tag r.content.etag with
      | .none => unmodifiedSince r.content.modified (httpDate dates headers .ifUnmodifiedSince)
      | check => check) = .false ↔ Fails (headerText headers) (httpDate dates headers) r := by
    rw [ifMatch_condition]
    unfold Fails MatchFails
    by_cases hempty : headerText headers .ifMatch = []
    · rw [if_pos hempty]
      refine unmodifiedSince_eq_false.trans ?_
      exact ⟨fun h => Or.inr ⟨hempty, h⟩, fun h => h.elim (fun h => absurd hempty h.1) And.right⟩
    · rw [if_neg hempty]
      by_cases hlisted : Listed (headerText headers .ifMatch) (StrongTag r)
      · rw [if_pos hlisted]
        exact iff_of_false (fun h => nomatch h) (not_or.mpr ⟨fun h => h.2 hlisted, fun h => hempty h.1⟩)
      · rw [if_neg hlisted]
        exact iff_of_true rfl (Or.inl ⟨hempty, hlisted⟩)
  unfold preconditions decision
  dsimp only
  by_cases hfails : Fails (headerText headers) (httpDate dates headers) r
  · rw [if_pos hfails, if_pos (hmatch.mpr hfails)]
  · rw [if_neg hfails, if_neg fun h => hfails (hmatch.mp h), ifNoneMatch_condition]
    by_cases hempty : headerText headers .ifNoneMatch = []
    · have hnone : ¬NoneMatchFails (headerText headers) r := fun h => h.1 hempty
      rw [if_pos hempty, if_neg hnone]
      by_cases hsince : method.isGetOrHead = true ∧
          ModifiedSinceFails (httpDate dates headers) r
      · have hcode : (method.isGetOrHead && notNewer r.content.modified
            (httpDate dates headers .ifModifiedSince)) = true := by
          rw [Bool.and_eq_true]
          exact ⟨hsince.1, notNewer_iff.mpr hsince.2⟩
        have hspec : method.isGetOrHead = true ∧ headerText headers .ifNoneMatch = [] ∧
            ModifiedSinceFails (httpDate dates headers) r := ⟨hsince.1, hempty, hsince.2⟩
        rw [if_pos hspec]
        exact if_pos hcode
      · have hcode : ¬(method.isGetOrHead && notNewer r.content.modified
            (httpDate dates headers .ifModifiedSince)) = true := by
          rw [Bool.and_eq_true]
          exact fun h => hsince ⟨h.1, notNewer_iff.mp h.2⟩
        have hspec : ¬(method.isGetOrHead = true ∧ headerText headers .ifNoneMatch = [] ∧
            ModifiedSinceFails (httpDate dates headers) r) := fun h => hsince ⟨h.1, h.2.2⟩
        rw [if_neg hspec]
        exact (if_neg hcode).trans proceed_eq
    · have hspec : ¬(method.isGetOrHead = true ∧ headerText headers .ifNoneMatch = [] ∧
          ModifiedSinceFails (httpDate dates headers) r) := fun h => hempty h.2.1
      rw [if_neg hempty, if_neg hspec]
      by_cases hlisted : Listed (headerText headers .ifNoneMatch) (WeakTag r)
      · have hnone : NoneMatchFails (headerText headers) r := ⟨hempty, hlisted⟩
        rw [if_pos hlisted, if_pos hnone]
      · have hnone : ¬NoneMatchFails (headerText headers) r := fun h => hlisted h.2
        rw [if_neg hlisted, if_neg hnone]
        exact proceed_eq

end code

/-! ### Values that `to_str` does not take -/

/-- A field without text is absent. -/
def HeaderMap.value (headers : HeaderMap) (name : HeaderName) : Bytes := (headers.get name).getD []

/-- The value has a byte that is not visible ASCII. A tag may have bytes from `0x80` on. -/
def HeaderMap.Hidden (headers : HeaderMap) (name : HeaderName) : Prop :=
  (headers.value name).all isVisibleAscii = false

section hidden

variable {headers : HeaderMap} {name : HeaderName}

theorem headerText_of_hidden (h : headers.Hidden name) : headerText headers name = [] := by
  unfold HeaderMap.Hidden HeaderMap.value at h
  unfold headerText
  cases hget : headers.get name with
  | none => rfl
  | some value =>
    rw [hget, Option.getD_some] at h
    dsimp only
    rw [h, if_neg Bool.false_ne_true]

theorem headerText_of_visible (h : ¬headers.Hidden name) :
    headerText headers name = headers.value name := by
  unfold HeaderMap.Hidden HeaderMap.value at h
  unfold headerText HeaderMap.value
  rw [Bool.not_eq_false] at h
  cases hget : headers.get name with
  | none => rfl
  | some value =>
    rw [hget, Option.getD_some] at h
    dsimp only
    rw [if_pos h, Option.getD_some]

theorem value_ne_nil_of_hidden (h : headers.Hidden name) : headers.value name ≠ [] := by
  intro hnil
  unfold HeaderMap.Hidden at h
  rw [hnil] at h
  cases h

end hidden

section agreement

variable {dates : DateReader} {method : Method} {headers : HeaderMap} {r : Representation}

/-- The range that is asked for. -/
noncomputable def asked (text : HeaderName → Bytes) (date : HeaderName → Option ℕ)
    (method : Method) (r : Representation) : Option Bytes :=
  open Classical in
  if text .range = [] ∨ RangeStale text date method r then none else some (text .range)

theorem decision_eq (text : HeaderName → Bytes) (date : HeaderName → Option ℕ) (method : Method)
    (r : Representation) :
    decision text date method r =
      open Classical in
      if Refused text date method r then .preconditionFailed
      else if Unmodified text date method r then .notModified
      else .proceed (asked text date method r) := by
  unfold decision Refused Unmodified asked
  cases method.isGetOrHead <;> split_ifs <;> simp_all

theorem decision_eq_iff (text text' : HeaderName → Bytes) (date : HeaderName → Option ℕ) :
    decision text' date method r = decision text date method r ↔
      (Refused text date method r ↔ Refused text' date method r) ∧
      (¬Refused text date method r →
        (Unmodified text date method r ↔ Unmodified text' date method r) ∧
        (¬Unmodified text date method r → asked text' date method r = asked text date method r)) := by
  rw [decision_eq, decision_eq]
  by_cases h : Refused text date method r <;> by_cases h' : Refused text' date method r <;>
    by_cases hu : Unmodified text date method r <;>
    by_cases hu' : Unmodified text' date method r <;> simp [h, h', hu, hu']

/-- Leaving the hidden fields out decides nothing else. -/
structure HiddenHarmless (dates : DateReader) (method : Method) (headers : HeaderMap)
    (r : Representation) : Prop where
  ifMatch : headers.Hidden .ifMatch →
    ¬(method.isGetOrHead = false ∧ ¬headers.Hidden .ifNoneMatch ∧ NoneMatchFails headers.value r) →
    (Refused headers.value (httpDate dates headers) method r ↔
      UnmodifiedSinceFails (httpDate dates headers) r)
  refused : ¬headers.Hidden .ifMatch → headers.Hidden .ifNoneMatch →
    Refused headers.value (httpDate dates headers) method r →
    Fails headers.value (httpDate dates headers) r
  ifNoneMatch : ¬Refused headers.value (httpDate dates headers) method r →
    method.isGetOrHead = true → headers.Hidden .ifNoneMatch →
    (NoneMatchFails headers.value r ↔ ModifiedSinceFails (httpDate dates headers) r)
  range : ¬Refused headers.value (httpDate dates headers) method r →
    ¬Unmodified headers.value (httpDate dates headers) method r → headers.Hidden .range →
    RangeStale headers.value (httpDate dates headers) method r
  ifRange : ¬Refused headers.value (httpDate dates headers) method r →
    ¬Unmodified headers.value (httpDate dates headers) method r → headers.Hidden .ifRange →
    headers.value .range ≠ [] → ¬headers.Hidden .range →
    ¬RangeStale headers.value (httpDate dates headers) method r

theorem fails_headerText :
    Fails (headerText headers) (httpDate dates headers) r ↔
      (headers.Hidden .ifMatch ∧ UnmodifiedSinceFails (httpDate dates headers) r) ∨
      (¬headers.Hidden .ifMatch ∧ Fails headers.value (httpDate dates headers) r) := by
  unfold Fails MatchFails
  by_cases h : headers.Hidden .ifMatch
  · rw [headerText_of_hidden h]
    simp [h]
  · rw [headerText_of_visible h]
    simp [h]

theorem noneMatchFails_headerText :
    NoneMatchFails (headerText headers) r ↔
      ¬headers.Hidden .ifNoneMatch ∧ NoneMatchFails headers.value r := by
  unfold NoneMatchFails
  by_cases h : headers.Hidden .ifNoneMatch
  · rw [headerText_of_hidden h]
    simp [h]
  · rw [headerText_of_visible h]
    simp [h]

theorem fails_of_hidden (h : headers.Hidden .ifMatch) :
    Fails headers.value (httpDate dates headers) r ↔ MatchFails headers.value r := by
  unfold Fails
  exact ⟨fun h' => h'.elim id fun h' => absurd h'.1 (value_ne_nil_of_hidden h), Or.inl⟩

theorem refused_iff :
    (Refused headers.value (httpDate dates headers) method r ↔
      Refused (headerText headers) (httpDate dates headers) method r) ↔
    (headers.Hidden .ifMatch →
      ¬(method.isGetOrHead = false ∧ ¬headers.Hidden .ifNoneMatch ∧
        NoneMatchFails headers.value r) →
      (Refused headers.value (httpDate dates headers) method r ↔
        UnmodifiedSinceFails (httpDate dates headers) r)) ∧
    (¬headers.Hidden .ifMatch → headers.Hidden .ifNoneMatch →
      Refused headers.value (httpDate dates headers) method r →
      Fails headers.value (httpDate dates headers) r) := by
  unfold Refused
  rw [fails_headerText, noneMatchFails_headerText]
  generalize Fails headers.value (httpDate dates headers) r = fails
  generalize NoneMatchFails headers.value r = listed
  generalize UnmodifiedSinceFails (httpDate dates headers) r = newer
  generalize headers.Hidden .ifMatch = hidden
  generalize headers.Hidden .ifNoneMatch = hiddenList
  generalize (method.isGetOrHead = false) = other
  grind

theorem unmodified_iff :
    (Unmodified headers.value (httpDate dates headers) method r ↔
      Unmodified (headerText headers) (httpDate dates headers) method r) ↔
    (method.isGetOrHead = true → headers.Hidden .ifNoneMatch →
      (NoneMatchFails headers.value r ↔ ModifiedSinceFails (httpDate dates headers) r)) := by
  unfold Unmodified
  rw [noneMatchFails_headerText]
  by_cases hn : headers.Hidden .ifNoneMatch
  · have hvalue := value_ne_nil_of_hidden hn
    have htext := headerText_of_hidden hn
    generalize NoneMatchFails headers.value r = listed
    generalize ModifiedSinceFails (httpDate dates headers) r = older
    grind
  · rw [headerText_of_visible hn]
    generalize NoneMatchFails headers.value r = listed
    grind

theorem rangeStale_headerText (h : ¬headers.Hidden .ifRange) :
    RangeStale (headerText headers) (httpDate dates headers) method r ↔
      RangeStale headers.value (httpDate dates headers) method r := by
  unfold RangeStale Fresh
  rw [headerText_of_visible h]

theorem asked_iff :
    asked (headerText headers) (httpDate dates headers) method r =
      asked headers.value (httpDate dates headers) method r ↔
    (headers.Hidden .range → RangeStale headers.value (httpDate dates headers) method r) ∧
    (headers.Hidden .ifRange → headers.value .range ≠ [] → ¬headers.Hidden .range →
      ¬RangeStale headers.value (httpDate dates headers) method r) := by
  unfold asked
  by_cases hrange : headers.Hidden .range
  · have hvalue := value_ne_nil_of_hidden hrange
    rw [headerText_of_hidden hrange, if_pos (Or.inl rfl)]
    constructor
    · intro heq
      refine ⟨fun _ => ?_, fun _ _ hvisible => absurd hrange hvisible⟩
      by_contra hstale
      rw [if_neg (not_or.mpr ⟨hvalue, hstale⟩)] at heq
      cases heq
    · exact fun h => (if_pos (Or.inr (h.1 hrange))).symm
  · rw [headerText_of_visible hrange]
    by_cases hifRange : headers.Hidden .ifRange
    · have hkept : ¬RangeStale (headerText headers) (httpDate dates headers) method r :=
        fun h => h.2.1 (headerText_of_hidden hifRange)
      by_cases hempty : headers.value .range = []
      · rw [if_pos (Or.inl hempty), if_pos (Or.inl hempty)]
        exact iff_of_true rfl ⟨fun h => absurd h hrange, fun _ h => absurd hempty h⟩
      · rw [if_neg (not_or.mpr ⟨hempty, hkept⟩)]
        constructor
        · refine fun heq => ⟨fun h => absurd h hrange, fun _ _ _ hstale => ?_⟩
          rw [if_pos (Or.inr hstale)] at heq
          cases heq
        · exact fun h => (if_neg (not_or.mpr ⟨hempty, h.2 hifRange hempty hrange⟩)).symm
    · rw [rangeStale_headerText hifRange]
      exact iff_of_true rfl ⟨fun h => absurd h hrange, fun h => absurd h hifRange⟩

/-- The code decides as RFC 9110 has it exactly where the fields that it does not read, for
a byte that is not visible ASCII, decide nothing. -/
theorem preconditions_eq_decision_iff (dates : DateReader) (method : Method) (headers : HeaderMap)
    (r : Representation) :
    preconditions dates method headers r.content =
      decision headers.value (httpDate dates headers) method r ↔
    HiddenHarmless dates method headers r := by
  rw [preconditions_eq, decision_eq_iff, refused_iff]
  constructor
  · rintro ⟨⟨hmatch, hrefused⟩, hrest⟩
    exact
      { ifMatch := hmatch
        refused := hrefused
        ifNoneMatch := fun h => unmodified_iff.mp (hrest h).1
        range := fun h hu => (asked_iff.mp ((hrest h).2 hu)).1
        ifRange := fun h hu => (asked_iff.mp ((hrest h).2 hu)).2 }
  · intro h
    exact ⟨⟨h.ifMatch, h.refused⟩, fun hr => ⟨unmodified_iff.mpr (h.ifNoneMatch hr),
      fun hu => asked_iff.mpr ⟨h.range hr hu, h.ifRange hr hu⟩⟩⟩

end agreement

/-- The request asks for a tag of one byte that is not ASCII. -/
def latinTag : HeaderMap
  | .ifMatch => [[quote, 0xe9, quote]]
  | _ => []

def noDates : DateReader := ⟨fun _ => none, rfl⟩

def taggedOne : Representation := ⟨none, some ⟨false, [0x31], rfl⟩⟩

/-- The request is served, although no tag of `If-Match` is the one of the content. -/
theorem latin_tag_is_ignored :
    preconditions noDates .get latinTag taggedOne.content = .proceed none ∧
      decision latinTag.value (httpDate noDates latinTag) .get taggedOne = .preconditionFailed := by
  refine ⟨rfl, ?_⟩
  unfold decision
  refine if_pos (Or.inl ⟨List.cons_ne_nil _ _, ?_⟩)
  have hvalue : latinTag.value .ifMatch = EntityTag.bytes ⟨false, [0xe9], rfl⟩ ++ [] := rfl
  rw [hvalue, listed_tag]
  rintro (⟨u, hu, -, -, heq⟩ | h)
  · cases hu
    cases heq
  · exact not_listed_nil h

end Rustorr.Conditional
