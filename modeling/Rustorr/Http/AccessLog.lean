import Rustorr.Http.GoScan
import Rustorr.Lib.Signed
import Rustorr.Lib.Utf8
import Mathlib.Data.List.Infix

/-! The bodies in the access log and the secrets in them (`access_log.rs`). How a text of JSON is
read and written as a whole is left to the crate that does it. -/

namespace Rustorr.AccessLog

open Json (Bytes isSpace)
open GoDecode (scan)

variable {ν : Type}

/-- A JSON value; an object's members come in the order of its map. -/
inductive Value (ν : Type) where
  | null
  | bool (b : Bool)
  | number (n : ν)
  | string (text : List Char)
  | array (items : List (Value ν))
  | object (fields : List (List Char × Value ν))

def secretWords : List (List Char) := ["password", "passwd", "secret", "token"].map String.toList

def secret (key : List Char) : Bool :=
  let key := key.map Char.toLower
  decide ("key".toList <:+ key) || secretWords.any fun word => decide (word <:+: key)

/-- `as_str` with a text in it. -/
def hasText : Value ν → Bool
  | .string text => !text.isEmpty
  | _ => false

def stars : Value ν := .string "***".toList

mutual

/-- The value with its secrets masked, and whether there are any. -/
def mask : Value ν → Value ν × Bool
  | .object fields =>
    let masked := maskFields fields
    (.object masked.1, masked.2)
  | .array items =>
    let masked := maskItems items
    (.array masked.1, masked.2)
  | value => (value, false)

def maskItems : List (Value ν) → List (Value ν) × Bool
  | [] => ([], false)
  | item :: items =>
    let first := mask item
    let rest := maskItems items
    (first.1 :: rest.1, first.2 || rest.2)

def maskFields : List (List Char × Value ν) → List (List Char × Value ν) × Bool
  | [] => ([], false)
  | (key, value) :: fields =>
    let rest := maskFields fields
    if secret key && hasText value then ((key, stars) :: rest.1, true)
    else
      let first := mask value
      ((key, first.1) :: rest.1, first.2 || rest.2)

end

/-- `2006/01/02 15:04:05` in UTC, by the seconds since the epoch. -/
def timestamp (seconds : ℕ) : List Char :=
  let days : ℤ := (seconds / 86400 : ℕ)
  let rest := seconds % 86400
  let z := days + 719468
  let era := z / 146097
  let doe := z % 146097
  let yoe := (doe - doe / 1460 + doe / 36524 - doe / 146096) / 365
  let doy := doe - (365 * yoe + yoe / 4 - yoe / 100)
  let mp := (5 * doy + 2) / 153
  let day := doy - (153 * mp + 2) / 5 + 1
  let month := if mp < 10 then mp + 3 else mp - 9
  let year := yoe + era * 400 + if month ≤ 2 then 1 else 0
  I64.padded 4 year ++ '/' :: (I64.padded 2 month ++ '/' :: (I64.padded 2 day ++
    ' ' :: (I64.padded 2 (rest / 3600 : ℕ) ++ ':' :: (I64.padded 2 (rest / 60 % 60 : ℕ) ++
      ':' :: I64.padded 2 (rest % 60 : ℕ)))))

section log

-- how a text is read as one value, and how a value is written
variable (fromSlice : Bytes → Option (Value ν)) (toText : Value ν → List Char)

def firstValue (input : Bytes) : Option (Value ν) :=
  match scan input with
  | .ok n => fromSlice (input.take n)
  | .error _ => none

def redactSecrets (body : List Char) : List Char :=
  match fromSlice (Utf8.encode body) with
  | none => body
  | some value =>
    let masked := mask value
    if masked.2 then toText masked.1 else body

end log

/-! ### Values that differ in their secrets -/

mutual

/-- The same but for the contents of secrets. -/
inductive Alike : Value ν → Value ν → Prop
  | same (v : Value ν) : Alike v v
  | array {items items' : List (Value ν)} : AlikeItems items items' →
    Alike (.array items) (.array items')
  | object {fields fields' : List (List Char × Value ν)} : AlikeFields fields fields' →
    Alike (.object fields) (.object fields')

inductive AlikeItems : List (Value ν) → List (Value ν) → Prop
  | nil : AlikeItems [] []
  | cons {v v' : Value ν} {items items' : List (Value ν)} : Alike v v' →
    AlikeItems items items' → AlikeItems (v :: items) (v' :: items')

inductive AlikeFields : List (List Char × Value ν) → List (List Char × Value ν) → Prop
  | nil : AlikeFields [] []
  | secret {key text text' : List Char} {fields fields' : List (List Char × Value ν)} :
    AccessLog.secret key = true → text ≠ [] → text' ≠ [] → AlikeFields fields fields' →
    AlikeFields ((key, .string text) :: fields) ((key, .string text') :: fields')
  | cons {key : List Char} {v v' : Value ν} {fields fields' : List (List Char × Value ν)} :
    Alike v v' → AlikeFields fields fields' →
    AlikeFields ((key, v) :: fields) ((key, v') :: fields')

end

theorem Alike.hasText_eq {v v' : Value ν} (h : Alike v v') : hasText v = hasText v' := by
  cases h with
  | same => rfl
  | array => rfl
  | object => rfl

mutual

/-- Values that differ in their secrets alone are masked to one. -/
theorem Alike.mask_eq : ∀ {v v' : Value ν}, Alike v v' → mask v = mask v'
  | _, _, .same v => rfl
  | _, _, .array h => by
    unfold mask
    rw [h.mask_eq]
  | _, _, .object h => by
    unfold mask
    rw [h.mask_eq]

theorem AlikeItems.mask_eq : ∀ {items items' : List (Value ν)}, AlikeItems items items' →
    maskItems items = maskItems items'
  | _, _, .nil => rfl
  | _, _, .cons h hs => by
    unfold maskItems
    rw [h.mask_eq, hs.mask_eq]

theorem AlikeFields.mask_eq : ∀ {fields fields' : List (List Char × Value ν)},
    AlikeFields fields fields' → maskFields fields = maskFields fields'
  | _, _, .nil => rfl
  | _, _, .secret hkey htext htext' hs => by
    unfold maskFields hasText
    rw [hs.mask_eq, hkey]
    simp [htext, htext']
  | _, _, .cons h hs => by
    unfold maskFields
    rw [hs.mask_eq, h.mask_eq, h.hasText_eq]

end

/-! ### What the log shows -/

mutual

/-- Somewhere in the value a member of a secret's name holds a text. -/
def holdsSecret : Value ν → Bool
  | .object fields => fieldsHoldSecret fields
  | .array items => itemsHoldSecret items
  | _ => false

def itemsHoldSecret : List (Value ν) → Bool
  | [] => false
  | item :: items => holdsSecret item || itemsHoldSecret items

def fieldsHoldSecret : List (List Char × Value ν) → Bool
  | [] => false
  | (key, value) :: fields =>
    secret key && hasText value || holdsSecret value || fieldsHoldSecret fields

end

mutual

theorem mask_snd : ∀ v : Value ν, (mask v).2 = holdsSecret v
  | .null => rfl
  | .bool _ => rfl
  | .number _ => rfl
  | .string _ => rfl
  | .array items => maskItems_snd items
  | .object fields => maskFields_snd fields

theorem maskItems_snd : ∀ items : List (Value ν), (maskItems items).2 = itemsHoldSecret items
  | [] => rfl
  | item :: items => by
    unfold maskItems itemsHoldSecret
    dsimp only
    rw [mask_snd item, maskItems_snd items]

theorem maskFields_snd : ∀ fields : List (List Char × Value ν),
    (maskFields fields).2 = fieldsHoldSecret fields
  | [] => rfl
  | (key, value) :: fields => by
    unfold maskFields fieldsHoldSecret
    split
    · rename_i hsecret
      rw [hsecret, Bool.true_or, Bool.true_or]
    · rename_i hplain
      rw [Bool.not_eq_true] at hplain
      dsimp only
      rw [hplain, Bool.false_or, mask_snd value, maskFields_snd fields]

end

section redact

variable (fromSlice : Bytes → Option (Value ν)) (toText : Value ν → List Char)

/-- Nothing but blanks stands after the first value. -/
def Whole (input : Bytes) : Prop := ∃ n, scan input = .ok n ∧ ∀ b ∈ input.drop n, isSpace b = true

/-- A text is read as a whole if nothing but blanks stands after its first value. -/
def ReadsWhole : Prop := ∀ input n v, scan input = .ok n → fromSlice (input.take n) = some v →
  fromSlice input = if (input.drop n).all isSpace then some v else none

/-- A masked value is written as a text that can be read. -/
def WritesReadable : Prop := ∀ input v, fromSlice input = some v →
  (fromSlice (Utf8.encode (toText (mask v).1))).isSome

variable {fromSlice toText}

theorem fromSlice_of_firstValue (hreads : ReadsWhole fromSlice) {input : Bytes} {v : Value ν}
    (h : firstValue fromSlice input = some v) :
    (Whole input ∧ fromSlice input = some v) ∨ (¬Whole input ∧ fromSlice input = none) := by
  unfold firstValue at h
  split at h
  · rename_i n hscan
    have hinput := hreads input n v hscan h
    cases hspaces : (input.drop n).all isSpace with
    | true =>
      rw [hspaces, if_pos rfl] at hinput
      exact Or.inl ⟨⟨n, hscan, List.all_eq_true.mp hspaces⟩, hinput⟩
    | false =>
      rw [hspaces, if_neg Bool.false_ne_true] at hinput
      refine Or.inr ⟨?_, hinput⟩
      rintro ⟨m, hm, hblank⟩
      rw [hscan] at hm
      obtain rfl := Except.ok.inj hm
      rw [List.all_eq_true.mpr hblank] at hspaces
      exact Bool.false_ne_true hspaces.symm
  · exact nomatch h

/-- A body is masked if it is one value as a whole and holds a secret, and logged as sent if not. -/
theorem redactSecrets_eq (hreads : ReadsWhole fromSlice) {body : List Char} {v : Value ν}
    (h : firstValue fromSlice (Utf8.encode body) = some v) :
    (Whole (Utf8.encode body) ∧ holdsSecret v = true →
      redactSecrets fromSlice toText body = toText (mask v).1) ∧
    (¬(Whole (Utf8.encode body) ∧ holdsSecret v = true) →
      redactSecrets fromSlice toText body = body) := by
  unfold redactSecrets
  rcases fromSlice_of_firstValue hreads h with ⟨hwhole, hvalue⟩ | ⟨hpart, hnone⟩
  · rw [hvalue]
    simp only [mask_snd]
    constructor
    · rintro ⟨-, hsecret⟩
      rw [if_pos hsecret]
    · intro hplain
      rw [if_neg fun hsecret => hplain ⟨hwhole, hsecret⟩]
  · rw [hnone]
    exact ⟨fun hall => absurd hall.1 hpart, fun _ => rfl⟩

end redact

/-- Two bodies that differ in the contents of secrets alone look the same in the log exactly if they
are the same, or each is one value as a whole and there are secrets to mask. -/
theorem secrets_hidden_iff (fromSlice : Bytes → Option (Value ν)) (toText : Value ν → List Char)
    (hreads : ReadsWhole fromSlice) (hwrites : WritesReadable fromSlice toText)
    (body body' : List Char) (v v' : Value ν)
    (h : firstValue fromSlice (Utf8.encode body) = some v)
    (h' : firstValue fromSlice (Utf8.encode body') = some v') (halike : Alike v v') :
    redactSecrets fromSlice toText body = redactSecrets fromSlice toText body' ↔
      body = body' ∨
      (Whole (Utf8.encode body) ∧ Whole (Utf8.encode body') ∧ holdsSecret v = true) := by
  have hmask := halike.mask_eq
  have hsame : holdsSecret v = holdsSecret v' := by rw [← mask_snd, ← mask_snd, hmask]
  obtain ⟨hmasked, hsent⟩ := @redactSecrets_eq ν fromSlice toText hreads body v h
  obtain ⟨hmasked', hsent'⟩ := @redactSecrets_eq ν fromSlice toText hreads body' v' h'
  rw [← hsame] at hmasked' hsent'
  -- what is written for one value can be read as a whole
  have hreadable : ∀ {t : List Char} {w : Value ν}, firstValue fromSlice (Utf8.encode t) = some w →
      (∃ input u, fromSlice input = some u ∧ t = toText (mask u).1) → Whole (Utf8.encode t) := by
    rintro t w hw ⟨input, u, hu, rfl⟩
    rcases fromSlice_of_firstValue hreads hw with ⟨hwhole, -⟩ | ⟨-, hnone⟩
    · exact hwhole
    · have hsome := hwrites input u hu
      rw [hnone] at hsome
      exact absurd hsome Bool.false_ne_true
  have hparsed : ∀ {t : List Char} {w : Value ν}, firstValue fromSlice (Utf8.encode t) = some w →
      ∃ input, fromSlice input = some w := by
    intro t w hw
    unfold firstValue at hw
    split at hw
    · exact ⟨_, hw⟩
    · exact nomatch hw
  by_cases hsecret : holdsSecret v = true
  case neg =>
    rw [hsent fun hall => hsecret hall.2, hsent' fun hall => hsecret hall.2]
    exact ⟨Or.inl, fun hor => hor.resolve_right fun hall => hsecret hall.2.2⟩
  by_cases hwhole : Whole (Utf8.encode body) <;> by_cases hwhole' : Whole (Utf8.encode body')
  · rw [hmasked ⟨hwhole, hsecret⟩, hmasked' ⟨hwhole', hsecret⟩, hmask]
    exact iff_of_true rfl (Or.inr ⟨hwhole, hwhole', hsecret⟩)
  · rw [hmasked ⟨hwhole, hsecret⟩, hsent' fun hall => hwhole' hall.1]
    refine iff_of_false (fun heq => hwhole' ?_) ?_
    · obtain ⟨input, hinput⟩ := hparsed h
      exact hreadable h' ⟨input, v, hinput, heq.symm⟩
    · rintro (rfl | hall)
      · exact hwhole' hwhole
      · exact hwhole' hall.2.1
  · rw [hsent fun hall => hwhole hall.1, hmasked' ⟨hwhole', hsecret⟩]
    refine iff_of_false (fun heq => hwhole ?_) ?_
    · obtain ⟨input, hinput⟩ := hparsed h'
      exact hreadable h ⟨input, v', hinput, heq⟩
    · rintro (rfl | hall)
      · exact hwhole hwhole'
      · exact hwhole hall.1
  · rw [hsent fun hall => hwhole hall.1, hsent' fun hall => hwhole' hall.1]
    exact ⟨Or.inl, fun hor => hor.resolve_right fun hall => hwhole hall.1⟩

/-! Two bodies with a secret each. -/

def keyText (secret : List Char) : List Char := "\x7b\"key\":\"".toList ++ secret ++ "\"\x7d".toList

def keyValue (secret : List Char) : Value ℕ := .object [("key".toList, .string secret)]

/-- A reader that knows three texts. -/
def readKey (input : Bytes) : Option (Value ℕ) :=
  match scan input with
  | .ok n =>
    if (input.drop n).all isSpace then
      (["a", "b", "***"].find? fun secret =>
        decide (input.take n = Utf8.encode (keyText secret.toList))).map fun secret =>
          keyValue secret.toList
    else none
  | .error _ => none

theorem scan_take {input : Bytes} {n : ℕ} (h : scan input = .ok n) : scan (input.take n) = .ok n := by
  obtain ⟨text, rest, rfl, htext, rfl, -⟩ := ((GoDecode.scan_spec input).1 n).mp h
  rw [List.take_left]
  exact ((GoDecode.scan_spec text).1 _).mpr ⟨text, [], (List.append_nil text).symm, htext, rfl,
    fun b rest' h => nomatch h⟩

theorem readsWhole_readKey : ReadsWhole readKey := by
  intro input n v hscan hvalue
  unfold readKey at hvalue ⊢
  rw [scan_take hscan] at hvalue
  rw [hscan]
  simp only [List.take_take, min_self, List.drop_take_self, List.all_nil, if_true] at hvalue
  simp only [hvalue]

theorem writesReadable_readKey : WritesReadable readKey fun _ => keyText "***".toList := by
  have hstars : (readKey (Utf8.encode (keyText "***".toList))).isSome := by decide +kernel
  exact fun _ _ _ => hstars

theorem alike_keyValue {text text' : List Char} (htext : text ≠ []) (htext' : text' ≠ []) :
    Alike (keyValue text) (keyValue text') :=
  .object (.secret (by decide) htext htext' .nil)

theorem secrets_hidden_key :
    redactSecrets readKey (fun _ => keyText "***".toList) (keyText "a".toList) =
      redactSecrets readKey (fun _ => keyText "***".toList) (keyText "b".toList) := by
  refine (secrets_hidden_iff readKey _ readsWhole_readKey writesReadable_readKey _ _
    (keyValue "a".toList) (keyValue "b".toList) rfl rfl
    (alike_keyValue (by decide) (by decide))).mpr (Or.inr ⟨⟨11, rfl, ?_⟩, ⟨11, rfl, ?_⟩, by decide⟩)
  · exact fun b hb => absurd hb List.not_mem_nil
  · exact fun b hb => absurd hb List.not_mem_nil

/-- A letter after the value, and both secrets are in the log. -/
theorem secret_shown_with_rest :
    let toText : Value ℕ → List Char := fun _ => keyText "***".toList
    let body := keyText "a".toList ++ ['x']
    let body' := keyText "b".toList ++ ['x']
    ReadsWhole readKey ∧ WritesReadable readKey toText ∧
      firstValue readKey (Utf8.encode body) = some (keyValue "a".toList) ∧
      firstValue readKey (Utf8.encode body') = some (keyValue "b".toList) ∧
      Alike (keyValue "a".toList) (keyValue "b".toList) ∧
      redactSecrets readKey toText body ≠ redactSecrets readKey toText body' := by
  refine ⟨readsWhole_readKey, writesReadable_readKey, rfl, rfl,
    alike_keyValue (by decide) (by decide), ?_⟩
  decide +kernel

end Rustorr.AccessLog
