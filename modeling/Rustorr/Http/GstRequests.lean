import Rustorr.Gst.Settings
import Rustorr.Lib.Binary64Range
import Rustorr.Lib.Text

/-! Settings of the GStreamer module as they are sent (`gstreamer_api.rs`): merged field by field, against the
merge of a stored document. -/

namespace Rustorr.GstSettings

open AccessLog (Value)

/-! ### The code -/

/-- The types of Go that the fields have. -/
def goType : Kind → String
  | .bool => "bool"
  | .int => "int"
  | .float => "float64"
  | .string => "string"

/-- `go_decode::kind`. -/
def kindName : Value Number → String
  | .null => "null"
  | .bool _ => "bool"
  | .number _ => "number"
  | .string _ => "string"
  | .array _ => "array"
  | .object _ => "object"

/-- A value that a field takes. -/
def accepts : Kind → Value Number → Bool
  | .bool, .bool _ => true
  | .string, .string _ => true
  | .int, .number (.int n) => decide (n.1 < 2 ^ 63)
  | .float, .number (.int n) => (Binary64.ofInt n.1).isFinite
  | .float, .number (.float x) => x.1.isFinite
  | _, _ => false

/-- The field of a key: the one of this very name, or the one whose name differs in case only. -/
def namedBy (key : List Char) : Option Field :=
  (Field.all.find? fun field => field.name.toList = key).or (fieldOf key)

section code

-- how numbers are written
variable (numberText : Number → List Char)

/-- What was found in the place of another type: a number is quoted only where its text failed to parse. -/
def foundText (kind : Kind) (value : Value Number) : List Char :=
  match kind, value with
  | .int, .number n | .float, .number n => "number ".toList ++ numberText n
  | _, other => (kindName other).toList

def mismatch (field : Field) (value : Value Number) : List Char :=
  "json: cannot unmarshal ".toList ++ (foundText numberText field.kind value ++
    (" into Go struct field Config.config.".toList ++ (field.name.toList ++
      (" of type ".toList ++ (goType field.kind).toList))))

/-- One member: the fields so far, and the first error. -/
def mergeMember (merged : (Field → Value Number) × Option (List Char)) (member : List Char × Value Number) :
    (Field → Value Number) × Option (List Char) :=
  match namedBy member.1 with
  | none => merged
  | some field =>
    if isNull member.2 then merged
    else if accepts field.kind member.2 then (Function.update merged.1 field member.2, merged.2)
    else (merged.1, merged.2.or (some (mismatch numberText field member.2)))

/-- `merge_config`: the config, and the error that is answered. -/
def mergeConfig (c : Config) (members : List (List Char × Value Number)) : Config × Option (List Char) :=
  let merged := members.foldl (mergeMember numberText) (toValues c, none)
  ((ofValues merged.1).getD c, merged.2)

end code

/-! ### What is merged -/

variable {numberText : Number → List Char} {c : Config} {members : List (List Char × Value Number)}

/-- A member of which the field takes the value, or that names no field. -/
def takes (member : List Char × Value Number) : Bool :=
  match fieldOf member.1 with
  | some field => accepts field.kind member.2
  | none => true

/-- What is answered for a member that no field takes. -/
def refusal (numberText : Number → List Char) (member : List Char × Value Number) : Option (List Char) :=
  (fieldOf member.1).bind fun field =>
    if isNull member.2 || accepts field.kind member.2 then none else some (mismatch numberText field member.2)

theorem namedBy_eq (key : List Char) : namedBy key = fieldOf key := by
  unfold namedBy
  cases hfind : Field.all.find? fun field => decide (field.name.toList = key) with
  | none => rfl
  | some field =>
    have hname := List.find?_some hfind
    rw [← of_decide_eq_true hname, fieldOf_name]
    rfl

/-- What is accepted is what can be decoded. -/
theorem accepts_eq (k : Kind) (value : Value Number) : accepts k value = (ofValue k value).isSome := by
  cases k with
  | bool => cases value <;> rfl
  | string => cases value <;> rfl
  | int =>
    cases value with
    | number n =>
      cases n with
      | int n =>
        have haccepts : accepts .int (.number (.int n)) = decide (n.1 < 2 ^ 63) := rfl
        have hvalue : ofValue .int (.number (.int n)) =
            if h : -2 ^ 63 ≤ n.1 ∧ n.1 < 2 ^ 63 then some ⟨n.1, h⟩ else none := rfl
        rw [haccepts, hvalue]
        by_cases h : n.1 < 2 ^ 63
        · rw [decide_eq_true h, dif_pos ⟨n.2.1, h⟩]
          rfl
        · rw [decide_eq_false h, dif_neg fun hn => h hn.2]
          rfl
      | float x => rfl
    | _ => rfl
  | float =>
    cases value with
    | number n =>
      cases n with
      | int n =>
        have hbounds := n.2
        exact Binary64.isFinite_ofInt (by omega)
      | float x => exact x.2
    | _ => rfl

theorem mergeMember_eq (merged : (Field → Value Number) × Option (List Char)) (member : List Char × Value Number) :
    mergeMember numberText merged member =
      (if takes member then override merged.1 member else merged.1, merged.2.or (refusal numberText member)) := by
  unfold mergeMember takes override refusal
  rw [namedBy_eq]
  cases fieldOf member.1 with
  | none => simp only [if_true, Option.bind_none, Option.or_none]
  | some field =>
    simp only [Option.bind_some]
    cases hnull : isNull member.2 with
    | true =>
      rw [if_pos rfl, if_pos rfl, ite_self]
      simp only [Bool.true_or, if_true, Option.or_none]
    | false =>
      rw [if_neg Bool.false_ne_true, if_neg Bool.false_ne_true]
      cases accepts field.kind member.2 with
      | true => simp only [if_true, Bool.or_true, Option.or_none]
      | false => simp only [Bool.false_eq_true, if_false, Bool.or_false]

theorem foldl_mergeMember (merged : (Field → Value Number) × Option (List Char)) :
    members.foldl (mergeMember numberText) merged =
      ((members.filter takes).foldl override merged.1, merged.2.or (members.findSome? (refusal numberText))) := by
  induction members generalizing merged with
  | nil => exact (congrArg (Prod.mk merged.1) Option.or_none).symm
  | cons member members ih =>
    rw [List.foldl_cons, ih, mergeMember_eq, List.filter_cons, List.findSome?_cons]
    refine Prod.ext ?_ ?_
    · cases takes member <;> rfl
    · simp only [Option.or_assoc]
      cases refusal numberText member <;> rfl

theorem fits_filter (members : List (List Char × Value Number)) : Fits (members.filter takes) := by
  intro field value htold
  obtain ⟨member, hfind, rfl⟩ := Option.map_eq_some_iff.mp htold
  obtain ⟨hmem, hname, -⟩ := told_of_found hfind
  have htakes := (List.mem_filter.mp hmem).2
  unfold takes at htakes
  rw [hname] at htakes
  rw [← accepts_eq]
  exact htakes

theorem mergeConfig_eq (hwritable : Writable c) :
    mergeConfig numberText c members =
      (setTo c (members.filter takes), members.findSome? (refusal numberText)) := by
  unfold mergeConfig
  simp only [foldl_mergeMember]
  rw [ofValues_foldl_override hwritable (fits_filter members), Option.none_or]
  rfl

/-- The first one that is looked for stays the first one where it is kept. -/
theorem find?_filter_eq {α : Type} {p q : α → Bool} {l : List α} (h : ∀ a, l.find? p = some a → q a = true) :
    (l.filter q).find? p = l.find? p := by
  induction l with
  | nil => rfl
  | cons a l ih =>
    rw [List.find?_cons] at h ⊢
    rw [List.filter_cons]
    cases hp : p a with
    | true =>
      rw [hp] at h
      rw [if_pos (h a rfl), List.find?_cons, hp]
    | false =>
      rw [hp] at h
      cases q a with
      | true =>
        rw [if_pos rfl, List.find?_cons, hp]
        exact ih h
      | false => exact ih h

/-- Where every field is told at last what it takes, the members before make no difference. -/
theorem told_filter (hfits : Fits members) (field : Field) : told (members.filter takes) field = told members field := by
  have hlast : ∀ member, (members.reverse.find? fun member =>
      decide (fieldOf member.1 = some field) && !isNull member.2) = some member → takes member = true := by
    intro member hfind
    obtain ⟨-, hname, htold⟩ := told_of_found hfind
    unfold takes
    rw [hname]
    exact (accepts_eq _ _).trans (hfits field member.2 htold)
  unfold told
  rw [← List.filter_reverse, find?_filter_eq hlast]

/-- A document that is sent sets each field to the last value that the field takes, and what no field takes is
answered as the error. The same document, stored, sets the same fields, where each is told at last what it takes;
if not, it sets nothing. -/
theorem stored_and_sent {parse : List Char → Option (Value Number)} {document : List Char}
    (hparse : parse document = some (.object members)) (hwritable : Writable c) :
    mergeConfig numberText c members =
        (setTo c (members.filter takes), members.findSome? (refusal numberText)) ∧
      (Fits members → withStored parse c document = (mergeConfig numberText c members).1) ∧
      (¬Fits members → withStored parse c document = c) := by
  have hmerge := @mergeConfig_eq numberText c members hwritable
  refine ⟨hmerge, fun hfits => ?_, withStored_of_not_fits hparse⟩
  rw [withStored_of_fits hparse hwritable hfits, hmerge]
  funext field
  show setTo c members field = setTo c (members.filter takes) field
  unfold setTo
  rw [told_filter hfits]

/-- Four seconds in lower case, and a text where a number is expected. -/
theorem stored_and_sent_segments :
    let members : List (List Char × Value Number) :=
      [("MaxTasks".toList, .string "many".toList), ("segmentseconds".toList, .number (.int ⟨4, by decide⟩))]
    let parse : List Char → Option (Value Number) := fun text =>
      if text = "\x7b\"segmentseconds\":4,\"MaxTasks\":\"many\"\x7d".toList then some (.object members) else none
    mergeConfig (fun _ => []) platformDefaults members =
        (setTo platformDefaults (members.filter takes), members.findSome? (refusal fun _ => [])) ∧
      (Fits members → withStored parse platformDefaults
        "\x7b\"segmentseconds\":4,\"MaxTasks\":\"many\"\x7d".toList =
          (mergeConfig (fun _ => []) platformDefaults members).1) ∧
      (¬Fits members → withStored parse platformDefaults
        "\x7b\"segmentseconds\":4,\"MaxTasks\":\"many\"\x7d".toList = platformDefaults) := by
  intro members parse
  exact stored_and_sent (if_pos rfl) writable_platformDefaults

end Rustorr.GstSettings
