import Iotic.Lib.ByteString
import Iotic.Lib.Multimap
import Iotic.Lib.Sequences

/-!
# Link lists (CoreLinkDocument.cpp)

The payload of a discovery response is split at commas and each link at semicolons. The
brackets of a target and the quotes of a value are taken off with `remove_prefix(1)` and
`remove_suffix(1)`, which are not defined on an empty view.
-/

namespace Iotic.Coap
open ByteString

inductive CoreLinkResourceType
  | temperature
  | humidity
  | light
  | switch_
  | percentage
  | voltage
  | current
  | power
  deriving DecidableEq, Repr

namespace CoreLinkResourceType

def name : CoreLinkResourceType → String
  | temperature => "temperature"
  | humidity => "humidity"
  | light => "light"
  | switch_ => "switch_"
  | percentage => "percentage"
  | voltage => "voltage"
  | current => "current"
  | power => "power"

def all : List CoreLinkResourceType :=
  [temperature, humidity, light, switch_, percentage, voltage, current, power]

theorem idxOf_injective : Function.Injective fun t : CoreLinkResourceType => all.idxOf t := by
  intro a b h
  revert h
  cases a <;> cases b <;> decide

instance : LinearOrder CoreLinkResourceType := LinearOrder.lift' (fun t => all.idxOf t) idxOf_injective

end CoreLinkResourceType

namespace CoreLinkDocument

/- The characters of a literal. -/
def chars (s : String) : Bytes := s.toList.map fun c => UInt8.ofNat c.toNat

def comma : UInt8 := 44
def semicolon : UInt8 := 59
def equals : UInt8 := 61

/-! ### Views -/

/-- `sv.find(c, start)`. -/
def find (sv : Bytes) (c : UInt8) (start : ℕ) : Option ℕ :=
  ((sv.drop start).findIdx? (· == c)).map (start + ·)

/- The loop of `forEach`: what it hands to the function, from `start` on. -/
def forEachFrom (sv : Bytes) (c : UInt8) : ℕ → ℕ → List Bytes
  | 0, _ => []
  | fuel + 1, start =>
    match find sv c start with
    | none => [sv.drop start]
    | some e => (sv.drop start).take (e - start) :: forEachFrom sv c fuel (e + 1)

def forEach (sv : Bytes) (c : UInt8) : List Bytes := forEachFrom sv c (sv.length + 1) 0

def removePrefix : Bytes → Option Bytes
  | [] => none
  | _ :: sv => some sv

def removeSuffix (sv : Bytes) : Option Bytes := if sv.isEmpty then none else some sv.dropLast

/-- `remove_prefix(1)`, then `remove_suffix(1)`. -/
def strip (sv : Bytes) : Option Bytes := (removePrefix sv).bind removeSuffix

/-! ### Decoding -/

/- What the loop over the parts of a link fills; of a key given twice the last value counts
and stands first. -/
structure Link where
  ref : Bytes := []
  attributes : List (Bytes × Bytes) := []
  deriving DecidableEq, Repr

/-- `none` where a view is shortened that is empty. -/
def subElement (link : Link) (e : Bytes × ℕ) : Option Link :=
  let (subElement, subIndex) := e
  if subIndex = 0 then
    (strip subElement).map fun ref => { link with ref }
  else if ! link.ref.isEmpty then
    match find subElement equals 0 with
    | none => some link
    | some eqPos =>
      let key := subElement.take eqPos
      (strip (subElement.drop (eqPos + 1))).map fun value =>
        { link with attributes := (key, value) :: link.attributes }
  else some link

def decodeLink (element : Bytes) : Option Link :=
  (forEach element semicolon).zipIdx.foldlM subElement {}

end CoreLinkDocument

structure CoreLinkDocument where
  sensors : Multimap CoreLinkResourceType Bytes := Multimap.empty
  actuators : Multimap CoreLinkResourceType Bytes := Multimap.empty

namespace CoreLinkDocument

/-- `magic_enum::enum_cast`. -/
def enumCast (rtype : Bytes) : Option CoreLinkResourceType :=
  CoreLinkResourceType.all.find? fun t => chars t.name = rtype

def addLink (doc : CoreLinkDocument) (link : Link) : CoreLinkDocument :=
  if link.ref.isEmpty then doc
  else
    match link.attributes.lookup (chars "if"), link.attributes.lookup (chars "rt") with
    | some iface, some rtype =>
      if iface ≠ chars "sensor" ∧ iface ≠ chars "actuator" then doc
      else
        match enumCast rtype with
        | none => doc
        | some resourceType =>
          if iface = chars "sensor" then
            { doc with sensors := doc.sensors.emplace resourceType link.ref }
          else if iface = chars "actuator" then
            { doc with actuators := doc.actuators.emplace resourceType link.ref }
          else doc
    | _, _ => doc

/-- `none` where the source has no defined result, `some none` where it returns nothing. -/
def decode (data : Bytes) : Option (Option CoreLinkDocument) :=
  if data.isEmpty then some none
  else do
    let doc ← (forEach data comma).foldlM
      (fun doc element => (decodeLink element).map (addLink doc)) {}
    if doc.sensors.entries.isEmpty && doc.actuators.entries.isEmpty then some none
    else some (some doc)

example : (decode (chars "</t>;if=\"sensor\";rt=\"temperature\"")).map
    (·.map fun doc => doc.sensors.entries) = some (some [(.temperature, chars "/t")]) := by
  decide

/-! ### The parts -/

theorem find_none {sv : Bytes} {c : UInt8} {start : ℕ} (h : find sv c start = none) :
    c ∉ sv.drop start := by
  rw [find, Option.map_eq_none_iff, List.findIdx?_eq_none_iff] at h
  intro hc
  simpa using h c hc

theorem find_some {sv : Bytes} {c : UInt8} {start e : ℕ} (h : find sv c start = some e) :
    sv.drop start = (sv.drop start).take (e - start) ++ c :: sv.drop (e + 1) ∧
      c ∉ (sv.drop start).take (e - start) ∧ start ≤ e ∧ e < sv.length := by
  obtain ⟨i, hi, rfl⟩ := Option.map_eq_some_iff.mp h
  obtain ⟨hlt, hat, hbefore⟩ := List.findIdx?_eq_some_iff_getElem.mp hi
  have hc : (sv.drop start)[i] = c := by simpa using hat
  have hsub : start + i - start = i := by omega
  have hdrop : sv.drop (start + i + 1) = (sv.drop start).drop (i + 1) := by
    rw [List.drop_drop, Nat.add_assoc]
  have hlen := hlt
  rw [List.length_drop] at hlen
  rw [hsub, hdrop, ← hc, List.cons_getElem_drop_succ, List.take_append_drop]
  refine ⟨rfl, ?_, by omega, by omega⟩
  intro hmem
  obtain ⟨j, hj, hjc⟩ := List.getElem_of_mem hmem
  rw [List.length_take] at hj
  rw [List.getElem_take] at hjc
  have hne := hbefore j (by omega)
  rw [hc] at hjc
  simp [hjc] at hne

theorem forEachFrom_eq_splitOn (sv : Bytes) (c : UInt8) {fuel start : ℕ}
    (hfuel : sv.length < start + fuel) (hstart : start ≤ sv.length) :
    forEachFrom sv c fuel start = (sv.drop start).splitOn c := by
  induction fuel generalizing start with
  | zero => omega
  | succ fuel ih =>
    rw [forEachFrom]
    cases he : find sv c start with
    | none => exact (List.splitOn_eq_singleton (find_none he)).symm
    | some e =>
      obtain ⟨hsplit, hbefore, hle, hlt⟩ := find_some he
      have hrest : forEachFrom sv c fuel (e + 1) = (sv.drop (e + 1)).splitOn c :=
        ih (by omega) (by omega)
      have hone := List.splitOn_append_cons_self_of_not_mem hbefore (sv.drop (e + 1))
      rw [← hsplit] at hone
      rw [hone, ← hrest]

theorem forEach_eq_splitOn (sv : Bytes) (c : UInt8) : forEach sv c = sv.splitOn c :=
  forEachFrom_eq_splitOn sv c (by omega) (Nat.zero_le _)

/-! ### What is taken off -/

/- Both ends can be taken off a view of two characters or more. -/
theorem strip_isSome_iff (sv : Bytes) : (strip sv).isSome ↔ 2 ≤ sv.length := by
  match sv with
  | [] => simp [strip, removePrefix]
  | [a] => simp [strip, removePrefix, removeSuffix]
  | a :: b :: sv => simp [strip, removePrefix, removeSuffix]

theorem strip_length {sv r : Bytes} (h : strip sv = some r) : sv.length = r.length + 2 := by
  match sv, h with
  | a :: b :: sv, h =>
    simp only [strip, removePrefix, removeSuffix, Option.bind_some, List.isEmpty_cons,
      Bool.false_eq_true, if_false, Option.some.injEq] at h
    rw [← h]
    simp

/- A part that is no attribute is left alone, and so is every part of a link to nothing. -/
def AttributeStrips (part : Bytes) : Prop :=
  ∀ key value, part = key ++ equals :: value → equals ∉ key → 2 ≤ value.length

theorem attributeStrips_of_find_none {part : Bytes} (h : find part equals 0 = none) :
    AttributeStrips part := by
  intro key value hpart _
  refine absurd ?_ (find_none h)
  rw [List.drop_zero, hpart]
  simp

theorem attributeStrips_iff {part : Bytes} {eqPos : ℕ} (h : find part equals 0 = some eqPos) :
    AttributeStrips part ↔ 2 ≤ (part.drop (eqPos + 1)).length := by
  obtain ⟨hsplit, hkey, -, -⟩ := find_some h
  rw [List.drop_zero] at hsplit hkey
  refine ⟨?_, ?_⟩
  · intro hstrips
    exact hstrips _ _ hsplit hkey
  · intro hlong key value hpart hkey'
    have hone := List.splitOn_append_cons_self_of_not_mem hkey (part.drop (eqPos + 1))
    have hother := List.splitOn_append_cons_self_of_not_mem hkey' value
    rw [← hsplit] at hone
    rw [← hpart, hone] at hother
    have hkeys : part.take (eqPos - 0) = key := (List.cons.inj hother).1
    have heq := hsplit.symm.trans hpart
    rw [hkeys] at heq
    rw [← (List.cons.inj (List.append_cancel_left heq)).2]
    exact hlong

theorem subElement_isSome_iff {link : Link} {part : Bytes} {i : ℕ} (hi : i ≠ 0) :
    (subElement link (part, i)).isSome ↔ (link.ref ≠ [] → AttributeStrips part) := by
  simp only [subElement, if_neg hi]
  cases hr : link.ref with
  | nil => simp
  | cons b r =>
    cases he : find part equals 0 with
    | none => simpa using attributeStrips_of_find_none he
    | some eqPos =>
      rw [attributeStrips_iff he, ← strip_isSome_iff]
      simp

/- Only the first part changes the target. -/
theorem subElement_ref {link link' : Link} {part : Bytes} {i : ℕ} (hi : i ≠ 0)
    (h : subElement link (part, i) = some link') : link'.ref = link.ref := by
  simp only [subElement, if_neg hi] at h
  split_ifs at h
  · cases he : find part equals 0 with
    | none =>
      rw [he] at h
      exact (congrArg Link.ref (Option.some.inj h)).symm
    | some eqPos =>
      rw [he] at h
      obtain ⟨value, -, rfl⟩ := Option.map_eq_some_iff.mp h
      rfl
  · exact (congrArg Link.ref (Option.some.inj h)).symm

/- Behind the target all parts of a link are attributes. -/
theorem attributes_isSome_iff (ref : Bytes) (parts : List Bytes) :
    ((parts.zipIdx 1).foldlM subElement ({ ref } : Link)).isSome ↔
      ∀ part ∈ parts, ref ≠ [] → AttributeStrips part := by
  have hindex : ∀ e ∈ parts.zipIdx 1, e.2 ≠ 0 := by
    intro e he
    have hle := List.le_snd_of_mem_zipIdx he
    omega
  have hrest : ((parts.zipIdx 1).foldlM subElement ({ ref } : Link)).isSome ↔
      ∀ e ∈ parts.zipIdx 1, ref ≠ [] → AttributeStrips e.1 := by
    apply Sequences.foldlM_isSome_iff (J := fun link : Link => link.ref = ref)
    · exact fun link link' e he hl hl' => (subElement_ref (hindex e he) hl').trans hl
    · intro link hl e he
      rw [← hl]
      exact subElement_isSome_iff (hindex e he)
    · rfl
  rw [hrest]
  conv_rhs => rw [← List.zipIdx_map_fst 1 parts]
  exact (List.forall_mem_map (P := fun part => ref ≠ [] → AttributeStrips part)).symm

theorem decodeLink_isSome_iff {element target : Bytes} {parts : List Bytes}
    (h : element.splitOn semicolon = target :: parts) :
    (decodeLink element).isSome ↔
      2 ≤ target.length ∧ (2 < target.length → ∀ part ∈ parts, AttributeStrips part) := by
  rw [decodeLink, forEach_eq_splitOn, h, List.zipIdx_cons, List.foldlM_cons, ← strip_isSome_iff]
  have hfirst : subElement {} (target, 0) = (strip target).map fun ref => { ref } := rfl
  rw [hfirst]
  cases hstrip : strip target with
  | none => simp
  | some ref =>
    have hlen := strip_length hstrip
    have hne : ref ≠ [] ↔ 2 < target.length := by
      rw [hlen, ← List.length_pos_iff]
      omega
    have hbind : ((some ref).map (fun ref => ({ ref } : Link)) >>= fun link =>
        (parts.zipIdx (0 + 1)).foldlM subElement link) =
          (parts.zipIdx 1).foldlM subElement { ref } := rfl
    rw [hbind, attributes_isSome_iff, ← hne]
    simp only [Option.isSome_some, true_and]
    refine ⟨?_, ?_⟩
    · exact fun hall hr part hpart => hall part hpart hr
    · exact fun hall part hpart hr => hall hr part hpart

/-- Of each link the target has two characters or more, and where it has more than these
two, so has the value of every attribute. -/
def StripsEnough (data : Bytes) : Prop :=
  ∀ element ∈ data.splitOn comma, ∀ target parts, element.splitOn semicolon = target :: parts →
    2 ≤ target.length ∧ (2 < target.length → ∀ part ∈ parts, AttributeStrips part)

/-- No empty view is shortened exactly where the payload is empty or there is enough to
take off. -/
theorem decode_defined_iff (data : Bytes) :
    (decode data).isSome ↔ data = [] ∨ StripsEnough data := by
  cases hdata : data with
  | nil => simp [decode]
  | cons b bs =>
    have hlinks : ((forEach (b :: bs) comma).foldlM
        (fun doc element => (decodeLink element).map (addLink doc)) ({} : CoreLinkDocument)).isSome ↔
          ∀ element ∈ forEach (b :: bs) comma, (decodeLink element).isSome :=
      Sequences.foldlM_isSome_iff (J := fun _ => True) (fun _ _ _ _ _ _ => trivial)
        (fun doc _ element _ => by rw [Option.isSome_map]) trivial
    have hdecode : (decode (b :: bs)).isSome ↔ ((forEach (b :: bs) comma).foldlM
        (fun doc element => (decodeLink element).map (addLink doc))
          ({} : CoreLinkDocument)).isSome := by
      rw [decode, List.isEmpty_cons, if_neg (by decide)]
      cases (forEach (b :: bs) comma).foldlM
        (fun doc element => (decodeLink element).map (addLink doc)) ({} : CoreLinkDocument) with
      | none => simp
      | some doc =>
        simp only [Option.bind_eq_bind, Option.bind_some, Option.isSome_some, iff_true]
        split_ifs <;> rfl
    rw [hdecode, hlinks, forEach_eq_splitOn]
    simp only [reduceCtorEq, false_or, StripsEnough]
    refine forall₂_congr fun element _ => ?_
    cases hsplit : element.splitOn semicolon with
    | nil => exact absurd hsplit (List.splitOn_ne_nil semicolon element)
    | cons target parts =>
      rw [decodeLink_isSome_iff hsplit]
      refine ⟨?_, ?_⟩
      · intro h target' parts' heq
        obtain ⟨rfl, rfl⟩ := List.cons.inj heq
        exact h
      · exact fun h => h target parts rfl

/- A comma behind the last link makes an empty one; a value may be empty, too. -/
theorem not_decode_defined : decode (chars "</t>;if=\"sensor\";rt=\"temperature\",") = none ∧
    decode (chars "</t>;if=;rt=\"temperature\"") = none := by
  refine ⟨by decide, by decide⟩

end CoreLinkDocument
end Iotic.Coap
