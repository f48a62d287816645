import Iotic.Lib.CborFormat
import Iotic.Lib.Sequences
import Mathlib.Data.List.Induction

/-!
# Site history for the web app (WebAppRouter::serializeSiteHistory)

The entries of a range of time, tens of watts for the powers, each as the
difference from the one before. The JSON library is third-party code: a parameter,
with what is relied on as `Faithful`. Strings are their UTF-8 bytes.
-/

namespace Iotic.Webserver
open ByteString Cbor Sequences

/- The fields of `Site::Properties` that are sent. -/
structure Properties where
  ts : UInt32
  pvPower : Int32
  gridPower : Int32
  deriving DecidableEq, Repr

/-! ### The JSON library -/

/- An object of objects of integer arrays. -/
abbrev Json := List (Bytes × List (Bytes × List ℤ))

def jsonFormat : Format Json := .map (.map (.array .int))

/- `std::map` keeps its keys ascending. -/
def setMember {A : Type} (key : Bytes) (value : A) : List (Bytes × A) → List (Bytes × A)
  | [] => [(key, value)]
  | (k, v) :: rest =>
    if key < k then (key, value) :: (k, v) :: rest
    else if key = k then (k, value) :: rest
    else (k, v) :: setMember key value rest

def member {A : Type} (key : Bytes) : List (Bytes × A) → Option A
  | [] => none
  | (k, v) :: rest => if k = key then some v else member key rest

/- `j[thing][property] = values`; what is missing is created. -/
def assign (j : Json) (thing property : Bytes) (values : List ℤ) : Json :=
  setMember thing (setMember property values ((member thing j).getD [])) j

theorem member_setMember {A : Type} (key k : Bytes) (value : A) (members : List (Bytes × A)) :
    member k (setMember key value members) = if k = key then some value else member k members := by
  induction members with
  | nil => simp only [setMember, member, eq_comm]
  | cons e members ih =>
    rw [setMember]
    by_cases hlt : key < e.1
    · rw [if_pos hlt]
      simp only [member, eq_comm]
    · rw [if_neg hlt]
      by_cases hkey : key = e.1
      · subst hkey
        simp only [if_pos, member, eq_comm]
        by_cases hk : k = e.1
        · simp only [if_pos hk]
        · simp only [if_neg hk]
      · rw [if_neg hkey, member, member, ih]
        by_cases hk : e.1 = k
        · rw [if_pos hk, if_pos hk, if_neg fun h => hkey (h.symm.trans hk.symm)]
        · rw [if_neg hk, if_neg hk]

theorem mem_setMember {A : Type} {key : Bytes} {value : A} {members : List (Bytes × A)}
    {e : Bytes × A} (h : e ∈ setMember key value members) : e = (key, value) ∨ e ∈ members := by
  induction members with
  | nil => exact Or.inl (List.mem_singleton.mp h)
  | cons m members ih =>
    rw [setMember] at h
    split_ifs at h with hlt hkey
    · exact (List.mem_cons.mp h)
    · rcases List.mem_cons.mp h with rfl | h
      · exact Or.inl (by rw [hkey])
      · exact Or.inr (List.mem_cons_of_mem _ h)
    · rcases List.mem_cons.mp h with rfl | h
      · exact Or.inr List.mem_cons_self
      · exact (ih h).imp_right (List.mem_cons_of_mem _)

theorem setMember_sorted {A : Type} (key : Bytes) (value : A) {members : List (Bytes × A)}
    (h : members.Pairwise fun a b => a.1 < b.1) :
    (setMember key value members).Pairwise fun a b => a.1 < b.1 := by
  induction members with
  | nil => exact List.pairwise_singleton _ _
  | cons m members ih =>
    obtain ⟨hhd, htl⟩ := List.pairwise_cons.mp h
    rw [setMember]
    split_ifs with hlt hkey
    · refine List.pairwise_cons.mpr ⟨fun e he => ?_, h⟩
      rcases List.mem_cons.mp he with rfl | he
      · exact hlt
      · exact List.lt_trans hlt (hhd e he)
    · exact List.pairwise_cons.mpr ⟨hhd, htl⟩
    · refine List.pairwise_cons.mpr ⟨fun e he => ?_, ih htl⟩
      rcases mem_setMember he with rfl | he
      · by_contra hle
        exact hkey (List.le_antisymm (List.not_lt.mp hle) (List.not_lt.mp hlt))
      · exact hhd e he

structure JsonLibrary where
  toCbor : Json → Bytes

/- Written as RFC 8949 has it, in any form. -/
def JsonLibrary.Faithful (lib : JsonLibrary) : Prop :=
  ∀ j, jsonFormat.Writable j → jsonFormat.Encodes j (lib.toCbor j)

def JsonLibrary.shortest : JsonLibrary := ⟨jsonFormat.write⟩

theorem JsonLibrary.shortest_faithful : JsonLibrary.shortest.Faithful :=
  fun _ h => jsonFormat.encodes_write h

/- `util::toString` of an enumerator. -/
def enumToString (enumName : String) : Bytes :=
  match enumName.toList with
  | [] => []
  | c :: cs => (c.toLower :: cs).map fun d => UInt8.ofNat d.toNat

/-! ### The range -/

/- `lower_bound` and a step back, unless it is the first entry. The bounds are
converted to `uint`. -/
def itl (history : List Properties) (fromTs : ℤ) : ℕ :=
  let itl := (history.takeWhile fun data => data.ts ≤ UInt32.ofInt fromTs).length
  if itl ≠ 0 then itl - 1 else itl

def itu (history : List Properties) (toTs : ℤ) : ℕ :=
  (history.takeWhile fun data => ¬ UInt32.ofInt toTs ≤ data.ts).length

def slice (history : List Properties) (fromTs toTs : ℤ) : List Properties :=
  (history.take (itu history toTs)).drop (itl history fromTs)

/-! ### Encoding -/

/- The loop runs from the last element to the first: `*it -= *(it + 1)` over
reverse iterators. -/
def subtractNext {A : Type} [Sub A] : List A → List A
  | [] => []
  | [x] => [x]
  | x :: y :: rest => (x - y) :: subtractNext (y :: rest)

def differences {A : Type} [Sub A] (values : List A) : List A := (subtractNext values.reverse).reverse

def document (entries : List Properties) : Json :=
  let timestamps := differences (entries.map Properties.ts)
  let pvPowers := differences ((entries.map Properties.pvPower).map fun v => v / 10)
  let gridPowers := differences ((entries.map Properties.gridPower).map fun v => v / 10)
  let j := assign [] (enumToString "site") (enumToString "timestamp") (timestamps.map fun v => (v.toNat : ℤ))
  let j := assign j (enumToString "site") (enumToString "pv_power") (pvPowers.map Int32.toInt)
  assign j (enumToString "site") (enumToString "grid_power") (gridPowers.map Int32.toInt)

/- `none` is undefined behaviour: the warning reads the first entry of an empty
history, and `std::distance` cannot be asked backwards. -/
def serializeSiteHistory (lib : JsonLibrary) (history : List Properties) (fromTs toTs : ℤ) :
    Option Bytes :=
  if history = [] ∨ itu history toTs < itl history fromTs then none
  else if itu history toTs - itl history fromTs < 1 then some []
  else some (lib.toCbor (document (slice history fromTs toTs)))

/-! ### What is sent -/

theorem subtractNext_snoc {A : Type} [Sub A] (l : List A) (y x : A) :
    subtractNext (l ++ [y, x]) = (subtractNext (l ++ [y])).dropLast ++ [y - x, x] := by
  induction l with
  | nil => rfl
  | cons a l ih =>
    cases l with
    | nil => rfl
    | cons b l =>
      have hne : subtractNext (b :: l ++ [y]) ≠ [] := by
        cases l <;> simp [subtractNext]
      show (a - b) :: subtractNext (b :: l ++ [y, x]) =
        ((a - b) :: subtractNext (b :: l ++ [y])).dropLast ++ [y - x, x]
      rw [ih, List.dropLast_cons_of_ne_nil hne, List.cons_append]
      rfl

/- From the last element down is as good as from the first one up. -/
theorem differences_cons {A : Type} [Sub A] (x : A) (xs : List A) :
    differences (x :: xs) = x :: diffsFrom x xs := by
  have hreverse : subtractNext (xs.reverse ++ [x]) = (diffsFrom x xs).reverse ++ [x] := by
    induction xs generalizing x with
    | nil => rfl
    | cons y ys ih =>
      rw [List.reverse_cons, List.append_assoc, List.singleton_append, subtractNext_snoc, ih y,
        List.dropLast_concat, diffsFrom, List.reverse_cons, List.append_assoc]
      rfl
  rw [differences, List.reverse_cons, hreverse, List.reverse_append, List.reverse_reverse]
  rfl

theorem length_differences {A : Type} [Sub A] (xs : List A) : (differences xs).length = xs.length := by
  cases xs with
  | nil => rfl
  | cons x xs => rw [differences_cons, List.length_cons, length_diffsFrom, List.length_cons]

/- The members in the order of their names. -/
theorem document_eq (entries : List Properties) :
    document entries = [(enumToString "site",
      [(enumToString "grid_power",
        (differences ((entries.map Properties.gridPower).map fun v => v / 10)).map Int32.toInt),
      (enumToString "pv_power",
        (differences ((entries.map Properties.pvPower).map fun v => v / 10)).map Int32.toInt),
      (enumToString "timestamp",
        (differences (entries.map Properties.ts)).map fun v => (v.toNat : ℤ))])] := rfl

/- Integers of 32 bits, and fewer of them than a head can count. -/
theorem writable_document {entries : List Properties} (h : entries.length < 2 ^ 64) :
    jsonFormat.Writable (document entries) := by
  have hints : ∀ values : List Int32, values.length = entries.length →
      (Format.array Format.int).Writable (values.map Int32.toInt) := by
    refine fun values hl => ⟨by rwa [List.length_map, hl], fun v hv => ?_⟩
    obtain ⟨x, -, rfl⟩ := List.mem_map.mp hv
    have hlo := Int32.le_toInt x
    have hhi := Int32.toInt_lt x
    exact ⟨by omega, by omega⟩
  have huints : (Format.array Format.int).Writable
      ((differences (entries.map Properties.ts)).map fun v => (v.toNat : ℤ)) := by
    refine ⟨by rwa [List.length_map, length_differences, List.length_map], fun v hv => ?_⟩
    obtain ⟨x, -, rfl⟩ := List.mem_map.mp hv
    have hlt := x.toNat_lt
    exact ⟨by omega, by omega⟩
  have hpowers : ∀ power : Properties → Int32, (Format.array Format.int).Writable
      ((differences ((entries.map power).map fun v => v / 10)).map Int32.toInt) := fun power =>
    hints _ (by rw [length_differences, List.length_map, List.length_map])
  have hnames : ∀ name ∈ ["site", "grid_power", "pv_power", "timestamp"],
      (enumToString name).length < 2 ^ 64 := by decide
  rw [document_eq]
  refine ⟨by simp, List.forall_mem_singleton.mpr ⟨hnames "site" (by simp), ?_⟩⟩
  refine ⟨by simp, List.forall_mem_cons.mpr ⟨⟨hnames "grid_power" (by simp), hpowers _⟩, ?_⟩⟩
  exact List.forall_mem_cons.mpr ⟨⟨hnames "pv_power" (by simp), hpowers _⟩,
    List.forall_mem_singleton.mpr ⟨hnames "timestamp" (by simp), huints⟩⟩

/-! ### Differences that are exact -/

theorem toInt_tens (v : Int32) : (v / 10).toInt = v.toInt.tdiv 10 :=
  Int32.toInt_div_of_ne_right v 10 (by decide)

/- Quotients by ten are too small for a difference to overflow. -/
theorem toInt_sub_tens (a b : Int32) : (b / 10 - a / 10).toInt = (b / 10).toInt - (a / 10).toInt := by
  have hbounds : ∀ v : Int32, -214748364 ≤ v.toInt.tdiv 10 ∧ v.toInt.tdiv 10 ≤ 214748364 := by
    intro v
    have hlo := Int32.le_toInt v
    have hhi := Int32.toInt_lt v
    have habs : (v.toInt.tdiv 10).natAbs = v.toInt.natAbs / 10 := Int.natAbs_tdiv v.toInt 10
    omega
  have ha := hbounds a
  have hb := hbounds b
  rw [Int32.toInt_sub, toInt_tens, toInt_tens]
  exact Int.bmod_eq_of_le (by omega) (by omega)

theorem toNat_sub_ascending {a b : UInt32} (h : a < b) :
    ((b - a).toNat : ℤ) = (b.toNat : ℤ) - a.toNat := by
  have hlt := UInt32.lt_iff_toNat_lt.mp h
  rw [UInt32.toNat_sub_of_le b a (UInt32.le_of_lt h)]
  omega

end Iotic.Webserver
