import Iotic.Strategies.Strategy
import Mathlib.Tactic.Common

/-!
# Names of the database's maps (DatabasePrivate::mapName)

A map belongs to a thing, a property and a resolution, 0 for the raw data. Its
name is `thingId.power` or `thingId.power.5min`; what makes it unambiguous is that
an enumerator is an identifier, without dots and not starting like a number.
-/

namespace Iotic.Database

def isIdentifier : Name → Bool
  | [] => false
  | c :: cs => (c.isAlpha || c == '_') && cs.all fun d => d.isAlphanum || d == '_'

/-- `uvw_iot::ThingPropertyKey` by what `magic_enum::enum_name` gives for it. -/
structure ThingPropertyKey where
  enumName : Name
  identifier : isIdentifier enumName = true

theorem ThingPropertyKey.ext {k k' : ThingPropertyKey} (h : k.enumName = k'.enumName) : k = k' := by
  cases k
  cases k'
  cases h
  rfl

/- The two properties whose readings are stored. -/
def ThingPropertyKey.power : ThingPropertyKey := ⟨"power".toList, by decide⟩

def ThingPropertyKey.dcPower : ThingPropertyKey := ⟨"dcPower".toList, by decide⟩

instance : DecidableEq ThingPropertyKey := fun _ _ =>
  decidable_of_iff _ ⟨ThingPropertyKey.ext, congrArg ThingPropertyKey.enumName⟩

/- `std::to_string`. -/
def toDecimal (n : ℤ) : Name :=
  if n < 0 then '-' :: Nat.toDigits 10 n.natAbs else Nat.toDigits 10 n.natAbs

def mapName (thingId : Name) (key : ThingPropertyKey) (resolution : ℤ) : Name :=
  let mapName := thingId ++ '.' :: key.enumName
  if resolution ≠ 0 then mapName ++ '.' :: (toDecimal resolution ++ "min".toList) else mapName

/-! ### The segments of a name -/

theorem isDigit_toDigits {n : ℕ} {c : Char} (h : c ∈ Nat.toDigits 10 n) : c.isDigit = true :=
  Nat.isDigit_of_mem_toDigits (by omega) (by omega) h

theorem toDigits_cancel {m n : ℕ} (h : Nat.toDigits 10 m = Nat.toDigits 10 n) : m = n := by
  have hm := Nat.ofDigitChars_ten_toDigits (n := m)
  rw [h, Nat.ofDigitChars_ten_toDigits] at hm
  exact hm.symm

theorem minus_notMem_toDigits (n : ℕ) : '-' ∉ Nat.toDigits 10 n := fun h =>
  absurd (isDigit_toDigits h) (by decide)

theorem toDecimal_cancel {m n : ℤ} (h : toDecimal m = toDecimal n) : m = n := by
  rw [toDecimal, toDecimal] at h
  split_ifs at h with hm hn hn
  · have hd := toDigits_cancel (List.cons_inj_right _ |>.mp h)
    omega
  · exact absurd (h ▸ List.mem_cons_self) (minus_notMem_toDigits n.natAbs)
  · exact absurd (h ▸ List.mem_cons_self) (minus_notMem_toDigits m.natAbs)
  · have hd := toDigits_cancel h
    omega

theorem dot_notMem_toDecimal (n : ℤ) : '.' ∉ toDecimal n := by
  have hd : '.' ∉ Nat.toDigits 10 n.natAbs := fun h => absurd (isDigit_toDigits h) (by decide)
  rw [toDecimal]
  split_ifs
  · rw [List.mem_cons]
    rintro (h | h)
    · exact absurd h (by decide)
    · exact hd h
  · exact hd

theorem dot_notMem_suffix (n : ℤ) : '.' ∉ toDecimal n ++ "min".toList := by
  rw [List.mem_append]
  rintro (h | h)
  · exact dot_notMem_toDecimal n h
  · exact absurd h (by decide)

theorem dot_notMem_enumName (k : ThingPropertyKey) : '.' ∉ k.enumName := by
  have hk := k.identifier
  intro h
  cases he : k.enumName with
  | nil =>
    rw [he] at h
    cases h
  | cons c cs =>
    rw [he, isIdentifier, Bool.and_eq_true] at hk
    rw [he] at h
    rcases List.mem_cons.mp h with rfl | h
    · exact absurd hk.1 (by decide)
    · exact absurd (List.all_eq_true.mp hk.2 '.' h) (by decide)

theorem not_isAlpha_of_isDigit {c : Char} (h : c.isDigit = true) :
    (c.isAlpha || c == '_') = false := by
  rw [Bool.or_eq_false_iff, beq_eq_false_iff_ne]
  constructor
  · rw [Bool.eq_false_iff]
    intro ha
    have hrange : (decide (c.val ≥ 'A'.val ∧ c.val ≤ 'Z'.val) ||
        decide (c.val ≥ 'a'.val) && decide (c.val ≤ 'z'.val)) = true := ha
    have hdigit : (decide (c.val ≥ '0'.val) && decide (c.val ≤ '9'.val)) = true := h
    simp only [Bool.or_eq_true, Bool.and_eq_true, decide_eq_true_eq, UInt32.le_iff_toNat_le,
      ge_iff_le] at hdigit hrange
    have hA : 'A'.val.toNat = 65 := rfl
    have ha' : 'a'.val.toNat = 97 := rfl
    have h9 : '9'.val.toNat = 57 := rfl
    omega
  · rintro rfl
    exact absurd h (by decide)

/- A resolution starts with a digit or a minus sign, an identifier never does. -/
theorem enumName_ne_suffix (k : ThingPropertyKey) (n : ℤ) :
    k.enumName ≠ toDecimal n ++ "min".toList := by
  have hk := k.identifier
  intro h
  rw [h, toDecimal] at hk
  split_ifs at hk
  · exact absurd hk (by simp [isIdentifier])
  · obtain ⟨c, cs, hc⟩ := List.exists_cons_of_ne_nil (Nat.toDigits_ne_nil (n := n.natAbs) (b := 10))
    have hd : c.isDigit = true := isDigit_toDigits (hc ▸ List.mem_cons_self)
    rw [hc, List.cons_append, isIdentifier, not_isAlpha_of_isDigit hd] at hk
    exact absurd hk (by simp)

/- The last dot splits a name in one way only. -/
theorem split_lastDot {a a' b b' : Name} (hb : '.' ∉ b) (hb' : '.' ∉ b')
    (h : a ++ '.' :: b = a' ++ '.' :: b') : a = a' ∧ b = b' := by
  have hmem : ∀ {c x y : Name}, '.' :: x = c ++ '.' :: y → c ≠ [] → '.' ∈ x := by
    intro c x y he hc
    obtain ⟨d, ds, rfl⟩ := List.exists_cons_of_ne_nil hc
    rw [List.cons_append, List.cons.injEq] at he
    rw [he.2]
    exact List.mem_append_right _ List.mem_cons_self
  rcases List.append_eq_append_iff.mp h with ⟨c, hc, hd⟩ | ⟨c, hc, hd⟩
  · rcases eq_or_ne c [] with rfl | hn
    · exact ⟨by rw [hc, List.append_nil], (List.cons.inj hd).2⟩
    · exact absurd (hmem hd hn) hb
  · rcases eq_or_ne c [] with rfl | hn
    · exact ⟨by rw [hc, List.append_nil], (List.cons.inj hd).2.symm⟩
    · exact absurd (hmem hd hn) hb'

/- Different things, properties or resolutions have maps of different names. -/
theorem mapName_cancel {t t' : Name} {k k' : ThingPropertyKey} {r r' : ℤ}
    (h : mapName t k r = mapName t' k' r') : t = t' ∧ k = k' ∧ r = r' := by
  have hsplit : ∀ {a a' : Name} {k k' : ThingPropertyKey},
      a ++ '.' :: k.enumName = a' ++ '.' :: k'.enumName → a = a' ∧ k = k' := fun he =>
    (split_lastDot (dot_notMem_enumName _) (dot_notMem_enumName _) he).imp id ThingPropertyKey.ext
  rw [mapName, mapName] at h
  split_ifs at h with hr hr' hr'
  · obtain ⟨hb, hs⟩ := split_lastDot (dot_notMem_suffix r) (dot_notMem_suffix r') h
    obtain ⟨ht, hk⟩ := hsplit hb
    exact ⟨ht, hk, toDecimal_cancel (List.append_cancel_right hs)⟩
  · have hs := (split_lastDot (dot_notMem_suffix r) (dot_notMem_enumName k') h).2
    exact absurd hs.symm (enumName_ne_suffix k' r)
  · have hs := (split_lastDot (dot_notMem_enumName k) (dot_notMem_suffix r') h).2
    exact absurd hs (enumName_ne_suffix k r')
  · obtain ⟨ht, hk⟩ := hsplit h
    exact ⟨ht, hk, by omega⟩

/-- The name of a map tells its thing, its property and its resolution. -/
theorem mapName_injective :
    Function.Injective fun m : Name × ThingPropertyKey × ℤ => mapName m.1 m.2.1 m.2.2 := by
  intro ⟨t, k, r⟩ ⟨t', k', r'⟩ h
  obtain ⟨rfl, rfl, rfl⟩ := mapName_cancel h
  rfl

end Iotic.Database
