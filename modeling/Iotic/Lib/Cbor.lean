import Iotic.Lib.ByteString
import Mathlib.Data.Int.Notation
import Mathlib.Data.List.Basic
import Mathlib.Tactic.Common
import Mathlib.Tactic.Ring
import Mathlib.Tactic.NormNum

/-!
# Integers and array heads of RFC 8949

The encoding is a relation: an argument may be written in any of the five forms
that hold it, not only in the shortest. A reader that follows the format undoes
every one of them.
-/

namespace Cbor
open ByteString

/-! ### Heads and items -/

/- The initial byte holds the major type and either the argument itself or the
number of bytes that follow: 24 to 27 stand for 1, 2, 4 and 8. -/
def Head (major arg : ℕ) (bs : Bytes) : Prop :=
  (arg < 24 ∧ bs = [UInt8.ofNat (major * 32 + arg)]) ∨
    ∃ j < 4, arg < 256 ^ 2 ^ j ∧
      bs = UInt8.ofNat (major * 32 + (24 + j)) :: bigEndian (2 ^ j) arg

/- An array head stands alone here: its elements are the items after it. -/
inductive Item where
  | array (size : ℕ)
  | int (value : ℤ)
  deriving DecidableEq, Repr

def Encodes : Item → Bytes → Prop
  | .array size, bs => Head 4 size bs
  | .int value, bs =>
    if 0 ≤ value then Head 0 value.toNat bs else Head 1 (-1 - value).toNat bs

/- A sequence of items, each in some form of its own. -/
inductive EncodesAll : List Item → Bytes → Prop where
  | nil : EncodesAll [] []
  | cons {item items bs rest} : Encodes item bs → EncodesAll items rest →
      EncodesAll (item :: items) (bs ++ rest)

theorem EncodesAll.append {items items' : List Item} {bs bs' : Bytes} (h : EncodesAll items bs)
    (h' : EncodesAll items' bs') : EncodesAll (items ++ items') (bs ++ bs') := by
  induction h with
  | nil => exact h'
  | cons he _ ih =>
    rw [List.append_assoc]
    exact EncodesAll.cons he ih

theorem EncodesAll.split {items items' : List Item} {bs : Bytes}
    (h : EncodesAll (items ++ items') bs) :
    ∃ bs₁ bs₂, bs = bs₁ ++ bs₂ ∧ EncodesAll items bs₁ ∧ EncodesAll items' bs₂ := by
  induction items generalizing bs with
  | nil => exact ⟨[], bs, rfl, EncodesAll.nil, h⟩
  | cons item items ih =>
    cases h with
    | @cons _ _ b rest he ht =>
      obtain ⟨bs₁, bs₂, rfl, h₁, h₂⟩ := ih ht
      exact ⟨b ++ bs₁, bs₂, by rw [List.append_assoc], EncodesAll.cons he h₁, h₂⟩

theorem EncodesAll.flatMap {A : Type*} (item : A → Item) (write : A → Bytes) (as : List A)
    (h : ∀ a ∈ as, Encodes (item a) (write a)) : EncodesAll (as.map item) (as.flatMap write) := by
  induction as with
  | nil => exact EncodesAll.nil
  | cons a as ih =>
    have ha := h a List.mem_cons_self
    rw [List.map_cons, List.flatMap_cons]
    exact EncodesAll.cons ha (ih fun b hb => h b (List.mem_cons_of_mem a hb))

/-! ### Reading -/

theorem initialByte (major a : ℕ) (hm : major < 8) (ha : a < 32) :
    (UInt8.ofNat (major * 32 + a)).toNat = major * 32 + a := by
  rw [UInt8.toNat_ofNat', Nat.mod_eq_of_lt]
  omega

/- Major type, argument and the bytes after the head. -/
def readHead : Bytes → Option (ℕ × ℕ × Bytes)
  | [] => none
  | b :: bs =>
    let additional := b.toNat % 32
    if additional < 24 then some (b.toNat / 32, additional, bs)
    else
      let k := 2 ^ (additional - 24)
      if additional < 28 ∧ k ≤ bs.length then
        some (b.toNat / 32, beValue (bs.take k), bs.drop k)
      else none

def readItem (bs : Bytes) : Option (Item × Bytes) :=
  (readHead bs).bind fun h =>
    if h.1 = 0 then some (.int h.2.1, h.2.2)
    else if h.1 = 1 then some (.int (-1 - h.2.1), h.2.2)
    else if h.1 = 4 then some (.array h.2.1, h.2.2)
    else none

/- Every item up to the end of the bytes; each takes at least one byte, so their
number bounds the recursion. -/
def readItems : ℕ → Bytes → Option (List Item)
  | _, [] => some []
  | 0, _ :: _ => none
  | fuel + 1, b :: bs =>
    (readItem (b :: bs)).bind fun r => (readItems fuel r.2).map fun items => r.1 :: items

theorem Head.length_pos {major arg : ℕ} {bs : Bytes} (h : Head major arg bs) : 0 < bs.length := by
  rcases h with ⟨_, rfl⟩ | ⟨j, _, _, rfl⟩
  · exact Nat.one_pos
  · exact Nat.succ_pos _

theorem Encodes.length_pos {item : Item} {bs : Bytes} (h : Encodes item bs) : 0 < bs.length := by
  cases item with
  | array size => exact Head.length_pos h
  | int value =>
    rw [Encodes] at h
    split_ifs at h with h0
    · exact h.length_pos
    · exact h.length_pos

theorem readHead_append {major arg : ℕ} {bs : Bytes} (hm : major < 8) (h : Head major arg bs)
    (rest : Bytes) : readHead (bs ++ rest) = some (major, arg, rest) := by
  rcases h with ⟨ha, rfl⟩ | ⟨j, hj, ha, rfl⟩
  · have hb := initialByte major arg hm (by omega)
    have hq : (major * 32 + arg) / 32 = major := by omega
    have hr : (major * 32 + arg) % 32 = arg := by omega
    simp only [List.cons_append, List.nil_append, readHead, hb, hq, hr, if_pos ha]
  · have hb := initialByte major (24 + j) hm (by omega)
    have hq : (major * 32 + (24 + j)) / 32 = major := by omega
    have hr : (major * 32 + (24 + j)) % 32 = 24 + j := by omega
    have hs : 24 + j - 24 = j := by omega
    have hl := length_bigEndian (2 ^ j) arg
    have hk : 24 + j < 28 ∧ 2 ^ j ≤ (bigEndian (2 ^ j) arg ++ rest).length := by
      rw [List.length_append, hl]
      omega
    have ht : (bigEndian (2 ^ j) arg ++ rest).take (2 ^ j) = bigEndian (2 ^ j) arg :=
      List.take_left' hl
    have hd : (bigEndian (2 ^ j) arg ++ rest).drop (2 ^ j) = rest := List.drop_left' hl
    rw [List.cons_append, readHead, hb]
    dsimp only
    rw [hq, hr, if_neg (by omega), hs, if_pos hk, ht, hd, beValue_bigEndian _ _ ha]

theorem readItem_append {item : Item} {bs : Bytes} (h : Encodes item bs) (rest : Bytes) :
    readItem (bs ++ rest) = some (item, rest) := by
  cases item with
  | array size =>
    rw [readItem, readHead_append (by omega) h]
    rfl
  | int value =>
    rw [Encodes] at h
    split_ifs at h with h0
    · have hv : ((value.toNat : ℕ) : ℤ) = value := Int.toNat_of_nonneg h0
      rw [readItem, readHead_append (by omega) h, Option.bind_some, if_pos rfl, hv]
    · have hv : (-1 : ℤ) - ((-1 - value).toNat : ℕ) = value := by omega
      rw [readItem, readHead_append (by omega) h, Option.bind_some, if_neg (by omega), if_pos rfl, hv]

/- A reader of the format recovers the items whatever forms were chosen. -/
theorem readItems_of_encodesAll {items : List Item} {bs : Bytes} (h : EncodesAll items bs)
    (fuel : ℕ) (hf : bs.length ≤ fuel) : readItems fuel bs = some items := by
  induction h generalizing fuel with
  | nil => cases fuel <;> rfl
  | @cons item items bs rest he _ ih =>
    have hr := readItem_append he rest
    have hp := he.length_pos
    rw [List.length_append] at hf
    obtain ⟨b, tl, hbs⟩ := List.exists_cons_of_length_pos
      (show 0 < (bs ++ rest).length by rw [List.length_append]; omega)
    cases fuel with
    | zero => omega
    | succ fuel =>
      rw [hbs] at hr ⊢
      rw [readItems, hr, Option.bind_some, ih fuel (by omega)]
      rfl

/-! ### The shortest form -/

def writeHead (major arg : ℕ) : Bytes :=
  if arg < 24 then [UInt8.ofNat (major * 32 + arg)]
  else
    let j := if arg < 256 then 0 else if arg < 256 ^ 2 then 1 else if arg < 256 ^ 4 then 2 else 3
    UInt8.ofNat (major * 32 + (24 + j)) :: bigEndian (2 ^ j) arg

theorem head_writeHead (major arg : ℕ) (h : arg < 2 ^ 64) : Head major arg (writeHead major arg) := by
  rw [writeHead]
  split_ifs with h0 h1 h2 h3
  · exact Or.inl ⟨h0, rfl⟩
  · exact Or.inr ⟨0, by omega, by simpa using h1, rfl⟩
  · exact Or.inr ⟨1, by omega, by simpa using h2, rfl⟩
  · exact Or.inr ⟨2, by omega, by simpa using h3, rfl⟩
  · exact Or.inr ⟨3, by omega, by simpa using h, rfl⟩

end Cbor
