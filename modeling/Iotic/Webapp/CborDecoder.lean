import Iotic.Lib.Cbor
import Iotic.Lib.Sequences
import Mathlib.Data.Nat.Bitwise
import Mathlib.Tactic.IntervalCases

/-!
# The web app's decoder (webapp/lib/io/cbor_decoder.dart)

An exception thrown is an `Except` error. Dart's integers and doubles are
mathematical ones here: archived values and their running sums stay below 2^53,
and what is shifted below 2^32.
-/

namespace Iotic.Webapp
open ByteString Cbor Sequences

/- `diverged` is no exception: the `while` loop ran longer than there are bytes. -/
inductive DartException where
  | formatException (message : String)
  | rangeError
  | diverged
  deriving DecidableEq, Repr

/- `list[index]` throws a RangeError past the end. -/
def index {A : Type} (list : List A) (i : ℕ) : Except DartException A :=
  match list[i]? with
  | some a => .ok a
  | none => .error .rangeError

def byteCounts : List ℕ := [1, 2, 4, 8]

/- `value = (value << 8) | bytes[offset]`, `count` times. -/
def readBytes (bytes : Bytes) : ℕ → ℕ → ℕ → Except DartException ℕ
  | 0, _, value => .ok value
  | count + 1, offset, value => do
    let b ← index bytes offset
    readBytes bytes count (offset + 1) ((value <<< 8) ||| b.toNat)

def readLength (bytes : Bytes) (additional offset : ℕ) : Except DartException ℕ :=
  if additional < 24 then .ok additional
  else do
    let count ← index byteCounts (additional - 24)
    readBytes bytes count offset 0

def lengthBytes (additional : ℕ) : Except DartException ℕ :=
  if additional < 24 then .ok 0
  else if additional ≤ 27 then index byteCounts (additional - 24)
  else .error (.formatException "Unsupported length encoding")

structure IntResult where
  value : ℤ
  offset : ℕ

def readInt (bytes : Bytes) (offset : ℕ) : Except DartException IntResult := do
  let b ← index bytes offset
  let majorType := b.toNat >>> 5
  let additional := b.toNat &&& 0x1F
  let (value, offset) ←
    if additional < 24 then .ok (additional, offset + 1)
    else if additional ≤ 27 then do
      let count ← index byteCounts (additional - 24)
      let value ← readBytes bytes count (offset + 1) 0
      .ok (value, offset + 1 + count)
    else .error (.formatException "Unsupported integer encoding")
  if majorType = 0 then .ok ⟨value, offset⟩
  else if majorType = 1 then .ok ⟨-1 - value, offset⟩
  else .error (.formatException ("Expected integer at offset " ++ toString (offset - 1)))

/- The elements of one array, and the offset behind them. -/
def readList (bytes : Bytes) : ℕ → ℕ → Except DartException (List ℤ × ℕ)
  | 0, offset => .ok ([], offset)
  | n + 1, offset => do
    let val ← readInt bytes offset
    let (rest, offset) ← readList bytes n val.offset
    .ok (val.value :: rest, offset)

/- `list[i] += list[i - 1]` in place, from the second element on. -/
def deltaDecode : List ℤ → List ℤ
  | [] => []
  | x :: xs => x :: sumsFrom x xs

/- The `while` loop over the bytes; `fuel` bounds its iterations. -/
def readArrays (bytes : Bytes) : ℕ → ℕ → Except DartException (List (List ℤ))
  | fuel, offset =>
    if offset < bytes.length then
      match fuel with
      | 0 => .error .diverged
      | fuel + 1 => do
        let b ← index bytes offset
        if b.toNat >>> 5 ≠ 4 then .error (.formatException "Expected array")
        else
          let length ← readLength bytes (b.toNat &&& 0x1F) (offset + 1)
          let skip ← lengthBytes (b.toNat &&& 0x1F)
          let (list, offset) ← readList bytes length (offset + 1 + skip)
          let rest ← readArrays bytes fuel offset
          .ok (deltaDecode list :: rest)
    else .ok []

/- An iteration takes at least one byte. -/
def decodeArrays (bytes : Bytes) : Except DartException (List (List ℤ)) :=
  readArrays bytes bytes.length 0

structure FlSpot where
  x : ℤ
  y : ℤ
  deriving DecidableEq, Repr

def slotsPerDay : ℕ := 288

/- The loop over the slots of the day: `n` slots are left, `i` is the next one. -/
def spotsFrom (timestamps values : List ℤ) (dayStart : ℤ) :
    ℕ → ℕ → ℕ → ℤ → Except DartException (List FlSpot)
  | 0, _, _, _ => .ok []
  | n + 1, i, srcIndex, lastY => do
    let slot := dayStart + i
    let (srcIndex, lastY) ←
      if timestamps[srcIndex]? = some slot then do
        let value ← index values srcIndex
        .ok (srcIndex + 1, value)
      else if srcIndex ≥ timestamps.length then .ok (srcIndex, 0)
      else .ok (srcIndex, lastY)
    let rest ← spotsFrom timestamps values dayStart n (i + 1) srcIndex lastY
    .ok (⟨i, lastY * 10⟩ :: rest)

def decodeArchivedData (bytes : Bytes) : Except DartException (List (List FlSpot)) := do
  let arrays ← decodeArrays bytes
  match arrays with
  | [] => .ok []
  | [] :: _ => .ok []
  | timestamps@(first :: _) :: arrays =>
    let dayStart := first.tdiv slotsPerDay * slotsPerDay
    arrays.mapM fun values => spotsFrom timestamps values dayStart slotsPerDay 0 0 0

/-! ### Reading what the format allows -/

theorem index_of_drop {bytes rest : Bytes} {offset : ℕ} {b : UInt8}
    (h : bytes.drop offset = b :: rest) : index bytes offset = .ok b := by
  rw [index, getElem?_of_drop h]

theorem readBytes_eq (bytes bs rest : Bytes) (offset value : ℕ)
    (h : bytes.drop offset = bs ++ rest) :
    readBytes bytes bs.length offset value =
      .ok (bs.foldl (fun acc b => acc * 256 + b.toNat) value) := by
  induction bs generalizing offset value with
  | nil => rfl
  | cons b bs ih =>
    have hb := index_of_drop h
    have ht := ih (offset + 1) (value * 256 + b.toNat) (drop_succ h)
    rw [List.length_cons, readBytes, hb, ok_bind, shift_or]
    exact ht

theorem readBytes_bigEndian {bytes rest : Bytes} {offset k n : ℕ} (hn : n < 256 ^ k)
    (h : bytes.drop offset = bigEndian k n ++ rest) : readBytes bytes k offset 0 = .ok n := by
  have hr := readBytes_eq bytes _ rest offset 0 h
  rw [length_bigEndian] at hr
  rw [hr]
  exact congrArg Except.ok (beValue_bigEndian k n hn)

theorem initialByte_major (major a : ℕ) (hm : major < 8) (ha : a < 32) :
    (UInt8.ofNat (major * 32 + a)).toNat >>> 5 = major := by
  rw [initialByte major a hm ha, Nat.shiftRight_eq_div_pow]
  omega

theorem initialByte_additional (major a : ℕ) (hm : major < 8) (ha : a < 32) :
    (UInt8.ofNat (major * 32 + a)).toNat &&& 0x1F = a := by
  have hmask : (0x1F : ℕ) = 2 ^ 5 - 1 := rfl
  rw [initialByte major a hm ha, hmask, Nat.and_two_pow_sub_one_eq_mod]
  omega

theorem index_byteCounts {j : ℕ} (hj : j < 4) : index byteCounts (24 + j - 24) = .ok (2 ^ j) := by
  interval_cases j <;> rfl

/- What `readInt` makes of a head of major type 0 or 1. -/
theorem readInt_head {bytes bs rest : Bytes} {offset major arg : ℕ} (hm : major < 2)
    (hh : Head major arg bs) (h : bytes.drop offset = bs ++ rest) :
    readInt bytes offset =
      .ok ⟨if major = 0 then (arg : ℤ) else -1 - arg, offset + bs.length⟩ := by
  have hfin : ∀ (o : ℕ), (if major = 0 then (.ok ⟨(arg : ℤ), o⟩ : Except DartException IntResult)
      else if major = 1 then .ok ⟨-1 - arg, o⟩
      else .error (.formatException ("Expected integer at offset " ++ toString (o - 1)))) =
      .ok ⟨if major = 0 then (arg : ℤ) else -1 - arg, o⟩ := by
    intro o
    by_cases h0 : major = 0
    · rw [if_pos h0, if_pos h0]
    · rw [if_neg h0, if_neg h0, if_pos (by omega)]
  rcases hh with ⟨ha, rfl⟩ | ⟨j, hj, ha, rfl⟩
  · have hb := index_of_drop h
    have hM := initialByte_major major arg (by omega) (by omega)
    have hA := initialByte_additional major arg (by omega) (by omega)
    simp only [readInt, hb, ok_bind, hM, hA, if_pos ha]
    exact hfin (offset + 1)
  · have hb := index_of_drop h
    have hM := initialByte_major major (24 + j) (by omega) (by omega)
    have hA := initialByte_additional major (24 + j) (by omega) (by omega)
    have hr := readBytes_bigEndian ha (drop_succ h)
    have hn : ¬ 24 + j < 24 := by omega
    have hp : 24 + j ≤ 27 := by omega
    simp only [readInt, hb, ok_bind, hM, hA, if_neg hn, if_pos hp, index_byteCounts hj, hr]
    rw [hfin, List.length_cons, length_bigEndian, Nat.add_assoc, Nat.add_comm 1]

theorem readInt_eq {bytes bs rest : Bytes} {offset : ℕ} {value : ℤ}
    (he : Encodes (.int value) bs) (h : bytes.drop offset = bs ++ rest) :
    readInt bytes offset = .ok ⟨value, offset + bs.length⟩ := by
  rw [Encodes] at he
  split_ifs at he with h0
  · rw [readInt_head (by omega) he h, if_pos rfl, Int.toNat_of_nonneg h0]
  · have hv : (-1 : ℤ) - ((-1 - value).toNat : ℕ) = value := by omega
    rw [readInt_head (by omega) he h, if_neg (by omega), hv]

theorem readList_eq {bytes bs rest : Bytes} {offset : ℕ} {values : List ℤ}
    (he : EncodesAll (values.map .int) bs) (h : bytes.drop offset = bs ++ rest) :
    readList bytes values.length offset = .ok (values, offset + bs.length) := by
  induction values generalizing bs offset with
  | nil =>
    cases he
    rfl
  | cons v values ih =>
    rw [List.map_cons] at he
    cases he with
    | @cons _ _ b bs' hv ht =>
      rw [List.append_assoc] at h
      have hi := readInt_eq hv h
      have hl := ih ht (drop_add h)
      rw [List.length_cons, readList, hi, ok_bind, hl, ok_bind, List.length_append, Nat.add_assoc]

/- The head of an array: what the loop reads of it, and where the elements start. -/
theorem readLength_head {bytes bs rest : Bytes} {offset size : ℕ} (hh : Head 4 size bs)
    (h : bytes.drop offset = bs ++ rest) :
    ∃ b skip, index bytes offset = .ok b ∧ b.toNat >>> 5 = 4 ∧
      readLength bytes (b.toNat &&& 0x1F) (offset + 1) = .ok size ∧
      lengthBytes (b.toNat &&& 0x1F) = .ok skip ∧ offset + 1 + skip = offset + bs.length := by
  rcases hh with ⟨ha, rfl⟩ | ⟨j, hj, ha, rfl⟩
  · refine ⟨_, 0, index_of_drop h, initialByte_major 4 size (by omega) (by omega), ?_, ?_, rfl⟩
    · rw [initialByte_additional 4 size (by omega) (by omega), readLength, if_pos ha]
    · rw [initialByte_additional 4 size (by omega) (by omega), lengthBytes, if_pos ha]
  · have hr := readBytes_bigEndian ha (drop_succ h)
    refine ⟨_, 2 ^ j, index_of_drop h, initialByte_major 4 (24 + j) (by omega) (by omega), ?_, ?_, ?_⟩
    · rw [initialByte_additional 4 (24 + j) (by omega) (by omega), readLength, if_neg (by omega),
        index_byteCounts hj, ok_bind, hr]
    · rw [initialByte_additional 4 (24 + j) (by omega) (by omega), lengthBytes, if_neg (by omega),
        if_pos (by omega), index_byteCounts hj]
    · rw [List.length_cons, length_bigEndian]
      omega

theorem readArrays_eq {bytes bs : Bytes} {offset fuel : ℕ} {arrays : List (List ℤ)}
    (he : EncodesAll (arrays.flatMap fun a => .array a.length :: a.map .int) bs)
    (h : bytes.drop offset = bs) (hf : bs.length ≤ fuel) :
    readArrays bytes fuel offset = .ok (arrays.map deltaDecode) := by
  induction arrays generalizing bs offset fuel with
  | nil =>
    cases he
    have hn : ¬ offset < bytes.length := by
      have hl := congrArg List.length h
      rw [List.length_drop, List.length_nil] at hl
      omega
    cases fuel <;> rw [readArrays, if_neg hn] <;> rfl
  | cons a arrays ih =>
    rw [List.flatMap_cons, List.cons_append] at he
    cases he with
    | @cons _ _ head bs' hh ht =>
      obtain ⟨body, tail, rfl, hbody, htail⟩ := ht.split
      have hpos := hh.length_pos
      rw [List.length_append, List.length_append] at hf
      obtain ⟨b, skip, hb, hM, hlen, hskip, ho⟩ := readLength_head hh h
      have hlist := readList_eq hbody (drop_add h)
      have hd := drop_add (drop_add h)
      have hlt : offset < bytes.length := by
        by_contra hn
        rw [List.drop_eq_nil_of_le (by omega)] at h
        have hl := congrArg List.length h
        rw [List.length_append] at hl
        simp only [List.length_nil] at hl
        omega
      cases fuel with
      | zero => omega
      | succ fuel =>
        have hle : tail.length ≤ fuel := by omega
        have hrest := ih htail hd hle
        rw [readArrays, if_pos hlt, hb, ok_bind, if_neg (not_not.mpr hM), hlen, ok_bind, hskip, ok_bind,
          ho, hlist, ok_bind]
        dsimp only
        rw [hrest]
        rfl

/- The arrays of well-formed bytes, each delta decoded. -/
theorem decodeArrays_eq {bytes : Bytes} {arrays : List (List ℤ)}
    (he : EncodesAll (arrays.flatMap fun a => .array a.length :: a.map .int) bytes) :
    decodeArrays bytes = .ok (arrays.map deltaDecode) :=
  readArrays_eq he rfl le_rfl

end Iotic.Webapp
