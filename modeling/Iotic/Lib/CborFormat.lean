import Iotic.Lib.Cbor

/-!
# Composed formats of RFC 8949

A format is the relation between values and bytes that the RFC allows, with a
reader that undoes every choice of form and a writer that makes one. Texts are
their UTF-8 bytes. Formats of nested data are put together from those of the parts.
-/

namespace Cbor
open ByteString

structure Format (A : Type) where
  Encodes : A → Bytes → Prop
  read : Bytes → Option (A × Bytes)
  read_append : ∀ {a bs}, Encodes a bs → ∀ rest, read (bs ++ rest) = some (a, rest)
  Writable : A → Prop
  write : A → Bytes
  encodes_write : ∀ {a}, Writable a → Encodes a (write a)

namespace Format
variable {A B : Type}

/- A whole message. -/
theorem read_eq (f : Format A) {a : A} {bs : Bytes} (h : f.Encodes a bs) :
    f.read bs = some (a, []) := by
  have hr := f.read_append h []
  rwa [List.append_nil] at hr

/-! ### Integers and texts -/

def readInt (bs : Bytes) : Option (ℤ × Bytes) :=
  (readItem bs).bind fun r =>
    match r.1 with
    | .int value => some (value, r.2)
    | .array _ => none

def writeInt (value : ℤ) : Bytes :=
  if 0 ≤ value then writeHead 0 value.toNat else writeHead 1 (-1 - value).toNat

theorem encodes_writeInt {value : ℤ} (h : -2 ^ 64 ≤ value ∧ value < 2 ^ 64) :
    Cbor.Encodes (.int value) (writeInt value) := by
  rw [Cbor.Encodes, writeInt]
  split_ifs
  · exact head_writeHead 0 _ (by omega)
  · exact head_writeHead 1 _ (by omega)

def int : Format ℤ where
  Encodes value bs := Cbor.Encodes (.int value) bs
  read := readInt
  read_append := by
    intro value bs h rest
    rw [readInt, readItem_append h]
    rfl
  Writable value := -2 ^ 64 ≤ value ∧ value < 2 ^ 64
  write := writeInt
  encodes_write := encodes_writeInt

def readText (bs : Bytes) : Option (Bytes × Bytes) :=
  (readHead bs).bind fun h =>
    if h.1 = 3 ∧ h.2.1 ≤ h.2.2.length then some (h.2.2.take h.2.1, h.2.2.drop h.2.1) else none

def text : Format Bytes where
  Encodes s bs := ∃ head, Head 3 s.length head ∧ bs = head ++ s
  read := readText
  read_append := by
    rintro s bs ⟨head, hh, rfl⟩ rest
    have hle : s.length ≤ (s ++ rest).length := by simp
    rw [List.append_assoc, readText, readHead_append (by decide) hh, Option.bind_some,
      if_pos ⟨rfl, hle⟩, List.take_left, List.drop_left]
  Writable s := s.length < 2 ^ 64
  write s := writeHead 3 s.length ++ s
  encodes_write := fun h => ⟨_, head_writeHead 3 _ h, rfl⟩

/-! ### Pairs, arrays and maps -/

def pair (f : Format A) (g : Format B) : Format (A × B) where
  Encodes p bs := ∃ b c, f.Encodes p.1 b ∧ g.Encodes p.2 c ∧ bs = b ++ c
  read bs := (f.read bs).bind fun r => (g.read r.2).map fun q => ((r.1, q.1), q.2)
  read_append := by
    rintro ⟨x, y⟩ bs ⟨b, c, hb, hc, rfl⟩ rest
    rw [List.append_assoc, f.read_append hb, Option.bind_some, g.read_append hc, Option.map_some]
  Writable p := f.Writable p.1 ∧ g.Writable p.2
  write p := f.write p.1 ++ g.write p.2
  encodes_write := fun h => ⟨_, _, f.encodes_write h.1, g.encodes_write h.2, rfl⟩

/- One after the other, each in some form of its own. -/
def EncodesMany (f : Format A) : List A → Bytes → Prop
  | [], bs => bs = []
  | a :: as, bs => ∃ b rest, f.Encodes a b ∧ f.EncodesMany as rest ∧ bs = b ++ rest

def readMany (f : Format A) : ℕ → Bytes → Option (List A × Bytes)
  | 0, bs => some ([], bs)
  | n + 1, bs => (f.read bs).bind fun r => (f.readMany n r.2).map fun q => (r.1 :: q.1, q.2)

theorem readMany_append (f : Format A) {as : List A} {bs : Bytes} (h : f.EncodesMany as bs)
    (rest : Bytes) : f.readMany as.length (bs ++ rest) = some (as, rest) := by
  induction as generalizing bs with
  | nil =>
    obtain rfl := h
    rfl
  | cons a as ih =>
    obtain ⟨b, tail, hb, htail, rfl⟩ := h
    rw [List.append_assoc, List.length_cons, readMany, f.read_append hb, Option.bind_some, ih htail,
      Option.map_some]

theorem encodesMany_flatMap (f : Format A) {as : List A} (h : ∀ a ∈ as, f.Writable a) :
    f.EncodesMany as (as.flatMap f.write) := by
  induction as with
  | nil => rfl
  | cons a as ih =>
    obtain ⟨ha, has⟩ := List.forall_mem_cons.mp h
    exact ⟨_, _, f.encodes_write ha, ih has, List.flatMap_cons⟩

/- A head with the number of elements, then the elements. -/
def sequence (major : ℕ) (hm : major < 8) (f : Format A) : Format (List A) where
  Encodes as bs := ∃ head body, Head major as.length head ∧ f.EncodesMany as body ∧ bs = head ++ body
  read bs := (readHead bs).bind fun h => if h.1 = major then f.readMany h.2.1 h.2.2 else none
  read_append := by
    rintro as bs ⟨head, body, hh, hbody, rfl⟩ rest
    rw [List.append_assoc, readHead_append hm hh, Option.bind_some, if_pos rfl, f.readMany_append hbody]
  Writable as := as.length < 2 ^ 64 ∧ ∀ a ∈ as, f.Writable a
  write as := writeHead major as.length ++ as.flatMap f.write
  encodes_write := fun h =>
    ⟨_, _, head_writeHead major _ h.1, f.encodesMany_flatMap h.2, rfl⟩

def array (f : Format A) : Format (List A) := f.sequence 4 (by decide)

/- Members in the order they are written. -/
def map (f : Format A) : Format (List (Bytes × A)) := (text.pair f).sequence 5 (by decide)

end Format

end Cbor
