import Iotic.Lib.Cbor

/-!
# The CBOR library

Encoder and decoder are third-party code: a parameter, with what the daemon
relies on as `Faithful`.
-/

namespace Iotic.Common
open ByteString Cbor

/- What `decoder.run()` calls on its listener. The callbacks that every listener
of the daemon leaves empty are one event. -/
inductive CborEvent where
  | onInteger (value : ℤ)
  | onArray (size : ℤ)
  | onOther
  deriving DecidableEq, Repr

structure CborLibrary where
  writeArray : ℕ → Bytes
  writeInt : ℤ → Bytes
  run : Bytes → List CborEvent

def event : Item → CborEvent
  | .array size => .onArray size
  | .int value => .onInteger value

namespace CborLibrary

def write (lib : CborLibrary) : Item → Bytes
  | .array size => lib.writeArray size
  | .int value => lib.writeInt value

/- What is ever written: `write_array` is called with a `size_t`, `write_int` with an `int`
or a `uint32_t`. -/
def Writable : Item → Prop
  | .array size => size < 2 ^ 64
  | .int value => -2 ^ 31 ≤ value ∧ value < 2 ^ 32

/- What is written and can be read: `on_integer` takes an `int`. -/
def Readable : Item → Prop
  | .array size => size < 2 ^ 64
  | .int value => -2 ^ 31 ≤ value ∧ value < 2 ^ 31

/- Heads and integers are written as RFC 8949 has them, in some form, and of what the
encoder has written the decoder calls back once per item, in order. -/
structure Faithful (lib : CborLibrary) : Prop where
  write_encodes : ∀ item, Writable item → Encodes item (lib.write item)
  run_write : ∀ items : List Item, (∀ item ∈ items, Readable item) →
    lib.run (items.flatMap lib.write) = items.map event

theorem Readable.writable {item : Item} (h : Readable item) : Writable item := by
  cases item with
  | array size => exact h
  | int value => exact ⟨h.1, h.2.trans (by decide)⟩

theorem Faithful.encodesAll {lib : CborLibrary} (hf : lib.Faithful) {items : List Item}
    (h : ∀ item ∈ items, Writable item) : EncodesAll items (items.flatMap lib.write) := by
  have hall := EncodesAll.flatMap id lib.write items fun item hitem =>
    hf.write_encodes item (h item hitem)
  rwa [List.map_id] at hall

/- The library with every head in its shortest form. -/
def shortest : CborLibrary where
  writeArray size := writeHead 4 size
  writeInt value := if 0 ≤ value then writeHead 0 value.toNat else writeHead 1 (-1 - value).toNat
  run bytes := ((readItems bytes.length bytes).getD []).map event

theorem shortest_encodes (item : Item) (h : Writable item) : Encodes item (shortest.write item) := by
  cases item with
  | array size => exact head_writeHead 4 size h
  | int value =>
    obtain ⟨hlo, hhi⟩ := h
    show Encodes (.int value) (if 0 ≤ value then _ else _)
    rw [Encodes]
    split_ifs
    · exact head_writeHead 0 _ (by omega)
    · exact head_writeHead 1 _ (by omega)

theorem shortest_faithful : shortest.Faithful where
  write_encodes := shortest_encodes
  run_write := fun items h => by
    have hall := EncodesAll.flatMap id shortest.write items fun item hitem =>
      shortest_encodes item (h item hitem).writable
    rw [List.map_id] at hall
    have hr := readItems_of_encodesAll hall _ le_rfl
    show ((readItems _ (items.flatMap shortest.write)).getD []).map event = items.map event
    rw [hr]
    rfl

end CborLibrary

end Iotic.Common
