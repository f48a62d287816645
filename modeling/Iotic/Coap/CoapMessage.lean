import Iotic.Lib.ByteString
import Iotic.Lib.Multimap

/-!
# CoAP messages (CoapMessage.h, CoapMessage.cpp)

The encoder writes `options`, the decoder fills `optionsMap`. The decoder walks the
datagram with a pointer `p` and a count `remaining`; both are kept here, and a read
past the datagram is an outcome of its own.
-/

namespace Iotic.Coap
open ByteString

inductive CoapType
  | Confirmable
  | NonConfirmable
  | Acknowledgement
  | Reset
  deriving DecidableEq, Repr

def CoapType.toBits : CoapType → UInt8
  | .Confirmable => 0
  | .NonConfirmable => 1
  | .Acknowledgement => 2
  | .Reset => 3

/-- The cast from two bits to the enumeration. -/
def CoapType.ofBits (bits : UInt8) : CoapType :=
  if bits = 0 then .Confirmable
  else if bits = 1 then .NonConfirmable
  else if bits = 2 then .Acknowledgement
  else .Reset

/- Any byte is a code, and any 16-bit number an option key: both are cast without a check. -/
abbrev Code := UInt8

def Code.Empty : Code := 0x00

def Code.Get : Code := 0x01

structure OptionKey where
  number : UInt16
  deriving Repr

namespace OptionKey

theorem toNat_injective : Function.Injective fun k : OptionKey => k.number.toNat := by
  rintro ⟨a⟩ ⟨b⟩ h
  exact congrArg OptionKey.mk (UInt16.toNat_inj.mp h)

/-- `std::less` of the enumeration. -/
instance : LinearOrder OptionKey := LinearOrder.lift' (fun k => k.number.toNat) toNat_injective

def Observe : OptionKey := ⟨6⟩

def UriPath : OptionKey := ⟨11⟩

end OptionKey

structure CoapOption where
  key : OptionKey
  value : Bytes
  deriving DecidableEq, Repr

structure CoapMessage where
  senderAddress : String := ""
  senderPort : UInt16 := 0
  version : UInt8 := 1
  type : CoapType := .NonConfirmable
  code : Code := Code.Empty
  messageId : UInt16 := 0
  token : Bytes := []
  options : List CoapOption := []
  optionsMap : Multimap OptionKey Bytes := Multimap.empty
  payload : Bytes := []

namespace CoapMessage

/-! ### Encoding -/

/-- The nibble of a number and the bytes that extend it. -/
def encodeExtended (x : UInt16) : UInt8 × Bytes :=
  if x < 13 then (x.toUInt8, [])
  else if x < 269 then (13, [(x - 13).toUInt8])
  else (14, [((x - 269) >>> 8).toUInt8, ((x - 269) &&& 0xFF).toUInt8])

/- The loop over the options as they are: the sorted copy the source makes is not used,
and a smaller number after a larger one gives a delta that wraps around. -/
def encodeOptions : UInt16 → List CoapOption → Bytes
  | _, [] => []
  | optionNumber, opt :: options =>
    let number := opt.key.number
    let (base_delta, ext_delta) := encodeExtended (number - optionNumber)
    let (base_len, ext_len) := encodeExtended (UInt16.ofNat opt.value.length)
    (base_delta <<< 4 ||| base_len) ::
      (ext_delta ++ ext_len ++ opt.value ++ encodeOptions number options)

def encodePayload (payload : Bytes) : Bytes :=
  if payload.isEmpty then [] else 0xFF :: payload

/-- Nothing is written when the token's length, taken as a byte, is too large. -/
def encode (m : CoapMessage) : Bytes :=
  let token_len := UInt8.ofNat m.token.length
  if token_len > 12 then []
  else
    let vtt := m.version <<< 6 ||| m.type.toBits <<< 4 ||| (token_len &&& 0x0F)
    vtt :: m.code :: (m.messageId >>> 8).toUInt8 :: (m.messageId &&& 0xFF).toUInt8 ::
      (m.token.take token_len.toNat ++ encodeOptions 0 m.options ++ encodePayload m.payload)

def buildDiscoveryRequest : CoapMessage where
  code := Code.Get
  options :=
    [⟨OptionKey.UriPath, ".well-known".toList.map fun c => UInt8.ofNat c.toNat⟩,
      ⟨OptionKey.UriPath, "core".toList.map fun c => UInt8.ofNat c.toNat⟩]

/-! ### Decoding -/

/- Why there is no message: `nullopt` is what the source returns, `outOfBounds` a read
past the datagram, `diverged` a loop that runs longer than there are bytes. -/
inductive Stop
  | nullopt
  | outOfBounds
  | diverged
  deriving DecidableEq, Repr

structure Cursor where
  p : ℕ
  remaining : ℕ
  deriving DecidableEq, Repr

/-- `p += n; remaining -= n`. -/
def Cursor.advance (c : Cursor) (n : ℕ) : Cursor := ⟨c.p + n, c.remaining - n⟩

def byteAt (data : Bytes) (i : ℕ) : Except Stop UInt8 :=
  match data[i]? with
  | some b => .ok b
  | none => .error .outOfBounds

/-- `assign(p, p + n)`. -/
def bytesAt (data : Bytes) (p n : ℕ) : Except Stop Bytes :=
  if p + n ≤ data.length then .ok ((data.drop p).take n) else .error .outOfBounds

/-- A nibble and the bytes that extend it: the same steps for a delta and for a length. -/
def decodeExtended (data : Bytes) (c : Cursor) (nibble : UInt8) : Except Stop (UInt16 × Cursor) :=
  if nibble < 13 then .ok (nibble.toUInt16, c)
  else if nibble = 13 then
    if c.remaining < 1 then .error .nullopt
    else do
      let b ← byteAt data c.p
      .ok (13 + b.toUInt16, c.advance 1)
  else if nibble = 14 then
    if c.remaining < 2 then .error .nullopt
    else do
      let hi ← byteAt data c.p
      let lo ← byteAt data (c.p + 1)
      .ok ((269 : UInt16) + (hi.toUInt16 <<< 8 ||| lo.toUInt16), c.advance 2)
  else .error .nullopt

/- What the loop over the options changes. -/
structure OptionState where
  cursor : Cursor
  currentOptionNumber : UInt16
  optionsMap : Multimap OptionKey Bytes

/-- One iteration whose first byte is no payload marker. -/
def decodeOption (data : Bytes) (s : OptionState) : Except Stop OptionState := do
  let optHdr ← byteAt data s.cursor.p
  let deltaNibble := (optHdr >>> 4) &&& 0x0F
  let lengthNibble := optHdr &&& 0x0F
  let (delta, c) ← decodeExtended data (s.cursor.advance 1) deltaNibble
  let (length, c) ← decodeExtended data c lengthNibble
  let currentOptionNumber := s.currentOptionNumber + delta
  if c.remaining < length.toNat then .error .nullopt
  else do
    let value ← bytesAt data c.p length.toNat
    .ok ⟨c.advance length.toNat, currentOptionNumber,
      s.optionsMap.emplace ⟨currentOptionNumber⟩ value⟩

/- `while (remaining > 0)`; `fuel` bounds its iterations. -/
def decodeOptions (data : Bytes) : ℕ → OptionState → Except Stop OptionState
  | fuel, s =>
    if s.cursor.remaining = 0 then .ok s
    else
      match fuel with
      | 0 => .error .diverged
      | fuel + 1 => do
        let b ← byteAt data s.cursor.p
        if b = 0xFF then .ok { s with cursor := s.cursor.advance 1 }
        else
          let s ← decodeOption data s
          decodeOptions data fuel s

def decode (data : Bytes) (senderAddress : String) (senderPort : UInt16) :
    Except Stop CoapMessage :=
  if data.length < 4 then .error .nullopt
  else do
    let c : Cursor := ⟨0, data.length⟩
    let hdr ← byteAt data c.p
    let code ← byteAt data (c.p + 1)
    let hi ← byteAt data (c.p + 2)
    let lo ← byteAt data (c.p + 3)
    let tokenLength := (hdr &&& 0x0F).toNat
    let c := c.advance 4
    if tokenLength > 12 then .error .nullopt
    else if c.remaining < tokenLength then .error .nullopt
    else do
      let token ← bytesAt data c.p tokenLength
      let s ← decodeOptions data data.length ⟨c.advance tokenLength, 0, Multimap.empty⟩
      let payload ← bytesAt data s.cursor.p s.cursor.remaining
      .ok {
        senderAddress := senderAddress
        senderPort := senderPort
        version := (hdr >>> 6) &&& 0x03
        type := CoapType.ofBits ((hdr >>> 4) &&& 0x03)
        code := code
        messageId := hi.toUInt16 <<< 8 ||| lo.toUInt16
        token := token
        optionsMap := s.optionsMap
        payload := payload }

end CoapMessage
end Iotic.Coap
