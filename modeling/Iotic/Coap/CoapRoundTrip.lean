import Iotic.Coap.CoapMessage

/-!
# What the decoder makes of the encoder's bytes (CoapMessage.cpp)

Both sides count option numbers modulo 2^16, so the deltas of an unsorted list are
undone as well; and no nibble is 15, so that no option starts like a payload.
-/

namespace Iotic.Coap
open ByteString

/-! ### Bits and bytes -/

@[simp] theorem CoapType.ofBits_toBits (type : CoapType) : CoapType.ofBits type.toBits = type := by
  cases type <;> rfl

theorem CoapType.toBits_lt (type : CoapType) : type.toBits < 4 := by
  cases type <;> decide

namespace CoapMessage

/-- The two bytes of a 16-bit number, put together again. -/
theorem join_bytes (x : UInt16) :
    (x >>> 8).toUInt8.toUInt16 <<< 8 ||| (x &&& 0xFF).toUInt8.toUInt16 = x := by
  have hx : x.toNat < 65536 := x.toNat_lt
  have hhi : (x >>> 8).toUInt8.toNat = x.toNat / 256 := by
    have hshift : (x >>> 8).toNat = x.toNat / 256 := by
      rw [UInt16.toNat_shiftRight]
      exact Nat.shiftRight_eq_div_pow _ 8
    rw [UInt16.toNat_toUInt8, hshift]
    omega
  have hlo : (x &&& 0xFF).toUInt8.toNat = x.toNat % 256 := by
    have hand : (x &&& 0xFF).toNat = x.toNat % 256 := by
      rw [UInt16.toNat_and]
      exact Nat.and_two_pow_sub_one_eq_mod _ 8
    rw [UInt16.toNat_toUInt8, hand]
    omega
  have hshift : ((x >>> 8).toUInt8.toUInt16 <<< 8).toNat = (x.toNat / 256) <<< 8 := by
    have h := UInt16.toNat_shiftLeft (x >>> 8).toUInt8.toUInt16 8
    rw [UInt8.toNat_toUInt16, hhi] at h
    rw [h]
    apply Nat.mod_eq_of_lt
    show (x.toNat / 256) <<< 8 < 65536
    rw [Nat.shiftLeft_eq]
    omega
  apply UInt16.toNat_inj.mp
  rw [UInt16.toNat_or, hshift, UInt8.toNat_toUInt16, shift_or, hlo]
  omega

/-- The fields of the first byte do not overlap. -/
theorem vtt_fields {version type length : UInt8} (hv : version < 4) (ht : type < 4)
    (hl : length < 16) :
    let vtt := version <<< 6 ||| type <<< 4 ||| (length &&& 0x0F)
    (vtt >>> 6) &&& 0x03 = version ∧ (vtt >>> 4) &&& 0x03 = type ∧ vtt &&& 0x0F = length := by
  have hall : ∀ (v t : Fin 4) (l : Fin 16),
      let vtt := UInt8.ofNat v <<< 6 ||| UInt8.ofNat t <<< 4 ||| (UInt8.ofNat l &&& 0x0F)
      (vtt >>> 6) &&& 0x03 = UInt8.ofNat v ∧ (vtt >>> 4) &&& 0x03 = UInt8.ofNat t ∧
        vtt &&& 0x0F = UInt8.ofNat l := by
    decide
  simpa using hall ⟨version.toNat, hv⟩ ⟨type.toNat, ht⟩ ⟨length.toNat, hl⟩

/-- Neither do the nibbles of an option header, which is no payload marker. -/
theorem nibbles {delta length : UInt8} (hd : delta < 15) (hl : length < 15) :
    let optHdr := delta <<< 4 ||| length
    (optHdr >>> 4) &&& 0x0F = delta ∧ optHdr &&& 0x0F = length ∧ optHdr ≠ 0xFF := by
  have hall : ∀ d l : Fin 15,
      let optHdr := UInt8.ofNat d <<< 4 ||| UInt8.ofNat l
      (optHdr >>> 4) &&& 0x0F = UInt8.ofNat d ∧ optHdr &&& 0x0F = UInt8.ofNat l ∧
        optHdr ≠ 0xFF := by
    decide
  simpa using hall ⟨delta.toNat, hd⟩ ⟨length.toNat, hl⟩

theorem toUInt8_lt_thirteen {x : UInt16} (h : x < 13) : x.toUInt8 < 13 := by
  have hx : x.toNat < 13 := h
  show x.toUInt8.toNat < 13
  rw [UInt16.toNat_toUInt8]
  omega

theorem encodeExtended_nibble (x : UInt16) : (encodeExtended x).1 < 15 := by
  unfold encodeExtended
  split_ifs with h
  · exact UInt8.lt_trans (toUInt8_lt_thirteen h) (by decide)
  · exact (by decide : (13 : UInt8) < 15)
  · exact (by decide : (14 : UInt8) < 15)

/-! ### The cursor -/

/-- The cursor stands before `rest`, and its two numbers add up. -/
structure Cursor.At (data : Bytes) (c : Cursor) (rest : Bytes) : Prop where
  here : data.drop c.p = rest
  counted : c.p + c.remaining = data.length

theorem Cursor.At.remaining_eq {data rest : Bytes} {c : Cursor} (h : c.At data rest) :
    c.remaining = rest.length := by
  have hlen := congrArg List.length h.here
  have hcounted := h.counted
  rw [List.length_drop] at hlen
  omega

theorem Cursor.At.advance {data bs rest : Bytes} {c : Cursor} (h : c.At data (bs ++ rest)) :
    (c.advance bs.length).At data rest where
  here := drop_add h.here
  counted := by
    have hr := h.remaining_eq
    have hcounted := h.counted
    rw [List.length_append] at hr
    simp only [Cursor.advance]
    omega

theorem Cursor.At.next {data rest : Bytes} {c : Cursor} {b : UInt8} (h : c.At data (b :: rest)) :
    (c.advance 1).At data rest :=
  Cursor.At.advance (show c.At data ([b] ++ rest) from h)

theorem Cursor.At.byteAt {data rest : Bytes} {c : Cursor} {b : UInt8}
    (h : c.At data (b :: rest)) : byteAt data c.p = .ok b := by
  rw [CoapMessage.byteAt, getElem?_of_drop h.here]

theorem Cursor.At.bytesAt {data bs rest : Bytes} {c : Cursor} (h : c.At data (bs ++ rest)) :
    bytesAt data c.p bs.length = .ok bs := by
  have hr := h.remaining_eq
  have hcounted := h.counted
  rw [List.length_append] at hr
  rw [CoapMessage.bytesAt, if_pos (by omega), h.here, List.take_left]

/-! ### Extended numbers -/

theorem decodeExtended_small {data : Bytes} {c : Cursor} {nibble : UInt8} (h : nibble < 13) :
    decodeExtended data c nibble = .ok (nibble.toUInt16, c) := by
  unfold decodeExtended
  rw [if_pos h]

theorem decodeExtended_thirteen {data rest : Bytes} {c : Cursor} {b : UInt8}
    (h : c.At data (b :: rest)) :
    decodeExtended data c 13 = .ok (13 + b.toUInt16, c.advance 1) := by
  have hr := h.remaining_eq
  rw [List.length_cons] at hr
  have hlt : ¬ (13 : UInt8) < 13 := by decide
  have hremaining : ¬ c.remaining < 1 := by omega
  simp only [decodeExtended, if_neg hlt, if_pos, if_neg hremaining, h.byteAt, ok_bind]

theorem decodeExtended_fourteen {data rest : Bytes} {c : Cursor} {hi lo : UInt8}
    (h : c.At data (hi :: lo :: rest)) :
    decodeExtended data c 14 =
      .ok ((269 : UInt16) + (hi.toUInt16 <<< 8 ||| lo.toUInt16), c.advance 2) := by
  have hr := h.remaining_eq
  simp only [List.length_cons] at hr
  have hlt : ¬ (14 : UInt8) < 13 := by decide
  have hne : ¬ (14 : UInt8) = 13 := by decide
  have hremaining : ¬ c.remaining < 2 := by omega
  have hlo : byteAt data (c.p + 1) = .ok lo := h.next.byteAt
  simp only [decodeExtended, if_neg hlt, if_neg hne, if_pos, if_neg hremaining, h.byteAt, hlo,
    ok_bind]

/-- The number that was written is read, and the cursor stands behind it. -/
theorem decodeExtended_encodeExtended {data rest : Bytes} {c : Cursor} {x : UInt16}
    (h : c.At data ((encodeExtended x).2 ++ rest)) :
    decodeExtended data c (encodeExtended x).1 =
      .ok (x, c.advance (encodeExtended x).2.length) := by
  unfold encodeExtended at h ⊢
  split_ifs at h ⊢ with hsmall hmiddle
  · have hlt := toUInt8_lt_thirteen hsmall
    have hx : x.toUInt8.toUInt16 = x := by
      have hn : x.toNat < 13 := hsmall
      apply UInt16.toNat_inj.mp
      rw [UInt8.toNat_toUInt16, UInt16.toNat_toUInt8]
      omega
    rw [decodeExtended_small hlt, hx]
    rfl
  · have hx : (x - 13).toUInt8.toUInt16 = x - 13 := by
      have hn : ¬ x.toNat < 13 := hsmall
      have hm : x.toNat < 269 := hmiddle
      have hsub : (x - 13).toNat = x.toNat - 13 := UInt16.toNat_sub_of_le _ _ (Nat.not_lt.mp hn)
      apply UInt16.toNat_inj.mp
      rw [UInt8.toNat_toUInt16, UInt16.toNat_toUInt8, hsub]
      omega
    rw [decodeExtended_thirteen h, hx, UInt16.add_comm, UInt16.sub_add_cancel]
    rfl
  · rw [decodeExtended_fourteen h, join_bytes, UInt16.add_comm, UInt16.sub_add_cancel]
    rfl

/-! ### The options -/

theorem decodeOption_encoded {data rest : Bytes} {s : OptionState} {delta : UInt16} {value : Bytes}
    (hvalue : value.length < 65536)
    (h : s.cursor.At data (((encodeExtended delta).1 <<< 4 |||
        (encodeExtended (UInt16.ofNat value.length)).1) ::
      ((encodeExtended delta).2 ++ (encodeExtended (UInt16.ofNat value.length)).2 ++ value ++
        rest))) :
    ∃ c : Cursor, c.At data rest ∧ c.remaining < s.cursor.remaining ∧
      decodeOption data s = .ok ⟨c, s.currentOptionNumber + delta,
        s.optionsMap.emplace ⟨s.currentOptionNumber + delta⟩ value⟩ := by
  obtain ⟨hdelta, hlength, _⟩ :=
    nibbles (encodeExtended_nibble delta) (encodeExtended_nibble (UInt16.ofNat value.length))
  have hn : (UInt16.ofNat value.length).toNat = value.length := by
    rw [UInt16.toNat_ofNat']
    exact Nat.mod_eq_of_lt hvalue
  have h1 := h.next
  simp only [List.append_assoc] at h1
  have h2 := h1.advance
  have h3 := h2.advance
  have h4 := h3.advance
  have hfits : ¬ ((s.cursor.advance 1).advance (encodeExtended delta).2.length |>.advance
      (encodeExtended (UInt16.ofNat value.length)).2.length).remaining < value.length := by
    rw [h3.remaining_eq, List.length_append]
    omega
  refine ⟨_, h4, ?_, ?_⟩
  · have hr := h.remaining_eq
    rw [List.length_cons] at hr
    simp only [Cursor.advance]
    omega
  · simp only [decodeOption, h.byteAt, ok_bind, hdelta, hlength, decodeExtended_encodeExtended h1,
      decodeExtended_encodeExtended h2, hn, if_neg hfits, h3.bytesAt]

theorem decodeOptions_done {data : Bytes} {fuel : ℕ} {s : OptionState}
    (h : s.cursor.remaining = 0) : decodeOptions data fuel s = .ok s := by
  cases fuel with
  | zero => simp only [decodeOptions, if_pos h]
  | succ fuel => simp only [decodeOptions, if_pos h]

theorem decodeOptions_step {data rest : Bytes} {fuel : ℕ} {s : OptionState} {b : UInt8}
    (h : s.cursor.At data (b :: rest)) :
    decodeOptions data (fuel + 1) s =
      if b = 0xFF then .ok { s with cursor := s.cursor.advance 1 }
      else decodeOption data s >>= decodeOptions data fuel := by
  have hr := h.remaining_eq
  rw [List.length_cons] at hr
  have hne : ¬ s.cursor.remaining = 0 := by omega
  simp only [decodeOptions, if_neg hne, h.byteAt, ok_bind]

/-- Behind the last option the loop ends, at the payload or at the end. -/
theorem decodeOptions_encodePayload {data payload : Bytes} {fuel : ℕ} {s : OptionState}
    (h : s.cursor.At data (encodePayload payload)) (hfuel : s.cursor.remaining ≤ fuel) :
    ∃ c : Cursor, c.At data payload ∧ decodeOptions data fuel s = .ok { s with cursor := c } := by
  have hr := h.remaining_eq
  cases payload with
  | nil =>
    exact ⟨s.cursor, h, decodeOptions_done hr⟩
  | cons b payload =>
    have hlen : (encodePayload (b :: payload)).length = payload.length + 2 := rfl
    obtain ⟨fuel, rfl⟩ := Nat.exists_eq_add_one_of_ne_zero (show fuel ≠ 0 by omega)
    exact ⟨s.cursor.advance 1, h.next, by rw [decodeOptions_step h, if_pos rfl]⟩

/-- What the loop puts into the map: the options, one after another. -/
def emplaceOptions (m : Multimap OptionKey Bytes) (options : List CoapOption) :
    Multimap OptionKey Bytes :=
  (options.map fun opt => (opt.key, opt.value)).foldl (fun m e => m.emplace e.1 e.2) m

theorem decodeOptions_encodeOptions {data payload : Bytes} (options : List CoapOption)
    (hvalues : ∀ opt ∈ options, opt.value.length < 65536) {fuel : ℕ} {s : OptionState}
    (h : s.cursor.At data (encodeOptions s.currentOptionNumber options ++ encodePayload payload))
    (hfuel : s.cursor.remaining ≤ fuel) :
    ∃ (c : Cursor) (number : UInt16), c.At data payload ∧
      decodeOptions data fuel s = .ok ⟨c, number, emplaceOptions s.optionsMap options⟩ := by
  induction options generalizing fuel s with
  | nil =>
    obtain ⟨c, hc, heq⟩ := decodeOptions_encodePayload h hfuel
    exact ⟨c, s.currentOptionNumber, hc, heq⟩
  | cons opt options ih =>
    have hvalue := hvalues opt List.mem_cons_self
    have hrest := fun o ho => hvalues o (List.mem_cons_of_mem opt ho)
    simp only [encodeOptions, List.cons_append, List.append_assoc] at h
    obtain ⟨c, hc, hless, hone⟩ := decodeOption_encoded hvalue (by
      simp only [List.append_assoc]
      exact h)
    have hnumber : s.currentOptionNumber + (opt.key.number - s.currentOptionNumber) =
        opt.key.number := by
      rw [UInt16.add_comm, UInt16.sub_add_cancel]
    rw [hnumber] at hone
    obtain ⟨fuel, rfl⟩ := Nat.exists_eq_add_one_of_ne_zero (show fuel ≠ 0 by omega)
    obtain ⟨_, _, hmarker⟩ := nibbles (encodeExtended_nibble (opt.key.number - s.currentOptionNumber))
      (encodeExtended_nibble (UInt16.ofNat opt.value.length))
    obtain ⟨c', number, hc', heq⟩ := ih hrest (s := ⟨c, opt.key.number,
      s.optionsMap.emplace opt.key opt.value⟩) hc (show c.remaining ≤ fuel by omega)
    refine ⟨c', number, hc', ?_⟩
    rw [decodeOptions_step h, if_neg hmarker, hone, ok_bind]
    exact heq

/-! ### The message -/

theorem encode_fields {m : CoapMessage} (hversion : m.version ≤ 3) (htoken : m.token.length ≤ 12) :
    ∃ hdr, m.encode = hdr :: m.code :: (m.messageId >>> 8).toUInt8 ::
        (m.messageId &&& 0xFF).toUInt8 ::
        (m.token ++ (encodeOptions 0 m.options ++ encodePayload m.payload)) ∧
      (hdr >>> 6) &&& 0x03 = m.version ∧ (hdr >>> 4) &&& 0x03 = m.type.toBits ∧
      (hdr &&& 0x0F).toNat = m.token.length := by
  have hlt : m.version < 4 := UInt8.lt_of_le_of_lt hversion (by decide)
  have hlen : (UInt8.ofNat m.token.length).toNat = m.token.length := by
    rw [UInt8.toNat_ofNat']
    exact Nat.mod_eq_of_lt (by omega)
  have htoken' : UInt8.ofNat m.token.length < 16 := by
    show (UInt8.ofNat m.token.length).toNat < 16
    omega
  have hle : ¬ UInt8.ofNat m.token.length > 12 := by
    show ¬ 12 < (UInt8.ofNat m.token.length).toNat
    omega
  obtain ⟨hv, ht, hl⟩ := vtt_fields hlt m.type.toBits_lt htoken'
  refine ⟨_, ?_, hv, ht, by rw [hl, hlen]⟩
  simp only [encode, if_neg hle, hlen, List.take_length, List.append_assoc]

theorem values_emplaceOptions (options : List CoapOption) (key : OptionKey) :
    (emplaceOptions Multimap.empty options).values key =
      (options.filter fun opt => opt.key = key).map CoapOption.value := by
  rw [emplaceOptions, Multimap.values_foldl_emplace, Multimap.values_empty, List.nil_append,
    Multimap.valuesOf, List.filter_map, List.map_map]
  rfl

/-- Behind a header and a token the decoder goes on with the options. -/
theorem decode_framed {data token rest : Bytes} {hdr code hi lo : UInt8} (senderAddress : String)
    (senderPort : UInt16) (hdata : data = hdr :: code :: hi :: lo :: (token ++ rest))
    (hlength : (hdr &&& 0x0F).toNat = token.length) (htoken : token.length ≤ 12) :
    decode data senderAddress senderPort = (do
      let s ← decodeOptions data data.length
        ⟨(Cursor.advance ⟨0, data.length⟩ 4).advance token.length, 0, Multimap.empty⟩
      let payload ← bytesAt data s.cursor.p s.cursor.remaining
      .ok {
        senderAddress := senderAddress
        senderPort := senderPort
        version := (hdr >>> 6) &&& 0x03
        type := CoapType.ofBits ((hdr >>> 4) &&& 0x03)
        code := code
        messageId := hi.toUInt16 <<< 8 ||| lo.toUInt16
        token := token
        optionsMap := s.optionsMap
        payload := payload }) := by
  have h0 : Cursor.At data ⟨0, data.length⟩ (hdr :: code :: hi :: lo :: (token ++ rest)) :=
    ⟨hdata, Nat.zero_add _⟩
  have hcode : byteAt data (0 + 1) = .ok code := h0.next.byteAt
  have hhi : byteAt data (0 + 2) = .ok hi := h0.next.next.byteAt
  have hlo : byteAt data (0 + 3) = .ok lo := h0.next.next.next.byteAt
  have h4 : Cursor.At data (Cursor.advance ⟨0, data.length⟩ 4) (token ++ rest) :=
    h0.next.next.next.next
  have hfour : ¬ data.length < 4 := by
    rw [hdata]
    simp
  have htwelve : ¬ token.length > 12 := by omega
  have hfits : ¬ (Cursor.advance ⟨0, data.length⟩ 4).remaining < token.length := by
    rw [h4.remaining_eq, List.length_append]
    omega
  unfold decode
  simp only [if_neg hfour, h0.byteAt, hcode, hhi, hlo, ok_bind, hlength, if_neg htwelve,
    if_neg hfits, h4.bytesAt]

theorem decode_ok {data token rest payload : Bytes} {hdr code hi lo : UInt8} {c : Cursor}
    {number : UInt16} {optionsMap : Multimap OptionKey Bytes} (senderAddress : String)
    (senderPort : UInt16) (hdata : data = hdr :: code :: hi :: lo :: (token ++ rest))
    (hlength : (hdr &&& 0x0F).toNat = token.length) (htoken : token.length ≤ 12)
    (hoptions : decodeOptions data data.length
      ⟨(Cursor.advance ⟨0, data.length⟩ 4).advance token.length, 0, Multimap.empty⟩ =
        .ok ⟨c, number, optionsMap⟩)
    (hc : c.At data payload) :
    decode data senderAddress senderPort = .ok {
      senderAddress := senderAddress
      senderPort := senderPort
      version := (hdr >>> 6) &&& 0x03
      type := CoapType.ofBits ((hdr >>> 4) &&& 0x03)
      code := code
      messageId := hi.toUInt16 <<< 8 ||| lo.toUInt16
      token := token
      optionsMap := optionsMap
      payload := payload } := by
  have hpayload : bytesAt data c.p payload.length = .ok payload :=
    Cursor.At.bytesAt (show c.At data (payload ++ []) by
      rw [List.append_nil]
      exact hc)
  rw [← hc.remaining_eq] at hpayload
  rw [decode_framed senderAddress senderPort hdata hlength htoken, hoptions, ok_bind]
  simp only [hpayload, ok_bind]

/-- The message that comes back has the fields of the one sent, and its map holds the
values of each option in their order, in whatever order the options were. -/
theorem decode_encode (m : CoapMessage) (hversion : m.version ≤ 3) (htoken : m.token.length ≤ 12)
    (hvalues : ∀ opt ∈ m.options, opt.value.length < 65536) (senderAddress : String)
    (senderPort : UInt16) :
    ∃ r, decode m.encode senderAddress senderPort = .ok r ∧
      r.version = m.version ∧ r.type = m.type ∧ r.code = m.code ∧ r.messageId = m.messageId ∧
      r.token = m.token ∧ r.payload = m.payload ∧
      ∀ key, r.optionsMap.values key =
        (m.options.filter fun opt => opt.key = key).map CoapOption.value := by
  obtain ⟨hdr, hbytes, hv, ht, hl⟩ := encode_fields hversion htoken
  have h0 : Cursor.At m.encode ⟨0, m.encode.length⟩ _ := ⟨hbytes, Nat.zero_add _⟩
  have h4 : Cursor.At m.encode (Cursor.advance ⟨0, m.encode.length⟩ 4) _ := h0.next.next.next.next
  have hfuel : ((Cursor.advance ⟨0, m.encode.length⟩ 4).advance m.token.length).remaining ≤
      m.encode.length := by
    simp only [Cursor.advance]
    omega
  obtain ⟨c, number, hc, hoptions⟩ := decodeOptions_encodeOptions m.options hvalues
    (s := ⟨_, 0, Multimap.empty⟩) h4.advance hfuel
  refine ⟨_, decode_ok senderAddress senderPort hbytes hl htoken hoptions hc, hv, ?_, rfl,
    join_bytes m.messageId, rfl, rfl, values_emplaceOptions m.options⟩
  rw [ht, CoapType.ofBits_toBits]

/- The second delta wraps around, and one option is there twice. -/
def observedRequest : CoapMessage :=
  { buildDiscoveryRequest with
    messageId := 0xABCD
    token := [1, 2]
    options := buildDiscoveryRequest.options ++ [⟨OptionKey.Observe, []⟩]
    payload := [0xFF] }

theorem decode_encode_observed : ∃ r, decode observedRequest.encode "" 0 = .ok r ∧
    r.messageId = 0xABCD ∧ r.token = [1, 2] ∧ r.payload = [0xFF] ∧
    r.optionsMap.values OptionKey.Observe = [[]] ∧
    r.optionsMap.values OptionKey.UriPath = buildDiscoveryRequest.options.map CoapOption.value := by
  obtain ⟨r, hr, _, _, _, hid, htoken, hpayload, hvalues⟩ :=
    decode_encode observedRequest (by decide) (by decide) (by decide) "" 0
  exact ⟨r, hr, hid, htoken, hpayload, hvalues OptionKey.Observe, hvalues OptionKey.UriPath⟩

end CoapMessage
end Iotic.Coap
